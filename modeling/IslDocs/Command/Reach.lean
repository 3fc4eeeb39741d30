import IslDocs.Command.Run

/-! Where a command may look or write outside the working directory: at the artifacts of a project,
and at the files that a document names. -/

namespace IslDocs.Command

/-- The places of a project's artifacts, if it has a plan. -/
def artifactReach (t : Tree) : List Path :=
  match Config.load t here with
  | .error _ => []
  | .ok config =>
    let output := Path.join ⟨config.output⟩ Manifest.fileName
    match Plan.make t here config with
    | .error _ => [output]
    | .ok plan =>
      output :: plan.order.flatMap fun document =>
        let paths := plan.artifactPaths document
        [paths.build, paths.interface]

/-- The document, and what its references and theirs name as far as they are in the tree. -/
def inlineReach (t : Tree) (file : Path) (maxDepth : Nat) : List Path :=
  file :: (Inline.resolve t file maxDepth []).2.flatMap (Project.referencesOf t)

def configuredDepth (t : Tree) : Nat :=
  match Config.load t here with
  | .ok config => config.maxDepth
  | .error _ => Config.default.maxDepth

def reach (t : Tree) : Command → List Path
  | build | check _ | info _ | order _ => artifactReach t
  | resolve file depth => inlineReach t file (depth.getD (configuredDepth t))
  | validate file _ _ => [file]

end IslDocs.Command
