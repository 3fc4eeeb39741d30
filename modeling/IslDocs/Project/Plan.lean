import IslDocs.Digest.Sha256
import IslDocs.Interface.Projection
import IslDocs.Manifest.File
import IslDocs.Project.Documents

/-! The plan of a build: the documents in an order that puts dependencies first, where the artifacts
of each belong, and what the artifacts hold. -/

namespace IslDocs

/-- Where the two artifacts of a document belong. -/
structure ArtifactPaths where
  build : Path
  interface : Path

/-- The two artifacts of a document before they are written. -/
structure Rendered where
  context : Text
  entry : Entry
  interface : Text
  paths : ArtifactPaths

structure Plan where
  config : Config
  graph : Graph
  order : List Path

namespace Plan

def make (t : Tree) (root : Path) (config : Config) : Except Failure Plan :=
  let documents := Project.discover t root config
  if documents.isEmpty then .error (.noDocuments root config.suffix)
  else
    let graph := Project.graph t root documents
    match graph.order with
    | .error chain => .error (.dependencyCycle chain)
    | .ok order => .ok { config, graph, order }

/-! ### Places -/

def outputDir (plan : Plan) : Path := plan.graph.root.join plan.config.output

def manifestPath (plan : Plan) : Path := plan.outputDir.join Manifest.fileName

/-- The directory below the output directory that corresponds to a document's own. -/
def artifactDir (plan : Plan) (document : Path) : Path :=
  match (plan.graph.relative document).parent? with
  | some parent => plan.outputDir.join parent.text
  | none => plan.outputDir

/-- The name of a document without its suffix. -/
def stem (plan : Plan) (document : Path) : Text :=
  let name := (plan.graph.relative document).fileName
  (Text.before? plan.config.suffix name).getD name

def artifactPaths (plan : Plan) (document : Path) : ArtifactPaths where
  build := (plan.artifactDir document).join (plan.stem document ++ ".build.md".toList)
  interface := (plan.artifactDir document).join (plan.stem document ++ ".ref.md".toList)

/-- A path relative to the root, with its components joined by slashes. -/
def relative (plan : Plan) (p : Path) : Text := (plan.graph.relative p).slashed

/-! ### Artifacts -/

/-- The dependency on a document with this interface. -/
def dependencyWith (plan : Plan) (p : Path) (text : Text) : Dependency :=
  { name := (plan.artifactPaths p).interface.fileName, text }

/-- The interface of a reference target, if it is a document and `interfaceOf` has its interface. -/
def dependency? (plan : Plan) (document : Path) (interfaceOf : Path → Option Text)
    (target : Text) : Option Dependency :=
  let path := Path.resolveAgainst document target
  if plan.graph.contains path then (interfaceOf path).map (plan.dependencyWith path) else none

/-- The artifacts of a document around its build context. -/
def renderedWith (plan : Plan) (document : Path) (content : Text) (context : BuildContext) :
    Rendered :=
  let paths := plan.artifactPaths document
  { context := context.text
    entry :=
      { buildPath := plan.relative paths.build
        hash := Text.sha256 context.text
        implementation := context.implementation
        interfacePath := plan.relative paths.interface
        source := plan.relative document }
    interface := Interface.project document.fileName content
    paths }

def renderContent (plan : Plan) (document : Path) (interfaceOf : Path → Option Text)
    (content : Text) : Rendered :=
  plan.renderedWith document content
    (BuildContext.compose document.fileName content (plan.dependency? document interfaceOf))

/-- The artifacts of a document as it is in the tree. `interfaceOf` gives the interface of a
dependency, or nothing to leave it out. -/
def render (plan : Plan) (t : Tree) (document : Path) (interfaceOf : Path → Option Text) :
    Except Fault Rendered :=
  (t.readText document).map (plan.renderContent document interfaceOf)

end Plan
end IslDocs
