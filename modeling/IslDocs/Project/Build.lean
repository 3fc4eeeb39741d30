import IslDocs.Project.Plan

/-! The build of a project. Documents are rendered and written one by one in plan order, each from
the interfaces that are on disk by then; one that fails loses its interface and is left out of the
manifest, and the build goes on. -/

namespace IslDocs

/-- A document whose step failed. -/
structure BuildFailure where
  fault : Fault
  source : Text
  deriving DecidableEq

def BuildFailure.reason (f : BuildFailure) : Text := (Failure.io f.fault).message

structure BuildSummary where
  failures : List BuildFailure
  manifest : Manifest
  manifestPath : Path

namespace Build

/-- A build between two documents. -/
structure Progress where
  tree : Tree
  failures : List BuildFailure
  manifest : Manifest
  deriving DecidableEq

def start (t : Tree) : Progress := { tree := t, failures := [], manifest := .empty }

/-- The interface that is on disk for a document. -/
def storedInterface (plan : Plan) (t : Tree) (document : Path) : Option Text :=
  (t.readText (plan.artifactPaths document).interface).toOption

/-- Writes both artifacts, the interface first. -/
def writeArtifacts (t : Tree) (r : Rendered) : Tree.Change :=
  match t.storeText r.paths.interface r.interface with
  | (t, .error fault) => (t, .error fault)
  | (t, .ok ()) =>
    match t.writeText r.paths.build r.context with
    | .ok t => (t, .ok ())
    | .error fault => (t, .error fault)

/-- Removes the interface that a failed document may have, so that none of its dependents takes it
in. -/
def fail (plan : Plan) (s : Progress) (document : Path) (t : Tree) (fault : Fault) : Progress :=
  { s with
    tree := t.removeIfPossible (plan.artifactPaths document).interface
    failures := s.failures ++ [{ fault, source := plan.relative document }] }

def step (plan : Plan) (s : Progress) (document : Path) : Progress :=
  match plan.render s.tree document (storedInterface plan s.tree) with
  | .error fault => fail plan s document s.tree fault
  | .ok rendered =>
    match writeArtifacts s.tree rendered with
    | (t, .ok ()) => { s with tree := t, manifest := s.manifest.push rendered.entry }
    | (t, .error fault) => fail plan s document t fault

def run (plan : Plan) (t : Tree) : Progress := plan.order.foldl (step plan) (start t)

end Build

/-- Builds the project at a root and writes its manifest. Nothing is written without a plan. -/
def build (t : Tree) (root : Path) (config : Config) : Tree × Except Failure BuildSummary :=
  match Plan.make t root config with
  | .error failure => (t, .error failure)
  | .ok plan =>
    let done := Build.run plan t
    match done.tree.storeText plan.manifestPath done.manifest.serialize with
    | (t, .error fault) => (t, .error (.io fault))
    | (t, .ok ()) =>
      (t, .ok { failures := done.failures, manifest := done.manifest
                manifestPath := plan.manifestPath })

end IslDocs
