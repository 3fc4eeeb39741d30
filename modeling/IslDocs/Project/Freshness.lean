import IslDocs.Project.Plan

/-! Whether a project has changed since its last build. Every build context is rendered again in
plan order, each from the interfaces rendered before it, and its hash compared with the
manifest's. -/

namespace IslDocs

inductive Freshness where
  | fresh | new | removed | stale
  deriving DecidableEq

def Freshness.label : Freshness → Text
  | .fresh => "FRESH".toList
  | .new => "NEW".toList
  | .removed => "REMOVED".toList
  | .stale => "STALE".toList

structure DocumentStatus where
  source : Text
  status : Freshness
  deriving DecidableEq

namespace Freshness

def ofEntry (entry : Option Entry) (hash : Text) : Freshness :=
  match entry with
  | none => .new
  | some e => if e.hash = hash then .fresh else .stale

/-- A check between two documents; the interfaces rendered so far come latest first. -/
structure Progress where
  interfaces : List (Path × Text)
  statuses : List DocumentStatus

def start : Progress := { interfaces := [], statuses := [] }

/-- An unreadable document is stale and has no interface. -/
def step (plan : Plan) (t : Tree) (m : Manifest) (s : Progress) (document : Path) : Progress :=
  let source := plan.relative document
  match plan.render t document fun d => List.lookup d s.interfaces with
  | .error _ => { s with statuses := s.statuses ++ [{ source, status := .stale }] }
  | .ok rendered =>
    { interfaces := (document, rendered.interface) :: s.interfaces
      statuses := s.statuses ++
        [{ source, status := ofEntry (m.entry? source) rendered.entry.hash }] }

def current (plan : Plan) (t : Tree) (m : Manifest) : List DocumentStatus :=
  (plan.order.foldl (step plan t m) start).statuses

/-- The entries of a manifest whose sources are none of `sources`. -/
def removedFrom (m : Manifest) (sources : List Text) : List DocumentStatus :=
  (m.entries.filter fun e => !sources.contains e.source).map fun e =>
    { source := e.source, status := .removed }

end Freshness

/-- The status of every document in build order, and then the removed ones in manifest order. -/
def check (t : Tree) (root : Path) (config : Config) : Except Failure (List DocumentStatus) := do
  let plan ← Plan.make t root config
  let m ← Manifest.read t plan.manifestPath
  let statuses := Freshness.current plan t m
  return statuses ++ Freshness.removedFrom m (statuses.map DocumentStatus.source)

end IslDocs
