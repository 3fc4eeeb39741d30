import IslDocs.Failure.Basic
import IslDocs.Toml.Settings

/-! The configuration of a project: which files are documents, where artifacts go, how deep
references are followed and how strict validation is. Keys that are not set have defaults; unknown
keys, repeated keys and values of the wrong kind are errors. -/

namespace IslDocs

structure Config where
  /-- Where a document's path may not begin. -/
  excluded : List Text
  /-- Where a document's path has to begin, if there are any. -/
  included : List Text
  maxDepth : Nat
  output : Text
  strict : Bool
  suffix : Text
  deriving DecidableEq

namespace Config

def fileName : Text := ".islc.toml".toList

def default : Config where
  excluded := []
  included := []
  maxDepth := 3
  output := "build".toList
  strict := false
  suffix := ".isl.md".toList

/-! ### Reading -/

def assign (c : Config) (key : Text) (value : Toml.Value) : Option Config :=
  if key = "exclude".toList then
    match value with
    | .texts ts => some { c with excluded := ts }
    | _ => none
  else if key = "include".toList then
    match value with
    | .texts ts => some { c with included := ts }
    | _ => none
  else if key = "max_depth".toList then
    match value with
    | .integer (.ofNat n) => some { c with maxDepth := n }
    | _ => none
  else if key = "output".toList then
    match value with
    | .text t => some { c with output := t }
    | _ => none
  else if key = "strict".toList then
    match value with
    | .boolean b => some { c with strict := b }
    | _ => none
  else if key = "suffix".toList then
    match value with
    | .text t => some { c with suffix := t }
    | _ => none
  else none

def hasRepetition : List Text → Bool
  | [] => false
  | key :: rest => rest.contains key || hasRepetition rest

def ofSettings? (settings : List (Text × Toml.Value)) : Option Config :=
  if hasRepetition (settings.map Prod.fst) then none
  else settings.foldlM (fun c (key, value) => c.assign key value) default

def malformed : Failure := .toml "not a configuration".toList

def parse (t : Text) : Except Failure Config :=
  match (Toml.settings? t).bind ofSettings? with
  | some c => .ok c
  | none => .error malformed

/-! ### Scanning -/

/-- What the paths inside the output directory begin with. -/
def outputStart (c : Config) : Text := Text.dropEndWhile (· == '/') c.output ++ ['/']

def isIncluded (c : Config) (path : Text) : Bool :=
  c.included.isEmpty || c.included.any (Text.startsWith · path)

/-- Whether a document at this path, relative to the root, belongs to the project. -/
def shouldScan (c : Config) (path : Text) : Bool :=
  c.isIncluded path && !Text.startsWith c.outputStart path &&
    !c.excluded.any (Text.startsWith · path)

end Config
end IslDocs
