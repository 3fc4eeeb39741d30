import IslDocs.Failure.Basic
import IslDocs.Json.Parser
import IslDocs.Manifest.Basic

/-! Manifests as JSON: an array of entries, each an object with five keys. When an entry is read,
unknown keys are passed over and the implementation may be left out, and the five values alone, in
the order of the keys, are an entry as well. -/

namespace IslDocs

namespace Entry

def buildKey : Text := "buildArtifactPath".toList

def hashKey : Text := "contentHash".toList

def implementationKey : Text := "implementationPath".toList

def interfaceKey : Text := "interfaceArtifactPath".toList

def sourceKey : Text := "sourcePath".toList

def keys : List Text := [buildKey, hashKey, implementationKey, interfaceKey, sourceKey]

def toJson (e : Entry) : Json.Value :=
  .ofMembers
    [(buildKey, .ofText e.buildPath), (hashKey, .ofText e.hash),
     (implementationKey, .ofOption .ofText e.implementation),
     (interfaceKey, .ofText e.interfacePath), (sourceKey, .ofText e.source)]

def text? : Json.Value → Option Text
  | .string s => s
  | _ => none

/-- The outer option says whether the value fits, the inner one whether it is a text. -/
def optionalText? : Json.Value → Option (Option Text)
  | .null => some none
  | v => (text? v).map some

def ofValues? (build hash implementation interface source : Json.Value) : Option Entry := do
  return { buildPath := ← text? build, hash := ← text? hash
           implementation := ← optionalText? implementation
           interfacePath := ← text? interface, source := ← text? source }

/-- The members of an object whose keys are all texts, with no key of an entry repeated. -/
def members? (members : List (Json.Str × Json.Value)) : Option (List (Text × Json.Value)) := do
  let named ← members.mapM fun (key, value) => key.map (·, value)
  if keys.all fun key => named.countP (·.1 == key) ≤ 1 then some named else none

def ofJson? : Json.Value → Option Entry
  | .object members => do
    let named ← members? members
    ofValues? (← named.lookup buildKey) (← named.lookup hashKey)
      ((named.lookup implementationKey).getD .null) (← named.lookup interfaceKey)
      (← named.lookup sourceKey)
  | .array [build, hash, implementation, interface, source] =>
    ofValues? build hash implementation interface source
  | _ => none

end Entry

namespace Manifest

def toJson (m : Manifest) : Json.Value := .array (m.entries.map Entry.toJson)

def serialize (m : Manifest) : Text := m.toJson.pretty

def ofJson? : Json.Value → Option Manifest
  | .array items => (items.mapM Entry.ofJson?).map fun entries => { entries }
  | _ => none

/-- The first source that an earlier entry has too; `seen` holds the earlier sources. -/
def repeatedAfter (seen : List Text) : List Text → Option Text
  | [] => none
  | source :: rest =>
    if seen.contains source then some source else repeatedAfter (source :: seen) rest

def repeatedSource? (m : Manifest) : Option Text := repeatedAfter [] m.sources

def duplicateReason (source : Text) : Text := "duplicate entry for ".toList ++ source

def malformed : Failure := .json "not a build manifest".toList

/-- Reads a manifest; a text that is no manifest at all fails before a repeated source does. -/
def parse (t : Text) : Except Failure Manifest :=
  match (Json.parse? t).bind ofJson? with
  | none => .error malformed
  | some m =>
    match m.repeatedSource? with
    | some source => .error (.manifestCorrupt (duplicateReason source))
    | none => .ok m

end Manifest
end IslDocs
