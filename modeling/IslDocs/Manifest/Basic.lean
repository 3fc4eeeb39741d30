import IslDocs.Text.Basic

/-! The manifest of a build: one entry for each document that was built, in build order. An entry
that is pushed replaces an earlier one for the same source. -/

namespace IslDocs

structure Entry where
  /-- The build context's path; this and the other paths are relative to the project. -/
  buildPath : Text
  /-- The digest of the build context. -/
  hash : Text
  /-- The file that the document declares as its implementation. -/
  implementation : Option Text
  interfacePath : Text
  source : Text
  deriving DecidableEq

structure Manifest where
  entries : List Entry
  deriving DecidableEq

namespace Manifest

def fileName : Text := "build-manifest.json".toList

def empty : Manifest := { entries := [] }

def entry? (m : Manifest) (source : Text) : Option Entry :=
  m.entries.find? (·.source == source)

def push (m : Manifest) (e : Entry) : Manifest :=
  { entries := m.entries.filter (·.source != e.source) ++ [e] }

def sources (m : Manifest) : List Text := m.entries.map Entry.source

end Manifest
end IslDocs
