import IslDocs.Path.Basic

/-! A tree of directories and files as a list of entries by location, together with the working
directory that relative paths start from. The root has no entry of its own. -/

namespace IslDocs

/-- The greatest length of a name in bytes. -/
def maxName : Nat := 255

/-- What a file or directory may be called. -/
structure IsName (name : Text) : Prop where
  ne_nil : name ≠ []
  ne_here : name ≠ ['.']
  ne_up : name ≠ ['.', '.']
  no_slash : '/' ∉ name
  no_nul : '\x00' ∉ name
  size_le : Text.byteSize name ≤ maxName

/-- The names on the way from the root. -/
abbrev Location := List Text

inductive Node where
  | directory
  | file (content : ByteArray)

instance : DecidableEq Node
  | .directory, .directory => isTrue rfl
  | .directory, .file _ => isFalse (by simp)
  | .file _, .directory => isFalse (by simp)
  | .file b, .file c => decidable_of_iff (b.data = c.data) (by simp [ByteArray.ext_iff])

structure Tree where
  entries : List (Location × Node)
  workDir : Location
  deriving DecidableEq

namespace Path

def ofLocation (loc : Location) : Path := ofParts (.root :: loc.map .name)

/-- The names among the components; for a normal path from the root, where it leads. -/
def location (p : Path) : Location :=
  p.parts.filterMap fun
    | .name n => some n
    | _ => none

end Path

namespace Tree

def node? (t : Tree) (loc : Location) : Option Node :=
  if loc.isEmpty then some .directory else t.entries.lookup loc

def isDirectoryAt (t : Tree) (loc : Location) : Bool := t.node? loc == some .directory

def workPath (t : Tree) : Path := Path.ofLocation t.workDir

/-- Every location has at most one entry, which lies in a directory and whose names are names of
files; and the working directory is a directory. -/
structure WellFormed (t : Tree) : Prop where
  nodup : (t.entries.map Prod.fst).Nodup
  ne_root : ∀ entry ∈ t.entries, entry.1 ≠ []
  names : ∀ entry ∈ t.entries, ∀ name ∈ entry.1, IsName name
  parent : ∀ entry ∈ t.entries, t.isDirectoryAt entry.1.dropLast = true
  workDir : t.isDirectoryAt t.workDir = true

/-! ### Changing entries -/

def putIn (loc : Location) (node : Node) : List (Location × Node) → List (Location × Node)
  | [] => [(loc, node)]
  | entry :: rest => if entry.1 == loc then (loc, node) :: rest else entry :: putIn loc node rest

/-- Sets what is at a location. -/
def put (t : Tree) (loc : Location) (node : Node) : Tree :=
  { t with entries := putIn loc node t.entries }

def erase (t : Tree) (loc : Location) : Tree :=
  { t with entries := t.entries.filter (·.1 != loc) }

/-- Drops what is at a location and below it. -/
def eraseBelow (t : Tree) (loc : Location) : Tree :=
  { t with entries := t.entries.filter fun entry => !loc.isPrefixOf entry.1 }

/-! ### Files -/

/-- The locations of the regular files strictly below a location. -/
def filesBelow (t : Tree) (loc : Location) : List Location :=
  t.entries.filterMap fun
    | (l, .file _) => if loc.isPrefixOf l && l != loc then some l else none
    | (_, .directory) => none

end Tree
end IslDocs
