import IslDocs.Text.Utf8
import IslDocs.Tree.Locate

/-! Reading, writing and removing files and making directories. What makes several changes gives
back the tree as it is when a fault stops it. -/

namespace IslDocs.Tree

/-! ### Reading -/

def read (t : Tree) (p : Path) : Except Fault ByteArray := do
  match t.node? (← t.locate p) with
  | none => .error .notFound
  | some .directory => .error .isDirectory
  | some (.file content) => .ok content

def readText (t : Tree) (p : Path) : Except Fault Text := do
  match Text.ofBytes? (← t.read p) with
  | some text => .ok text
  | none => .error .invalidUtf8

/-! ### Changing -/

/-- Writes a file in a directory that exists, in place of the file that may be there. -/
def write (t : Tree) (p : Path) (content : ByteArray) : Except Fault Tree := do
  let loc ← t.locate p
  if t.isDirectoryAt loc then .error .isDirectory else .ok (t.put loc (.file content))

def writeText (t : Tree) (p : Path) (content : Text) : Except Fault Tree := t.write p content.bytes

def removeFile (t : Tree) (p : Path) : Except Fault Tree := do
  let loc ← t.locate p
  match t.node? loc with
  | none => .error .notFound
  | some .directory => .error .isDirectory
  | some (.file _) => .ok (t.erase loc)

/-- Removes a file, or a directory with all that is in it. -/
def remove (t : Tree) (p : Path) : Except Fault Tree := do
  let loc ← t.locate p
  if (t.node? loc).isNone then .error .notFound else .ok (t.eraseBelow loc)

/-- Removes the file at a path, if there is one that can be removed. -/
def removeIfPossible (t : Tree) (p : Path) : Tree :=
  match t.removeFile p with
  | .ok t => t
  | .error _ => t

/-- Makes a directory in one that exists. -/
def makeDirectory (t : Tree) (p : Path) : Except Fault Tree := do
  let loc ← t.locate p
  match t.node? loc with
  | some _ => .error .alreadyExists
  | none => .ok (t.put loc .directory)

abbrev Change := Tree × Except Fault Unit

/-- Makes a directory unless it is there already. -/
def ensureDirectory (t : Tree) (p : Path) : Change :=
  match t.makeDirectory p with
  | .ok t => (t, .ok ())
  | .error fault => if t.isDirectory p then (t, .ok ()) else (t, .error fault)

/-- Makes the first of a path and its ancestors, and those above it that are missing. -/
def makeMissing (t : Tree) : List Path → Change
  | [] => (t, .ok ())
  | p :: above =>
    if p.text.isEmpty then (t, .ok ())
    else match t.makeDirectory p with
      | .error .notFound =>
        match makeMissing t above with
        | (t, .ok ()) => ensureDirectory t p
        | (t, .error fault) => (t, .error fault)
      | _ => ensureDirectory t p

def makeDirectories (t : Tree) (p : Path) : Change := makeMissing t p.ancestors

/-- Writes a file, making the directories it lies in. -/
def store (t : Tree) (p : Path) (content : ByteArray) : Change :=
  match t.makeDirectories (p.parent?.getD ⟨[]⟩) with
  | (t, .error fault) => (t, .error fault)
  | (t, .ok ()) =>
    match t.write p content with
    | .ok t => (t, .ok ())
    | .error fault => (t, .error fault)

def storeText (t : Tree) (p : Path) (content : Text) : Change := t.store p content.bytes

end IslDocs.Tree
