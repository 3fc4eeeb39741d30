import IslDocs.Path.Join
import IslDocs.Tree.Basic
import IslDocs.Tree.Fault

/-! Where a path leads in a tree. Piece by piece it is followed through directories that have to
exist; unlike in a normal path, `..` takes back the directory that was really entered. -/

namespace IslDocs

inductive Step where
  | stay | up
  | down (name : Text)
  deriving DecidableEq

/-- An empty piece stays where it is, so a path that ends in a slash names a directory. -/
def Step.ofPiece : Text → Step
  | [] => stay
  | ['.'] => stay
  | ['.', '.'] => up
  | n => down n

namespace Tree

/-- The greatest length of a path in bytes. -/
def maxPath : Nat := 4095

/-- One step from a location that has to be a directory. What it leads to need not exist. -/
def advance (t : Tree) (loc : Location) (s : Step) : Except Fault Location :=
  match t.node? loc, s with
  | none, _ => .error .notFound
  | some (.file _), _ => .error .notDirectory
  | some .directory, .stay => .ok loc
  | some .directory, .up => .ok loc.dropLast
  | some .directory, .down n =>
    if maxName < Text.byteSize n then .error .nameTooLong else .ok (loc ++ [n])

/-- The location that a path leads to; only its last step may lead to nothing. -/
def locate (t : Tree) (p : Path) : Except Fault Location :=
  if p.text.any (· == '\x00') then .error .nulCharacter
  else if p.text.isEmpty then .error .notFound
  else if maxPath < Text.byteSize p.text then .error .nameTooLong
  else
    (p.pieces.map Step.ofPiece).foldlM t.advance (if p.isAbsolute then [] else t.workDir)

/-- What is at a path. -/
def at? (t : Tree) (p : Path) : Option Node :=
  match t.locate p with
  | .ok loc => t.node? loc
  | .error _ => none

def isFile (t : Tree) (p : Path) : Bool :=
  match t.at? p with
  | some (.file _) => true
  | _ => false

def isDirectory (t : Tree) (p : Path) : Bool := t.at? p == some .directory

end Tree
end IslDocs
