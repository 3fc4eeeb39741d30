import IslDocs.Path.Join

/-! Normal paths: `.` is left out and `..` takes back the name before it, by the text alone and
without looking at any file. `..` stays at the start of a relative path and vanishes at the root. -/

namespace IslDocs.Path

/-- Appends a component to the reversed components of a normal path. -/
def pushNormal : List Component → Component → List Component
  | stack, .here => stack
  | .name _ :: stack, .up => stack
  | .root :: stack, .up => .root :: stack
  | stack, c => c :: stack

def normalParts (parts : List Component) : List Component := (parts.foldl pushNormal []).reverse

def normalize (p : Path) : Path := ofParts (normalParts p.parts)

/-- The normal path from the root, for a path that starts from `base`. The empty path stays. -/
def absolute (base p : Path) : Path := if p.text.isEmpty then p else normalize (base.join p.text)

/-- The path that a target names in the file at `file`. -/
def resolveAgainst (file : Path) (target : Text) : Path :=
  normalize ((file.parent?.getD ⟨[]⟩).join target)

end IslDocs.Path
