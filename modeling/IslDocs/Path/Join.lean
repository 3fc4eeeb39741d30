import IslDocs.Path.Basic

/-! Paths put together and taken apart without losing their spelling: joining, the parent, and the
rest of a path below another. -/

namespace IslDocs.Path

/-- An absolute target replaces the path; any other is put below it. -/
def join (p : Path) (target : Text) : Path :=
  if target.head? == some '/' || p.text.isEmpty then ⟨target⟩
  else if p.text.getLast? == some '/' then ⟨p.text ++ target⟩
  else ⟨p.text ++ '/' :: target⟩

def isTrivial (piece : Text) : Bool := (Component.ofPiece? piece).isNone

def dropTrivialEnd (pieces : List Text) : List Text := (pieces.reverse.dropWhile isTrivial).reverse

/-- The root or the leading `.` of a path, and the pieces after it. -/
def body (p : Path) : Text × List Text :=
  match p.pieces with
  | [] :: first :: rest => (['/'], first :: rest)
  | ['.'] :: rest => (['.'], if rest.isEmpty then [] else [] :: rest)
  | pieces => ([], pieces)

/-- The path without its last component; the root and the empty path have none. -/
def parent? (p : Path) : Option Path :=
  let (start, pieces) := p.body
  match dropTrivialEnd pieces with
  | [] => if start == ['.'] then some ⟨[]⟩ else none
  | piece :: rest =>
    some ⟨start ++ ['/'].intercalate (dropTrivialEnd ((piece :: rest).dropLast))⟩

/-- The path, its parent, and so on up to the first path without a parent. -/
def ancestorsWithin : (depth : Nat) → Path → List Path
  | 0, p => [p]
  | depth + 1, p => p :: (p.parent?.map (ancestorsWithin depth)).getD []

def ancestors (p : Path) : List Path := ancestorsWithin p.text.length p

/-- The pieces after the first `count` that are components. -/
def dropParts : (count : Nat) → List Text → List Text
  | 0, pieces => pieces
  | _ + 1, [] => []
  | count + 1, piece :: rest =>
    dropParts (if isTrivial piece then count + 1 else count) rest

/-- What is left of `p` below the absolute path `base`; a path that is not below it stays as it
is. Inner pieces keep their spelling. -/
def relativeTo (base p : Path) : Path :=
  if base.isAbsolute && base.parts.isPrefixOf p.parts then
    let rest := dropParts (base.parts.length - 1) (p.pieces.drop 1)
    ⟨['/'].intercalate (dropTrivialEnd (rest.dropWhile isTrivial))⟩
  else p

end IslDocs.Path
