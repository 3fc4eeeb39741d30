import IslDocs.Text.Basic

/-! Paths as they are written, and the components they consist of. Empty and inner `.` pieces are no
components, so one location has many spellings; paths are compared and ordered by component. -/

namespace IslDocs

structure Path where
  text : Text

namespace Path

inductive Component where
  | root | here | up
  | name (name : Text)
  deriving DecidableEq

namespace Component

def text : Component → Text
  | root => ['/']
  | here => ['.']
  | up => ['.', '.']
  | name n => n

/-- The component that a piece between slashes is, unless it is empty or `.`. -/
def ofPiece? : Text → Option Component
  | [] => none
  | ['.'] => none
  | ['.', '.'] => some up
  | n => some (name n)

def rank : Component → Nat
  | root => 0
  | here => 1
  | up => 2
  | name _ => 3

/-- The root comes first, then `.`, then `..`, then names by their characters. -/
def before : Component → Component → Bool
  | name m, name n => m.lex n fun c d => decide (c < d)
  | c, d => c.rank < d.rank

end Component

def pieces (p : Path) : List Text := p.text.splitOn '/'

def isAbsolute (p : Path) : Bool := p.text.head? == some '/'

/-- The component that the first piece is: the root before a leading slash, and a leading `.`. -/
def firstPart : (piece : Text) → (alone : Bool) → List Component
  | [], alone => if alone then [] else [.root]
  | ['.'], _ => [.here]
  | piece, _ => (Component.ofPiece? piece).toList

def parts (p : Path) : List Component :=
  match p.pieces with
  | [] => []
  | first :: rest => firstPart first rest.isEmpty ++ rest.filterMap Component.ofPiece?

/-- Whether two spellings name one location. -/
instance : BEq Path := ⟨fun p q => p.parts == q.parts⟩

theorem beq_iff {p q : Path} : (p == q) = true ↔ p.parts = q.parts :=
  beq_iff_eq (a := p.parts)

instance : EquivBEq Path where
  rfl := beq_iff.2 rfl
  symm h := beq_iff.2 (beq_iff.1 h).symm
  trans h h' := beq_iff.2 ((beq_iff.1 h).trans (beq_iff.1 h'))

def le (p q : Path) : Bool := !q.parts.lex p.parts Component.before

def sort (ps : List Path) : List Path := ps.mergeSort le

/-- The normal spelling of a sequence of components. -/
def ofParts : List Component → Path
  | .root :: rest => ⟨'/' :: ['/'].intercalate (rest.map Component.text)⟩
  | parts => ⟨['/'].intercalate (parts.map Component.text)⟩

/-- The components joined by slashes, the root included as a component of its own. -/
def slashed (p : Path) : Text := ['/'].intercalate (p.parts.map Component.text)

/-- The last component, if it is a name. -/
def fileName? (p : Path) : Option Text :=
  match p.parts.getLast? with
  | some (.name n) => some n
  | _ => none

def fileName (p : Path) : Text := p.fileName?.getD []

end Path
end IslDocs
