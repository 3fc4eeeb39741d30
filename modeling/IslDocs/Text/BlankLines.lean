import IslDocs.Text.Basic

/-! Blank lines collapsed: every run of line feeds is cut down to two, which leaves at most one
empty line between blocks of text and keeps all other characters. -/

namespace IslDocs.Text

/-- Appends `c` to the reversed text `out`, unless it would be a third line feed in a row. -/
def pushCollapsed : (out : Text) → (c : Char) → Text
  | '\n' :: '\n' :: rest, '\n' => '\n' :: '\n' :: rest
  | out, c => c :: out

def collapse (t : Text) : Text := (t.foldl pushCollapsed []).reverse

/-- No three line feeds stand in a row. -/
def IsCollapsed (t : Text) : Prop := contains ['\n', '\n', '\n'] t = false

instance (t : Text) : Decidable (IsCollapsed t) := inferInstanceAs (Decidable (_ = _))

end IslDocs.Text
