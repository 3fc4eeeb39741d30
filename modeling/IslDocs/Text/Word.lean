import IslDocs.Text.Alphanumeric

/-! Whole words in a text: a word occurs if some occurrence of it has no identifier character on
either side. `words` cuts a text at everything that is not an identifier character. -/

namespace IslDocs.Text

/-- Whether no identifier character stands here. -/
def isBoundary (c : Option Char) : Bool := !c.any isIdentifierChar

/-- `before` is the character directly before the text, if there is one. -/
def containsWordAfter (word : Text) : (before : Option Char) → Text → Bool
  | before, [] => word.isEmpty && isBoundary before
  | before, c :: rest =>
    ((after? word (c :: rest)).any fun after => isBoundary before && isBoundary after.head?) ||
      containsWordAfter word (some c) rest

def containsWord (t word : Text) : Bool := containsWordAfter word none t

/-- The maximal stretches of identifier characters, with an empty one between two separators. -/
def words (t : Text) : List Text := t.splitOnP fun c => !isIdentifierChar c

end IslDocs.Text
