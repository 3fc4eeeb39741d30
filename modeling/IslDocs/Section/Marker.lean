import IslDocs.Text.Basic
import IslDocs.Text.Alphanumeric
import IslDocs.Text.Space

/-! The seven markers that say what a subsection is for, the glyphs they are written as, and the
emoji that a subsection's title may begin with. -/

namespace IslDocs

inductive Marker where
  | acceptance | appearance | capabilities | constraints | content | hints | tests
  deriving DecidableEq

namespace Marker

/-- In the order in which they are conventionally listed. -/
def all : List Marker :=
  [.appearance, .content, .capabilities, .hints, .constraints, .acceptance, .tests]

def glyph : Marker → Text
  | .acceptance => ['✅']
  | .appearance => ['🔍']
  | .capabilities => ['⚡']
  | .constraints => ['🚨']
  | .content => ['📦']
  | .hints => ['💡']
  | .tests => ['🧪']

/-- Asks for the coloured form of the character before it and is no part of a marker. -/
def variationSelector : Char := '\uFE0F'

def ofGlyph? (glyph : Text) : Option Marker :=
  all.find? fun m => m.glyph == Text.dropEndWhile (· == variationSelector) glyph

@[simp] theorem ofGlyph?_glyph (m : Marker) : ofGlyph? m.glyph = some m := by cases m <;> decide

end Marker

inductive Emoji where
  | marker (marker : Marker)
  | other (glyph : Text)
  deriving DecidableEq

namespace Emoji

/-- A marker's own glyph, and any other emoji as it was written. -/
def glyph : Emoji → Text
  | .marker m => m.glyph
  | .other g => g

def ofGlyph (glyph : Text) : Emoji := ((Marker.ofGlyph? glyph).map .marker).getD (.other glyph)

/-- Whether a character is a pictograph rather than a part of words or space between them. -/
def isSymbol (c : Char) : Bool := 0x80 ≤ c.toNat && !Text.isAlphanumeric c && !Text.isSpace c

/-- A text cut after its first symbol and the variation selector that may follow it. -/
def cutSymbol? : Text → Option (Text × Text)
  | [] => none
  | c :: rest =>
    if !isSymbol c then none
    else match rest with
      | d :: after =>
        if d == Marker.variationSelector then some ([c, d], after) else some ([c], rest)
      | [] => some ([c], [])

/-- The emoji that a title begins with and the title after it. White space has to follow the
emoji, and after that something else. -/
def split (title : Text) : Option Emoji × Text :=
  match cutSymbol? title with
  | none => (none, title)
  | some (glyph, rest) =>
    if Text.startsWithSpace rest && !Text.isBlank rest then
      (some (ofGlyph glyph), Text.trimStart rest)
    else (none, title)

end Emoji
end IslDocs
