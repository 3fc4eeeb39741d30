import IslDocs.Section.Heading
import IslDocs.Section.Kind

/-! Sections of a document: a heading and the text below it, up to the next heading. -/

namespace IslDocs

structure Section where
  /-- The text below the heading, trimmed. -/
  content : Text
  emoji : Option Emoji
  kind : Kind
  level : Nat
  /-- One-based number of the heading's line. -/
  line : Nat
  /-- The title without its emoji. -/
  title : Text
  deriving DecidableEq

namespace Section

/-- Only titles of level 3 have their emoji split off. -/
def titleParts (heading : Heading) : Option Emoji × Text :=
  if heading.level = 3 then Emoji.split heading.title else (none, heading.title)

/-- The section that `heading` on line `line` opens over the lines of `body`. -/
def ofHeading (heading : Heading) (body : List Text) (line : Nat) : Section :=
  let (emoji, title) := titleParts heading
  { content := Text.trim (Text.unlines body)
    emoji
    kind := Kind.classify heading.level title emoji
    level := heading.level
    line
    title }

end Section
end IslDocs
