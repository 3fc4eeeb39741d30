import IslDocs.Text.Space

/-! Heading lines: one to four number signs, white space, and a title that is not blank. More number
signs than that, or no space after them, make an ordinary line. -/

namespace IslDocs

structure Heading where
  level : Nat
  title : Text
  deriving DecidableEq

namespace Heading

def maxLevel : Nat := 4

def ofLine? (line : Text) : Option Heading :=
  let level := (line.takeWhile (· == '#')).length
  let rest := line.dropWhile (· == '#')
  if level == 0 || maxLevel < level || !Text.startsWithSpace rest || Text.isBlank rest then none
  else some { level, title := Text.trim rest }

def isHeading (line : Text) : Bool := (ofLine? line).isSome

end Heading
end IslDocs
