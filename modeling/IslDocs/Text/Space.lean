import IslDocs.Text.Basic

/-! White space as the Unicode property White_Space has it: twenty-five characters, among them the
next-line control and the line and paragraph separators, but neither the zero-width space nor the
byte-order mark. -/

namespace IslDocs.Text

def isSpace (c : Char) : Bool :=
  let n := c.toNat
  (0x09 ≤ n && n ≤ 0x0D) || n == 0x20 || n == 0x85 || n == 0xA0 || n == 0x1680 ||
    (0x2000 ≤ n && n ≤ 0x200A) || n == 0x2028 || n == 0x2029 || n == 0x202F || n == 0x205F ||
    n == 0x3000

def trimStart (t : Text) : Text := t.dropWhile isSpace

def trimEnd (t : Text) : Text := dropEndWhile isSpace t

def trim (t : Text) : Text := trimEnd (trimStart t)

def isBlank (t : Text) : Bool := t.all isSpace

def startsWithSpace : Text → Bool
  | [] => false
  | c :: _ => isSpace c

end IslDocs.Text
