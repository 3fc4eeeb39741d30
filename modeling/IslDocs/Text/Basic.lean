/-! Text as a list of characters, with the searches every other module is written in: occurrences of
one text in another, the stretch before and after the first of them, and decimal numerals. -/

namespace IslDocs

abbrev Text := List Char

namespace Text

/-- Decimal digits without leading zeros. -/
def ofNat (n : Nat) : Text := Nat.toDigits 10 n

/-- Length in UTF-8 bytes. -/
def byteSize (t : Text) : Nat := t.foldl (fun size c => size + c.utf8Size) 0

/-! ### Occurrences -/

/-- Whether `p` occurs in the text as a contiguous stretch. -/
def contains (p : Text) : Text → Bool
  | [] => p.isEmpty
  | c :: rest => p.isPrefixOf (c :: rest) || contains p rest

/-- `passed` holds, reversed, what lies before the text still to be searched. -/
def breakAtFrom (p : Text → Bool) (passed : Text) : Text → Text × Text
  | [] => (passed.reverse, [])
  | c :: rest =>
    if p (c :: rest) then (passed.reverse, c :: rest) else breakAtFrom p (c :: passed) rest

/-- The text cut where the longest non-empty rest that satisfies `p` begins, or at its end. -/
def breakAt (p : Text → Bool) (t : Text) : Text × Text := breakAtFrom p [] t

/-- The text before and after the first occurrence of `p`. -/
def breakOn (p t : Text) : Option (Text × Text) :=
  let (before, found) := breakAt p.isPrefixOf t
  (p.isPrefixOf? found).map fun after => (before, after)

/-- `skip` characters of an occurrence that has begun are still to be passed over. -/
def removeFrom (p : Text) : (skip : Nat) → Text → Text
  | _, [] => []
  | skip + 1, _ :: rest => removeFrom p skip rest
  | 0, c :: rest =>
    if p.isPrefixOf (c :: rest) then removeFrom p (p.length - 1) rest else c :: removeFrom p 0 rest

/-- Leaves out the occurrences of a non-empty `p`, found from left to right without overlap. -/
def remove (p t : Text) : Text := removeFrom p 0 t

/-! ### Ends -/

/-- What is left of `t` after `p`, if it starts with it. -/
def after? (p t : Text) : Option Text := p.isPrefixOf? t

def startsWith (p t : Text) : Bool := p.isPrefixOf t

def endsWith (s t : Text) : Bool := s.isSuffixOf t

/-- What is left of `t` before `s`, if it ends with it. -/
def before? (s t : Text) : Option Text :=
  if s.isSuffixOf t then some (t.take (t.length - s.length)) else none

def dropEndWhile (p : Char → Bool) (t : Text) : Text := (t.reverse.dropWhile p).reverse

def unlines (lines : List Text) : Text := ['\n'].intercalate lines

end Text
end IslDocs
