import IslDocs.Text.Lines
import IslDocs.Toml.Lexer

/-! Settings in TOML: a key and a value on each line, the value being a string, a whole number, a
truth value or an array of strings. Tables, dates and other values of TOML set nothing and are
refused. -/

namespace IslDocs.Toml

inductive Value where
  | text (value : Text)
  | integer (value : Int)
  | boolean (value : Bool)
  | texts (values : List Text)
  deriving DecidableEq

/-! ### Whole numbers -/

def digitValue (c : Char) : Nat :=
  if c.isDigit then c.toNat - '0'.toNat else c.toLower.toNat - 'a'.toNat + 10

def isDigitIn (base : Nat) (c : Char) : Bool := c.isAlphanum && digitValue c < base

/-- The number that digits write; single underscores may stand between two of them. -/
def digits? (base : Nat) (t : Text) : Option Nat :=
  let groups := t.splitOn '_'
  if groups.all fun group => !group.isEmpty && group.all (isDigitIn base) then
    some (groups.flatten.foldl (fun n c => base * n + digitValue c) 0)
  else none

/-- Decimal digits without a leading zero. -/
def decimal? (t : Text) : Option Nat :=
  if 1 < t.length && t.head? == some '0' then none else digits? 10 t

def unranged? : Text → Option Int
  | '+' :: rest => (decimal? rest).map Int.ofNat
  | '-' :: rest => (decimal? rest).map fun n => -Int.ofNat n
  | '0' :: 'x' :: rest => (digits? 16 rest).map Int.ofNat
  | '0' :: 'o' :: rest => (digits? 8 rest).map Int.ofNat
  | '0' :: 'b' :: rest => (digits? 2 rest).map Int.ofNat
  | t => (decimal? t).map Int.ofNat

/-- The least and the greatest number of 64 bits, one of them for the sign. -/
def minInteger : Int := -9223372036854775808

def maxInteger : Int := 9223372036854775807

def integer? (t : Text) : Option Int :=
  (unranged? t).filter fun n => minInteger ≤ n && n ≤ maxInteger

/-! ### Lines -/

def isBareKeyChar (c : Char) : Bool := c.isAlphanum || c == '_' || c == '-'

def key? : Token → Option Text
  | .word w => if w.all isBareKeyChar then some w else none
  | .string t false => some t
  | _ => none

def ofWord? (word : Text) : Option Value :=
  if word = "true".toList then some (.boolean true)
  else if word = "false".toList then some (.boolean false)
  else (integer? word).map .integer

/-- What the reader expects next; items are in reverse. -/
inductive Expecting where
  | line
  | equals (key : Text)
  | value (key : Text)
  /-- An item of the array, or its end. -/
  | item (key : Text) (items : List Text)
  /-- A comma, or the end of the array. -/
  | comma (key : Text) (items : List Text)
  | lineEnd

structure Reader where
  /-- The settings read so far, in reverse. -/
  settings : List (Text × Value)
  expecting : Expecting

namespace Reader

def start : Reader := { settings := [], expecting := .line }

def set (r : Reader) (key : Text) (value : Value) : Reader :=
  { settings := (key, value) :: r.settings, expecting := .lineEnd }

def closeArray (r : Reader) (key : Text) (items : List Text) : Reader :=
  r.set key (.texts items.reverse)

def step (r : Reader) (token : Token) : Option Reader :=
  match r.expecting, token with
  | .line, .lineEnd => some r
  | .line, token => (key? token).map fun key => { r with expecting := .equals key }
  | .equals key, .equals => some { r with expecting := .value key }
  | .value key, .word w => (ofWord? w).map (r.set key)
  | .value key, .string t _ => some (r.set key (.text t))
  | .value key, .openArray => some { r with expecting := .item key [] }
  | .item key items, .string t _ => some { r with expecting := .comma key (t :: items) }
  | .item _ _, .lineEnd => some r
  | .item key items, .closeArray => some (r.closeArray key items)
  | .comma key items, .comma => some { r with expecting := .item key items }
  | .comma _ _, .lineEnd => some r
  | .comma key items, .closeArray => some (r.closeArray key items)
  | .lineEnd, .lineEnd => some { r with expecting := .line }
  | _, _ => none

def result? (r : Reader) : Option (List (Text × Value)) :=
  match r.expecting with
  | .line | .lineEnd => some r.settings.reverse
  | _ => none

end Reader

/-- The settings of a text in order, if it consists of settings alone. -/
def settings? (t : Text) : Option (List (Text × Value)) := do
  (← (← tokens? (Text.dropMark t)).foldlM Reader.step Reader.start).result?

end IslDocs.Toml
