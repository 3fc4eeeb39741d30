import IslDocs.Json.Value

/-! The tokens of a JSON text, read one character at a time. Numbers and names are first read as
words, the longest stretches of the characters they are made of, and judged when the word ends. -/

namespace IslDocs.Json

inductive Token where
  | openArray | closeArray | openObject | closeObject | colon | comma
  | null
  | bool (value : Bool)
  | number (literal : Text)
  | string (value : Str)
  deriving DecidableEq

/-! ### Words -/

def isWordChar (c : Char) : Bool := c.isAlphanum || c == '+' || c == '-' || c == '.'

/-- One digit or more, followed by what `after` accepts. -/
def digitsThen (after : Text → Bool) (t : Text) : Bool :=
  !(t.takeWhile Char.isDigit).isEmpty && after (t.dropWhile Char.isDigit)

def isExponent : Text → Bool
  | [] => true
  | c :: rest =>
    (c == 'e' || c == 'E') &&
      match rest with
      | '+' :: digits => digitsThen List.isEmpty digits
      | '-' :: digits => digitsThen List.isEmpty digits
      | digits => digitsThen List.isEmpty digits

def isFraction : Text → Bool
  | '.' :: digits => digitsThen isExponent digits
  | t => isExponent t

/-- A whole number has no leading zero. -/
def isUnsigned : Text → Bool
  | '0' :: rest => isFraction rest
  | t => digitsThen isFraction t

def isNumber : Text → Bool
  | '-' :: rest => isUnsigned rest
  | t => isUnsigned t

def Token.ofWord? (word : Text) : Option Token :=
  if word = "null".toList then some .null
  else if word = "true".toList then some (.bool true)
  else if word = "false".toList then some (.bool false)
  else if isNumber word then some (.number word)
  else none

/-! ### Strings -/

/-- A part of a string: a character, or one of the two halves an escaped character is written as. -/
inductive Piece where
  | char (c : Char)
  | half (unit : Nat)
  deriving DecidableEq

def Piece.ofUnit (unit : Nat) : Piece :=
  if 0xD800 ≤ unit && unit ≤ 0xDFFF then .half unit else .char (Char.ofNat unit)

/-- The character of a high half and the low half after it. -/
def pair? (high low : Nat) : Option Char :=
  if 0xD800 ≤ high && high ≤ 0xDBFF && 0xDC00 ≤ low && low ≤ 0xDFFF then
    some (Char.ofNat (0x10000 + (high - 0xD800) * 0x400 + (low - 0xDC00)))
  else none

def textOfPieces : List Piece → Str
  | [] => some []
  | .char c :: rest => (textOfPieces rest).map (c :: ·)
  | .half high :: .half low :: rest =>
    match pair? high low with
    | some c => (textOfPieces rest).map (c :: ·)
    | none => none
  | .half _ :: _ => none

def unescape? : Char → Option Char
  | '"' => some '"'
  | '\\' => some '\\'
  | '/' => some '/'
  | 'b' => some '\x08'
  | 'f' => some '\x0c'
  | 'n' => some '\n'
  | 'r' => some '\r'
  | 't' => some '\t'
  | _ => none

def hexValue? (c : Char) : Option Nat :=
  if c.isDigit then some (c.toNat - '0'.toNat)
  else if 'a' ≤ c && c ≤ 'f' then some (c.toNat - 'a'.toNat + 10)
  else if 'A' ≤ c && c ≤ 'F' then some (c.toNat - 'A'.toNat + 10)
  else none

/-! ### The lexer -/

/-- What is being read; what has been read of it is in reverse. -/
inductive Reading where
  | gap
  | word (read : Text)
  | string (read : List Piece)
  | escape (read : List Piece)
  /-- Of a code unit, `left + 1` hexadecimal digits are still to come. -/
  | unit (read : List Piece) (left value : Nat)

structure Lexer where
  /-- The tokens read so far, in reverse. -/
  tokens : List Token
  reading : Reading

namespace Lexer

def start : Lexer := { tokens := [], reading := .gap }

def isBlank (c : Char) : Bool := c == ' ' || c == '\n' || c == '\t' || c == '\r'

def punctuation? : Char → Option Token
  | '[' => some .openArray
  | ']' => some .closeArray
  | '\x7b' => some .openObject
  | '\x7d' => some .closeObject
  | ':' => some .colon
  | ',' => some .comma
  | _ => none

def stepGap (tokens : List Token) (c : Char) : Option Lexer :=
  if isBlank c then some { tokens, reading := .gap }
  else if c == '"' then some { tokens, reading := .string [] }
  else if isWordChar c then some { tokens, reading := .word [c] }
  else (punctuation? c).map fun token => { tokens := token :: tokens, reading := .gap }

def closeWord (tokens : List Token) (read : Text) : Option (List Token) :=
  (Token.ofWord? read.reverse).map (· :: tokens)

def stepString (tokens : List Token) (read : List Piece) (c : Char) : Option Lexer :=
  if c == '"' then
    some { tokens := .string (textOfPieces read.reverse) :: tokens, reading := .gap }
  else if c == '\\' then some { tokens, reading := .escape read }
  else if c.toNat < 0x20 then none
  else some { tokens, reading := .string (.char c :: read) }

def stepEscape (tokens : List Token) (read : List Piece) (c : Char) : Option Lexer :=
  if c == 'u' then some { tokens, reading := .unit read 3 0 }
  else (unescape? c).map fun c => { tokens, reading := .string (.char c :: read) }

def stepUnit (tokens : List Token) (read : List Piece) (left value : Nat) (c : Char) :
    Option Lexer :=
  (hexValue? c).map fun digit =>
    let value := 16 * value + digit
    match left with
    | 0 => { tokens, reading := .string (.ofUnit value :: read) }
    | left + 1 => { tokens, reading := .unit read left value }

def step (l : Lexer) (c : Char) : Option Lexer :=
  match l.reading with
  | .gap => stepGap l.tokens c
  | .word read =>
    if isWordChar c then some { l with reading := .word (c :: read) }
    else (closeWord l.tokens read).bind fun tokens => stepGap tokens c
  | .string read => stepString l.tokens read c
  | .escape read => stepEscape l.tokens read c
  | .unit read left value => stepUnit l.tokens read left value c

def finish (l : Lexer) : Option (List Token) :=
  match l.reading with
  | .gap => some l.tokens.reverse
  | .word read => (closeWord l.tokens read).map List.reverse
  | _ => none

end Lexer

/-- The tokens of a text, unless it is none that JSON texts are made of. -/
def tokens? (t : Text) : Option (List Token) := (t.foldlM Lexer.step Lexer.start).bind Lexer.finish

end IslDocs.Json
