import IslDocs.Text.Basic

/-! The tokens of a TOML text, read one character at a time: line ends, signs, words, and strings in
their four forms. Comments and blanks leave no token. -/

namespace IslDocs.Toml

inductive Quote where
  | basic | literal
  deriving DecidableEq

def Quote.mark : Quote → Char
  | basic => '"'
  | literal => '\''

inductive Token where
  | lineEnd | equals | openArray | closeArray | comma
  | word (word : Text)
  /-- A string; `long` says that it was written between triple quotation marks. -/
  | string (text : Text) (long : Bool)
  deriving DecidableEq

/-! ### Characters -/

def isBlank (c : Char) : Bool := c == ' ' || c == '\t'

/-- Control characters other than the tabulator stand in no comment and no string. -/
def isPlain (c : Char) : Bool := c == '\t' || (0x20 ≤ c.toNat && c.toNat != 0x7F)

/-- What bare keys, numbers, dates and truth values are made of. -/
def isWordChar (c : Char) : Bool :=
  c.isAlphanum || c == '_' || c == '-' || c == '+' || c == '.' || c == ':'

def unescape? : Char → Option Char
  | 'b' => some '\x08'
  | 't' => some '\t'
  | 'n' => some '\n'
  | 'f' => some '\x0c'
  | 'r' => some '\r'
  | '"' => some '"'
  | '\\' => some '\\'
  | _ => none

def hexValue? (c : Char) : Option Nat :=
  if c.isDigit then some (c.toNat - '0'.toNat)
  else if 'a' ≤ c && c ≤ 'f' then some (c.toNat - 'a'.toNat + 10)
  else if 'A' ≤ c && c ≤ 'F' then some (c.toNat - 'A'.toNat + 10)
  else none

def scalar? (code : Nat) : Option Char := if code.isValidChar then some (Char.ofNat code) else none

/-! ### The lexer -/

/-- A string between triple quotation marks while it is read. -/
structure Long where
  quote : Quote
  /-- What has been read, in reverse. -/
  read : Text
  /-- Nothing has been read, so that a line end is not part of the string. -/
  fresh : Bool

def Long.push (l : Long) (c : Char) : Long := { l with read := c :: l.read, fresh := false }

def Long.endLine (l : Long) : Long := if l.fresh then { l with fresh := false } else l.push '\n'

/-- The string with `count` quotation marks at its end. -/
def Long.pushMarks (l : Long) (count : Nat) : Long :=
  if count = 0 then l
  else { l with read := List.replicate count l.quote.mark ++ l.read, fresh := false }

inductive Body where
  | short (read : Text)
  | long (l : Long)

def Body.push : Body → Char → Body
  | short read, c => short (c :: read)
  | long l, c => long (l.push c)

/-- What is being read; texts read so far are in reverse. -/
inductive Reading where
  | gap
  | word (read : Text)
  | comment
  /-- After a carriage return, which only a line feed may follow. -/
  | lineFeed
  /-- After the first quotation mark. -/
  | opened (quote : Quote)
  /-- After two quotation marks, which may be an empty string. -/
  | openedTwice (quote : Quote)
  | short (quote : Quote) (read : Text)
  /-- `marks` quotation marks in a row have just been read. -/
  | long (l : Long) (marks : Nat)
  | longLineFeed (l : Long)
  | escape (body : Body)
  /-- Of a character's code, `left + 1` hexadecimal digits are still to come. -/
  | code (body : Body) (left value : Nat)
  /-- After a backslash that ends a line; `ended` says whether the line end has come. -/
  | continued (l : Long) (ended : Bool)
  | continuedLineFeed (l : Long)

structure Lexer where
  /-- The tokens read so far, in reverse. -/
  tokens : List Token
  reading : Reading

namespace Lexer

def start : Lexer := { tokens := [], reading := .gap }

def sign? : Char → Option Token
  | '\n' => some .lineEnd
  | '=' => some .equals
  | '[' => some .openArray
  | ']' => some .closeArray
  | ',' => some .comma
  | _ => none

def stepGap (tokens : List Token) (c : Char) : Option Lexer :=
  if isBlank c then some { tokens, reading := .gap }
  else if c == '\r' then some { tokens, reading := .lineFeed }
  else if c == '#' then some { tokens, reading := .comment }
  else if c == '"' then some { tokens, reading := .opened .basic }
  else if c == '\'' then some { tokens, reading := .opened .literal }
  else if isWordChar c then some { tokens, reading := .word [c] }
  else (sign? c).map fun token => { tokens := token :: tokens, reading := .gap }

def closeWord (tokens : List Token) (read : Text) : List Token := .word read.reverse :: tokens

def stepComment (tokens : List Token) (c : Char) : Option Lexer :=
  if c == '\n' || c == '\r' then stepGap tokens c
  else if isPlain c then some { tokens, reading := .comment }
  else none

def stepShort (tokens : List Token) (quote : Quote) (read : Text) (c : Char) : Option Lexer :=
  if c == quote.mark then some { tokens := .string read.reverse false :: tokens, reading := .gap }
  else if c == '\\' && quote == .basic then some { tokens, reading := .escape (.short read) }
  else if isPlain c then some { tokens, reading := .short quote (c :: read) }
  else none

def closeLong (tokens : List Token) (l : Long) (marks : Nat) : List Token :=
  .string (l.pushMarks (marks - 3)).read.reverse true :: tokens

/-- Reads a character that is no quotation mark inside a long string. -/
def stepLongText (tokens : List Token) (l : Long) (c : Char) : Option Lexer :=
  if c == '\n' then some { tokens, reading := .long l.endLine 0 }
  else if c == '\r' then some { tokens, reading := .longLineFeed l }
  else if c == '\\' && l.quote == .basic then some { tokens, reading := .escape (.long l) }
  else if isPlain c then some { tokens, reading := .long (l.push c) 0 }
  else none

/-- Three marks close a long string; up to two more before them belong to it. -/
def stepLong (tokens : List Token) (l : Long) (marks : Nat) (c : Char) : Option Lexer :=
  if c == l.quote.mark && marks < 5 then some { tokens, reading := .long l (marks + 1) }
  else if 3 ≤ marks then stepGap (closeLong tokens l marks) c
  else stepLongText tokens (l.pushMarks marks) c

def resume : Body → Reading
  | .short read => .short .basic read
  | .long l => .long l 0

def stepEscape (tokens : List Token) (body : Body) (c : Char) : Option Lexer :=
  match body, c with
  | body, 'u' => some { tokens, reading := .code body 3 0 }
  | body, 'U' => some { tokens, reading := .code body 7 0 }
  | .long l, '\n' => some { tokens, reading := .continued l true }
  | .long l, '\r' => some { tokens, reading := .continuedLineFeed l }
  | .long l, ' ' | .long l, '\t' => some { tokens, reading := .continued l false }
  | body, c => (unescape? c).map fun c => { tokens, reading := resume (body.push c) }

def stepCode (tokens : List Token) (body : Body) (left value : Nat) (c : Char) : Option Lexer := do
  let value := 16 * value + (← hexValue? c)
  match left with
  | 0 => return { tokens, reading := resume (body.push (← scalar? value)) }
  | left + 1 => return { tokens, reading := .code body left value }

/-- Passes over white space up to the next text of a long string. -/
def stepContinued (tokens : List Token) (l : Long) (ended : Bool) (c : Char) : Option Lexer :=
  let l := { l with fresh := false }
  if isBlank c then some { tokens, reading := .continued l ended }
  else if c == '\n' then some { tokens, reading := .continued l true }
  else if c == '\r' then some { tokens, reading := .continuedLineFeed l }
  else if ended then stepLong tokens l 0 c
  else none

def step (s : Lexer) (c : Char) : Option Lexer :=
  match s.reading with
  | .gap => stepGap s.tokens c
  | .word read =>
    if isWordChar c then some { s with reading := .word (c :: read) }
    else stepGap (closeWord s.tokens read) c
  | .comment => stepComment s.tokens c
  | .lineFeed =>
    if c == '\n' then some { tokens := .lineEnd :: s.tokens, reading := .gap } else none
  | .opened quote =>
    if c == quote.mark then some { s with reading := .openedTwice quote }
    else stepShort s.tokens quote [] c
  | .openedTwice quote =>
    if c == quote.mark then some { s with reading := .long { quote, read := [], fresh := true } 0 }
    else stepGap (.string [] false :: s.tokens) c
  | .short quote read => stepShort s.tokens quote read c
  | .long l marks => stepLong s.tokens l marks c
  | .longLineFeed l => if c == '\n' then some { s with reading := .long l.endLine 0 } else none
  | .escape body => stepEscape s.tokens body c
  | .code body left value => stepCode s.tokens body left value c
  | .continued l ended => stepContinued s.tokens l ended c
  | .continuedLineFeed l =>
    if c == '\n' then some { s with reading := .continued l true } else none

def finish (s : Lexer) : Option (List Token) :=
  match s.reading with
  | .gap | .comment => some s.tokens.reverse
  | .word read => some (closeWord s.tokens read).reverse
  | .openedTwice _ => some (.string [] false :: s.tokens).reverse
  | .long l marks => if 3 ≤ marks then some (closeLong s.tokens l marks).reverse else none
  | _ => none

end Lexer

/-- The tokens of a text, unless it holds what no TOML text may. -/
def tokens? (t : Text) : Option (List Token) := (t.foldlM Lexer.step Lexer.start).bind Lexer.finish

end IslDocs.Toml
