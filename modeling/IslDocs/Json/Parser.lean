import IslDocs.Json.Lexer

/-! JSON values from their tokens. The parser keeps the arrays and objects that are open and what
may come next; members with equal keys are all kept, in order. -/

namespace IslDocs.Json

/-- An open array or object with what it has so far, in reverse. -/
inductive Frame where
  | array (items : List Value)
  | object (members : List (Str × Value))
  /-- The value of this key in the object below comes next. -/
  | member (members : List (Str × Value)) (key : Str)

inductive Expecting where
  | value
  /-- The first item of an array or its end. -/
  | firstItem
  /-- The first key of an object or its end. -/
  | firstKey
  | key
  | colon
  /-- A comma or the end of the array or object. -/
  | separator
  /-- Nothing: the text has this value. -/
  | nothing (result : Value)

structure Parser where
  /-- The open arrays and objects, the innermost first. -/
  frames : List Frame
  expecting : Expecting

namespace Parser

def start : Parser := { frames := [], expecting := .value }

/-- Puts a finished value into the innermost frame. -/
def complete (frames : List Frame) (v : Value) : Option Parser :=
  match frames with
  | [] => some { frames := [], expecting := .nothing v }
  | .array items :: rest => some { frames := .array (v :: items) :: rest, expecting := .separator }
  | .member members key :: rest =>
    some { frames := .object ((key, v) :: members) :: rest, expecting := .separator }
  | .object _ :: _ => none

def stepValue (frames : List Frame) : Token → Option Parser
  | .openArray => some { frames := .array [] :: frames, expecting := .firstItem }
  | .openObject => some { frames := .object [] :: frames, expecting := .firstKey }
  | .null => complete frames .null
  | .bool b => complete frames (.bool b)
  | .number literal => complete frames (.number literal)
  | .string s => complete frames (.string s)
  | _ => none

def closeFrame : List Frame → Token → Option Parser
  | .array items :: rest, .closeArray => complete rest (.array items.reverse)
  | .object members :: rest, .closeObject => complete rest (.object members.reverse)
  | _, _ => none

def stepKey : List Frame → Token → Option Parser
  | .object members :: rest, .string key =>
    some { frames := .member members key :: rest, expecting := .colon }
  | _, _ => none

def stepSeparator : List Frame → Token → Option Parser
  | .array items :: rest, .comma => some { frames := .array items :: rest, expecting := .value }
  | .object members :: rest, .comma => some { frames := .object members :: rest, expecting := .key }
  | frames, token => closeFrame frames token

def step (p : Parser) (token : Token) : Option Parser :=
  match p.expecting with
  | .value => stepValue p.frames token
  | .firstItem => (closeFrame p.frames token).or (stepValue p.frames token)
  | .firstKey => (closeFrame p.frames token).or (stepKey p.frames token)
  | .key => stepKey p.frames token
  | .colon => if token = .colon then some { p with expecting := .value } else none
  | .separator => stepSeparator p.frames token
  | .nothing _ => none

def result? (p : Parser) : Option Value :=
  match p.expecting with
  | .nothing v => some v
  | _ => none

end Parser

/-- The value of a JSON text, if it is one. -/
def parse? (t : Text) : Option Value := do
  (← (← tokens? t).foldlM Parser.step Parser.start).result?

end IslDocs.Json
