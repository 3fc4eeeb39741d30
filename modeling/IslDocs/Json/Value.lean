import IslDocs.Text.Basic

/-! JSON values and their printed form: two spaces of indentation, members in the order given, and
no more escapes than strings need. -/

namespace IslDocs.Json

/-- A string literal stands for a text, or for none if its escapes leave half a surrogate pair. -/
abbrev Str := Option Text

inductive Value where
  | null
  | bool (value : Bool)
  /-- A number as it is written. -/
  | number (literal : Text)
  | string (value : Str)
  | array (items : List Value)
  | object (members : List (Str × Value))

namespace Value

def ofText (t : Text) : Value := .string (some t)

def ofNat (n : Nat) : Value := .number (Text.ofNat n)

def ofOption (f : α → Value) : Option α → Value
  | some a => f a
  | none => .null

def ofMembers (members : List (Text × Value)) : Value :=
  .object (members.map fun (key, value) => (some key, value))

end Value

/-! ### Strings -/

def hexDigits (width n : Nat) : Text :=
  (List.range width).map fun i => Nat.digitChar (n >>> (4 * (width - 1 - i)) % 16)

def escape (c : Char) : Text :=
  match c with
  | '"' => ['\\', '"']
  | '\\' => ['\\', '\\']
  | '\x08' => ['\\', 'b']
  | '\t' => ['\\', 't']
  | '\n' => ['\\', 'n']
  | '\x0c' => ['\\', 'f']
  | '\r' => ['\\', 'r']
  | c => if c.toNat < 0x20 then '\\' :: 'u' :: hexDigits 4 c.toNat else [c]

def quote (t : Text) : Text := '"' :: t.flatMap escape ++ ['"']

def strLiteral : Str → Text
  | some t => quote t
  | none => "\"\\ud800\"".toList

/-! ### Layout -/

/-- A line feed and the indentation of nesting depth `depth`. -/
def newLine (depth : Nat) : Text := '\n' :: List.replicate (2 * depth) ' '

def boolLiteral (b : Bool) : Text := if b then "true".toList else "false".toList

mutual

/-- The printed form at nesting depth `depth`, without a line feed at its end. -/
def Value.print (depth : Nat) : Value → Text
  | .null => "null".toList
  | .bool b => boolLiteral b
  | .number literal => literal
  | .string s => strLiteral s
  | .array [] => "[]".toList
  | .array (item :: rest) =>
    '[' :: newLine (depth + 1) ++ item.print (depth + 1) ++ printItems (depth + 1) rest ++
      newLine depth ++ [']']
  | .object [] => "\x7b\x7d".toList
  | .object ((key, value) :: rest) =>
    '\x7b' :: newLine (depth + 1) ++ strLiteral key ++ [':', ' '] ++ value.print (depth + 1) ++
      printMembers (depth + 1) rest ++ newLine depth ++ ['\x7d']

def printItems (depth : Nat) : List Value → Text
  | [] => []
  | item :: rest => ',' :: newLine depth ++ item.print depth ++ printItems depth rest

def printMembers (depth : Nat) : List (Str × Value) → Text
  | [] => []
  | (key, value) :: rest =>
    ',' :: newLine depth ++ strLiteral key ++ [':', ' '] ++ value.print depth ++
      printMembers depth rest

end

def Value.pretty (v : Value) : Text := v.print 0

end IslDocs.Json
