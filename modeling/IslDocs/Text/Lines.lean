import IslDocs.Text.Basic

/-! Lines of a text. A line feed ends a line, and a carriage return directly before it belongs to
the line end; an unterminated last line counts if it is not empty and keeps its carriage return. -/

namespace IslDocs.Text

/-- The line without the carriage return of its line end. -/
def dropReturn (line : Text) : Text :=
  if line.getLast? = some '\r' then line.dropLast else line

/-- The lines that `pieces`, cut at line feeds, make: all but the last were terminated. -/
def linesOfPieces : List Text → List Text
  | [] => []
  | [last] => if last.isEmpty then [] else [last]
  | piece :: rest => dropReturn piece :: linesOfPieces rest

def lines (t : Text) : List Text := linesOfPieces (t.splitOn '\n')

/-- The text without its leading byte-order mark, if it has one. -/
def dropMark : Text → Text
  | '\uFEFF' :: rest => rest
  | t => t

end IslDocs.Text
