import IslDocs.Section.Basic
import IslDocs.Text.Lines

/-! The outline of a document: first the positions of its heading lines are found, then each section
is cut out between its heading and the next. Lines before the first heading belong to no section. -/

namespace IslDocs.Section

/-- Positions of the heading lines, in order. -/
def headingPositions (lines : List Text) : List Nat :=
  (lines.zipIdx.filter fun (line, _) => Heading.isHeading line).map Prod.snd

/-- The section whose heading stands at `start` and whose body ends before `stop`. -/
def between? (lines : List Text) (start stop : Nat) : Option Section :=
  (lines[start]?.bind Heading.ofLine?).map fun heading =>
    ofHeading heading ((lines.drop (start + 1)).take (stop - (start + 1))) (start + 1)

def ofLines (lines : List Text) : List Section :=
  let starts := headingPositions lines
  (starts.zip (starts.drop 1 ++ [lines.length])).filterMap fun (start, stop) =>
    between? lines start stop

/-- The sections of a document, in order. -/
def parse (document : Text) : List Section := ofLines (Text.dropMark document).lines

end IslDocs.Section
