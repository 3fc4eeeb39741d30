import IslDocs.Section.Basic
import IslDocs.Text.Lines

/-! The sections of a document found in one pass: a heading line closes the section that is open and
opens the next, and any other line joins the open section. -/

namespace IslDocs.Section

/-- A section whose end has not been seen; the lines of its body are in reverse. -/
structure Open where
  heading : Heading
  line : Nat
  body : List Text

def Open.close (o : Open) : Section := ofHeading o.heading o.body.reverse o.line

/-- The pass over the lines from the one numbered `number` on. -/
def scanFrom : (opened : Option Open) → (number : Nat) → List Text → List Section
  | opened, _, [] => (opened.map Open.close).toList
  | opened, number, line :: rest =>
    match Heading.ofLine? line with
    | some heading =>
      (opened.map Open.close).toList ++ scanFrom (some { heading, line := number, body := [] })
        (number + 1) rest
    | none => scanFrom (opened.map fun o => { o with body := line :: o.body }) (number + 1) rest

def scan (document : Text) : List Section := scanFrom none 1 (Text.dropMark document).lines

end IslDocs.Section
