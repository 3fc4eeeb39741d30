import IslDocs.Text.Basic

/-! Fields of a section's content. A field's name is bold and followed by a colon, which stands
after or inside the bold text; the field's text runs up to the next header of that shape. -/

namespace IslDocs.Field

def colonAfter (name : Text) : Text := "**".toList ++ name ++ "**:".toList

def colonInside (name : Text) : Text := "**".toList ++ name ++ ":**".toList

def isPresent (content name : Text) : Bool :=
  Text.contains (colonAfter name) content || Text.contains (colonInside name) content

/-- What the name of a field header may consist of. -/
def isNameChar (c : Char) : Bool := c != '*' && c != '\n'

/-- Whether a field header begins here. -/
def atHeader (t : Text) : Bool :=
  match Text.after? "**".toList t with
  | none => false
  | some rest =>
    let name := rest.takeWhile isNameChar
    let after := rest.dropWhile isNameChar
    (!name.isEmpty && Text.startsWith "**:".toList after) ||
      (1 < name.length && name.getLast? == some ':' && Text.startsWith "**".toList after)

/-- The content after the first marker of the field in either spelling. -/
def afterMarker? (content name : Text) : Option Text :=
  match Text.breakOn (colonAfter name) content, Text.breakOn (colonInside name) content with
  | some (before, after), some (before', after') =>
    if before.length ≤ before'.length then some after else some after'
  | some (_, after), none => some after
  | none, some (_, after) => some after
  | none, none => none

/-- The text of the field, if it is present. -/
def text? (content name : Text) : Option Text :=
  (afterMarker? content name).map fun after => (Text.breakAt atHeader after).1

def contract : Text := "**Contract**:".toList

def signature : Text := "**Signature:**".toList

def identity : Text := "**Identity**:".toList

def properties : Text := "**Properties**:".toList

def flowName : Text := "Flow".toList

def constraintName : Text := "🚨 Constraint".toList

def testScenariosName : Text := "🧪 Test Scenarios".toList

end IslDocs.Field
