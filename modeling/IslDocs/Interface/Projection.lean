import IslDocs.Interface.Flow
import IslDocs.Reference.Line
import IslDocs.Text.BlankLines
import IslDocs.Text.Lines

/-! The interface of a document: the document without its flow blocks, after a header that names it
and the implementation paths it declares. -/

namespace IslDocs.Interface

def header (name : Text) : Text := "<!-- INTERFACE (REF) FOR: ".toList ++ name ++ " -->".toList

def pathLine (path : Text) : Text := "<!-- IMPLEMENTATION PATH: ".toList ++ path ++ " -->".toList

def projectionLines (name : Text) (lines : List Text) : List Text :=
  header name :: (lines.filterMap Reference.implementation?).map pathLine ++ Flow.outside lines

/-- The interface of the document called `name`. -/
def project (name content : Text) : Text :=
  Text.collapse (Text.unlines (projectionLines name (Text.dropMark content).lines))

end IslDocs.Interface
