import IslDocs.Reference.Line
import IslDocs.Text.BlankLines
import IslDocs.Text.Lines

/-! The build context of a document: the interfaces of what it references, in the order of its
reference lines, and after them its full source. -/

namespace IslDocs

/-- The interface of one dependency, under the name of its artifact. -/
structure Dependency where
  name : Text
  text : Text
  deriving DecidableEq

structure BuildContext where
  /-- The path on the first implementation line. -/
  implementation : Option Text
  text : Text
  deriving DecidableEq

namespace BuildContext

def targets (content : Text) : List Text :=
  (Text.dropMark content).lines.filterMap Reference.target?

def implementationPath? (content : Text) : Option Text :=
  (Text.dropMark content).lines.findSome? Reference.implementation?

def header (name : Text) (implementation : Option Text) : List Text :=
  ["<!-- BUILD CONTEXT FOR: ".toList ++ name ++ " -->".toList] ++
  (implementation.map fun path =>
    "<!-- TARGET IMPLEMENTATION PATH: ".toList ++ path ++ " -->".toList).toList ++
  ["<!-- Dependencies are included as Interfaces (.ref.md) -->".toList, []]

def block (d : Dependency) : List Text :=
  [[], "<!-- START DEPENDENCY INTERFACE: ".toList ++ d.name ++ " -->".toList, d.text,
    "<!-- END DEPENDENCY INTERFACE -->".toList, []]

def source (content : Text) : List Text :=
  [[], "<!-- SOURCE FILE TO IMPLEMENT -->".toList, Text.dropMark content]

def textWith (name content : Text) (dependencies : List Dependency) : Text :=
  Text.collapse <| Text.unlines <|
    header name (implementationPath? content) ++ dependencies.flatMap block ++ source content

/-- The build context of the document called `name` with these dependencies. -/
def assemble (name content : Text) (dependencies : List Dependency) : BuildContext where
  implementation := implementationPath? content
  text := textWith name content dependencies

/-- The build context of the document called `name`. `lookup` gives the interface of a reference
target, or nothing to leave the target out. -/
def compose (name content : Text) (lookup : Text → Option Dependency) : BuildContext :=
  assemble name content ((targets content).filterMap lookup)

end BuildContext
end IslDocs
