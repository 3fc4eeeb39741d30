import IslDocs.Section.Basic

/-! Domain entities: the names a document declares, and the names its capabilities refer to. A name
is referred to where it stands between an opening brace or a comma and a delimiter. -/

namespace IslDocs.Entity

/-! ### Declarations -/

/-- The level-3 sections from the first domain section to the next section of level 2 or less. -/
def declarations (sections : List Section) : List Section :=
  (((sections.dropWhile (·.kind != .domain)).drop 1).takeWhile (2 < ·.level)).filter (·.level == 3)

/-- The declared names without repetitions, in order of first occurrence. -/
def registered (sections : List Section) : List Text :=
  ((declarations sections).map Section.title).eraseDups

/-! ### References -/

/-- Types that need no declaration. -/
def primitives : List Text :=
  ["String".toList, "Number".toList, "Boolean".toList, "Array".toList, "Object".toList,
   "Date".toList]

/-- Whether a name may end before this text. -/
def atDelimiter : Text → Bool
  | [] => false
  | c :: _ => c == '\x7d' || c == ':' || c == ',' || Text.isSpace c

/-- The type name that follows an opening brace or a comma, `[]` after it left aside. -/
def nameAfter? (t : Text) : Option Text :=
  let t := Text.trimStart t
  let name := t.takeWhile Char.isAlpha
  let rest := t.dropWhile Char.isAlpha
  let rest := (Text.after? "[]".toList rest).getD rest
  if name.head?.any Char.isUpper && 1 < name.length && atDelimiter rest then some name else none

/-- The type names a content refers to, one for each reference. -/
def references : Text → List Text
  | [] => []
  | c :: rest =>
    if c == '\x7b' || c == ',' then
      match nameAfter? rest with
      | some name => name :: references rest
      | none => references rest
    else references rest

/-- The references to names that are neither primitive nor among `known`. -/
def undefined (known : List Text) (content : Text) : List Text :=
  (references content).filter fun name => !primitives.contains name && !known.contains name

end IslDocs.Entity
