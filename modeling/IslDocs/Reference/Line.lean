import IslDocs.Text.Space

/-! The lines of a document that name other files. A reference line is a block quote that opens with
a bold word and names its target as a link or between backticks; an implementation line names the
file that the document specifies. -/

namespace IslDocs.Reference

/-! ### Link targets -/

def endsTarget (c : Char) : Bool := Text.isSpace c || c == '"' || c == ')'

/-- The target at the start of what follows `](`, if a parenthesis closes after it. -/
def linkTarget? (t : Text) : Option Text :=
  let target := t.takeWhile fun c => !endsTarget c
  let tail := t.dropWhile fun c => !endsTarget c
  if target.isEmpty || !tail.contains ')' then none else some target

/-- The targets of all links; `opened` says whether a bracket has been opened before the text. -/
def linkTargets : (opened : Bool) → Text → List Text
  | _, [] => []
  | opened, c :: rest =>
    match if opened then (Text.after? "](".toList (c :: rest)).bind linkTarget? else none with
    | some target => target :: linkTargets true rest
    | none => linkTargets (opened || c == '[') rest

def lastLink? (t : Text) : Option Text := (linkTargets false t).getLast?

/-! ### Backtick spans -/

/-- Every second of the pieces between backticks, if another piece follows it. -/
def closedSpans : List Text → List Text
  | _ :: span :: next :: rest => span :: closedSpans (next :: rest)
  | _ => []

def lastSpan? (t : Text) : Option Text :=
  (((closedSpans (t.splitOn '\x60')).filter fun span => !Text.isBlank span).getLast?).map Text.trim

/-! ### Lines -/

/-- What follows the opening words of a reference line. -/
def afterOpening? (line : Text) : Option Text := do
  let quoted ← Text.after? ">".toList (Text.trimStart line)
  Text.after? "**Reference**".toList (Text.trimStart quoted)

/-- A link wins over a backtick span wherever they stand. -/
def candidate? (rest : Text) : Option Text := (lastLink? rest).or (lastSpan? rest)

def isExternal (target : Text) : Bool :=
  Text.startsWith "http://".toList target || Text.startsWith "https://".toList target

/-- The target of a reference line. External links are no references. -/
def target? (line : Text) : Option Text := do
  let target ← candidate? (← afterOpening? line)
  if isExternal target then none else some target

def trimBackticks (t : Text) : Text :=
  Text.dropEndWhile (· == '\x60') (t.dropWhile (· == '\x60'))

/-- The path on an implementation line, without the backticks around it. -/
def implementation? (line : Text) : Option Text := do
  let rest ← Text.after? "**Implementation**".toList (Text.trimStart line)
  let value ← Text.after? ":".toList (Text.trimStart rest)
  let path := Text.trim (trimBackticks (Text.trim value))
  if path.isEmpty then none else some path

end IslDocs.Reference
