import IslDocs.Command.Info
import IslDocs.Command.Output
import IslDocs.Failure.Markdown
import IslDocs.Project.Build
import IslDocs.Reference.Inline
import IslDocs.Section.Outline
import IslDocs.Validation.Markdown

/-! The commands of the tool, each from the tree it runs in to the tree it leaves and what it
prints. They work on the project in the working directory. -/

namespace IslDocs

inductive Command where
  | build
  | check (json : Bool)
  | info (json : Bool)
  | order (json : Bool)
  | resolve (file : Path) (depth : Option Nat)
  | validate (file : Path) (json strict : Bool)

/-- The exit code and standard output of a command that came to a result. -/
structure Printed where
  code : Nat
  output : Text
  deriving DecidableEq

namespace Command

def here : Path := ⟨['.']⟩

def line (parts : List Text) : Text := parts.flatten ++ ['\n']

/-- Zero for a result that is as it should be, and one otherwise. -/
def exitCode (good : Bool) : Nat := if good then 0 else 1

/-! ### Build -/

def failureLine (f : BuildFailure) : Text :=
  line ["FAILED  ".toList, f.source, " (".toList, f.reason, ")".toList]

def buildOutput (t : Tree) (s : BuildSummary) : Text :=
  let built := Text.ofNat s.manifest.entries.length
  let path := (Path.relativeTo t.workPath s.manifestPath).text
  if s.failures.isEmpty then
    line ["Built ".toList, built, " documents, manifest: ".toList, path]
  else
    s.failures.flatMap failureLine ++ ['\n'] ++
      line [Text.ofNat s.failures.length, " failed, ".toList, built, " built, manifest: ".toList,
        path]

def runBuild (t : Tree) : Tree × Except Failure Printed :=
  match Config.load t here with
  | .error failure => (t, .error failure)
  | .ok config =>
    let (t, result) := IslDocs.build t here config
    (t, result.map fun s => { code := exitCode s.failures.isEmpty, output := buildOutput t s })

/-! ### Check -/

def isFresh (s : DocumentStatus) : Bool := s.status == .fresh

/-- The label in eight columns, and the document. -/
def statusLine (s : DocumentStatus) : Text :=
  line [s.status.label.rightpad 8 ' ', s.source]

def checkOutput (statuses : List DocumentStatus) : Text :=
  let changed := statuses.filter fun s => !isFresh s
  let total := Text.ofNat statuses.length
  if changed.isEmpty then line ["All ".toList, total, " documents fresh".toList]
  else
    changed.flatMap statusLine ++ ['\n'] ++
      line [Text.ofNat changed.length, " of ".toList, total, " documents need a rebuild".toList]

def runCheck (t : Tree) (json : Bool) : Except Failure Printed := do
  let statuses ← IslDocs.check t here (← Config.load t here)
  return {
    code := exitCode (statuses.all isFresh)
    output :=
      if json then line [(Json.Value.array (statuses.map DocumentStatus.toJson)).pretty]
      else checkOutput statuses }

/-! ### Info and order -/

def runInfo (t : Tree) (json : Bool) : Printed :=
  let state := Info.State.of t here
  { code := 0, output := if json then line [(Info.toJson state).pretty] else Info.markdown state }

def levelOutput (entry : List Text × Nat) : Text :=
  (if 0 < entry.2 then ['\n'] else []) ++ line ["## Level ".toList, Text.ofNat entry.2] ++ ['\n'] ++
    entry.1.flatMap fun document => line ["- ".toList, document]

def runOrder (t : Tree) (json : Bool) : Except Failure Printed := do
  let plan ← Plan.make t here (← Config.load t here)
  let levels := (plan.graph.levels plan.order).map fun level => level.map plan.relative
  return {
    code := 0
    output :=
      if json then line [(Json.Value.ofLevels levels).pretty]
      else levels.zipIdx.flatMap levelOutput }

/-! ### Single documents -/

def runResolve (t : Tree) (file : Path) (depth : Option Nat) : Except Failure Printed := do
  if !t.isFile file then throw (.fileNotFound file)
  let config ← Config.load t here
  let (text, _) := Inline.resolve t file (depth.getD config.maxDepth) []
  return { code := 0, output := line [text] }

def readDocument (t : Tree) (file : Path) : Except Failure Text :=
  match t.readText file with
  | .ok text => .ok text
  | .error .notFound => .error (.fileNotFound file)
  | .error fault => .error (.io fault)

def runValidate (t : Tree) (file : Path) (json strict : Bool) : Except Failure Printed := do
  let content ← readDocument t file
  let config ← Config.load t here
  let report := IslDocs.validate (Section.parse content)
  let report := if strict || config.strict then report.strict else report
  return {
    code := exitCode report.isValid
    output := if json then line [report.toJson.pretty] else report.markdown file.text }

def run (t : Tree) : Command → Tree × Except Failure Printed
  | build => runBuild t
  | check json => (t, runCheck t json)
  | info json => (t, .ok (runInfo t json))
  | order json => (t, runOrder t json)
  | resolve file depth => (t, runResolve t file depth)
  | validate file json strict => (t, runValidate t file json strict)

end Command

/-- What the process leaves behind: its exit code and its two streams. -/
structure Outcome where
  code : Nat
  output : Text
  errors : Text
  deriving DecidableEq

/-- A failure has exit code two and goes to the error stream. -/
def Outcome.of : Except Failure Printed → Outcome
  | .ok printed => { code := printed.code, output := printed.output, errors := [] }
  | .error failure => { code := 2, output := [], errors := failure.terminal }

end IslDocs
