import IslDocs.Config.Load
import IslDocs.Json.Value
import IslDocs.Manifest.File
import IslDocs.Validation.Rule

/-! The reference that the tool prints about itself: document syntax, workflow, configuration, rules
and exit codes, and the state of the project it is asked in. -/

namespace IslDocs.Info

def version : Text := "0.1.0".toList

def exitCodes : List (Nat × Text) :=
  [(0, "Success / document valid / all documents fresh".toList),
   (1, "Document invalid / a document failed to build / rebuild needed".toList),
   (2, "Fatal error (cycle, no documents, I/O, bad config or manifest)".toList)]

/-! ### The state of a project -/

structure State where
  configFound : Bool
  /-- The number of entries of the manifest, if it can be read. -/
  manifestEntries : Option Nat
  manifestPath : Path

/-- The state of the project at a root. What cannot be read counts as absent. -/
def State.of (t : Tree) (root : Path) : State :=
  let output := match Config.load t root with
    | .ok config => config.output
    | .error _ => Config.default.output
  let manifestPath := Path.join ⟨output⟩ Manifest.fileName
  { configFound := (t.at? (root.join Config.fileName)).isSome
    manifestEntries :=
      (Manifest.read t (root.join manifestPath.text)).toOption.map (·.entries.length)
    manifestPath }

/-! ### JSON -/

def State.toJson (s : State) : Json.Value :=
  .ofMembers
    [("config_found".toList, .bool s.configFound),
     ("manifest_entries".toList, .ofOption .ofNat s.manifestEntries),
     ("manifest_path".toList, .ofText s.manifestPath.text)]

def exitCodeToJson (entry : Nat × Text) : Json.Value :=
  .ofMembers [("code".toList, .ofNat entry.1), ("meaning".toList, .ofText entry.2)]

def ruleToJson (r : Rule) : Json.Value :=
  .ofMembers
    [("code".toList, .ofText r.code), ("meaning".toList, .ofText r.meaning),
     ("severity".toList, .ofText r.severity.label)]

def toJson (s : State) : Json.Value :=
  .ofMembers
    [("current_state".toList, s.toJson),
     ("exit_codes".toList, .array (exitCodes.map exitCodeToJson)),
     ("rules".toList, .array (Rule.all.map ruleToJson)), ("version".toList, .ofText version)]

/-! ### Markdown -/

def introduction : List String :=
  ["", "Validator and incremental build orchestrator for ISL specification documents.", ""]

def documentGuide : List String :=
  ["## Document Syntax",
   "",
   "    # Project: Name                         project header and description",
   "    ## Domain Concepts                      " ++
     "entity registry (### Entity, **Identity**, **Properties**)",
   "    ## Component: Name                      one component per level-2 heading",
   "    ### Role: Presentation | Backend        component role",
   "    ### ⚡ Capabilities                      capability group (#### name per capability)",
   "    **Contract**: / **Signature**: / **Flow**:   capability fields",
   "    > **Reference**: [label](other.isl.md)  dependency on another document",
   "    **Implementation**: src/file.js          target implementation path",
   "",
   "Section markers: ⚡ capabilities, 🔍 appearance, 🚨 constraints, 📦 content,",
   "🧪 tests, 💡 hints, ✅ acceptance.",
   ""]

def workflowGuide : List String :=
  ["## Workflow",
   "",
   "    islc validate <file>              Check one document (exit 0/1)",
   "    islc resolve <file>               Print a document with references inlined",
   "    islc build                        Write .ref.md/.build.md artifacts and the manifest",
   "    islc order                        Show the build order by level",
   "    islc check                        Compare documents with the last build (exit 0/1)",
   "    islc watch                        Rebuild when documents change",
   ""]

def configurationGuide : List String :=
  ["## Configuration (.islc.toml)",
   "",
   "    suffix = \".isl.md\"                 # document file suffix",
   "    output = \"build\"                   # artifact directory",
   "    max_depth = 3                      # resolver recursion bound",
   "    strict = false                     # treat warnings as errors",
   "    include = [\"specs/\"]               # only scan these paths",
   "    exclude = [\"specs/drafts/\"]        # skip these paths",
   ""]

def guide : Text :=
  (introduction ++ documentGuide ++ workflowGuide ++ configurationGuide).flatMap fun line =>
    line.toList ++ ['\n']

def cell (t : Text) : Text := "| ".toList ++ t ++ [' ']

def ruleRow (r : Rule) : Text :=
  cell r.code ++ cell r.severity.label ++ cell r.meaning ++ "|\n".toList

def exitCodeRow (entry : Nat × Text) : Text :=
  cell (Text.ofNat entry.1 ++ "   ".toList) ++ cell entry.2 ++ "|\n".toList

def ruleTable : Text :=
  "## Validation Rules\n\n| Code | Severity | Meaning |\n|------|----------|---------|\n".toList ++
    Rule.all.flatMap ruleRow

def exitCodeTable : Text :=
  "## Exit Codes\n\n| Code | Meaning |\n|------|---------|\n".toList ++
    exitCodes.flatMap exitCodeRow

def State.markdown (s : State) : Text :=
  "## Current State\n\nConfig:   ".toList ++ Config.fileName ++
    (if s.configFound then " (found)\n" else " (not found)\n").toList ++
    "Manifest: ".toList ++ s.manifestPath.text ++
    (match s.manifestEntries with
      | some n => " (".toList ++ Text.ofNat n ++ " documents)\n".toList
      | none => " (not found)\n".toList)

def markdown (s : State) : Text :=
  "# islc ".toList ++ version ++ ['\n'] ++ guide ++ ruleTable ++ ['\n'] ++ exitCodeTable ++
    ['\n'] ++ s.markdown

end IslDocs.Info
