import IslDocs.Failure.Basic
import IslDocs.Text.Lines

/-! Failures as markdown: a heading, what happened and, where there is one, how to mend it. On a
terminal the heading lines are bold. -/

namespace IslDocs.Failure

def titled (title : String) (body : Text) : Text :=
  "# Error: ".toList ++ title.toList ++ "\n\n".toList ++ body ++ ['\n']

def withFix (title : String) (body : Text) (fix : String) : Text :=
  titled title body ++ "\n## Fix\n\n".toList ++ fix.toList

def quoted (t : Text) : Text := '\x60' :: t ++ ['\x60']

def missing (path : Path) : Text := quoted path.text ++ " does not exist.".toList

def markdown : Failure → Text
  | dependencyCycle chain =>
    withFix "Dependency Cycle Detected"
      ("Documents reference each other in a loop: ".toList ++ chainText chain ++
        "\n\nNo artifacts or manifest were written.".toList)
      ("Remove one `> **Reference**:` line from a document in the chain, or move the\n" ++
        "shared definitions into a separate document both can reference.\n")
  | fileNotFound path => titled "File Not Found" (missing path)
  | io fault => titled "I/O" fault.message
  | json reason => titled "Invalid JSON" reason
  | manifestCorrupt reason =>
    withFix "Manifest Corrupt" reason "Regenerate the manifest:\n\n    islc build\n"
  | manifestNotFound path =>
    withFix "Manifest Not Found" (missing path) "Run a build first:\n\n    islc build\n"
  | noDocuments root suffix =>
    withFix "No Documents"
      ("No ".toList ++ quoted ('*' :: suffix) ++ " files under ".toList ++ quoted root.text ++
        ['.'])
      ("Check the `suffix`, `include`, and `exclude` keys in `.islc.toml`, or run\n" ++
        "the command from the project root.\n")
  | toml reason =>
    withFix "Invalid TOML" (tomlReport reason)
      ("Check `.islc.toml`. Allowed keys: `suffix`, `output`, `max_depth`, `strict`,\n" ++
        "`include`, `exclude`.\n")
  | watch reason => titled "Watch Failed" reason

def bold (line : Text) : Text := "\x1b[1m".toList ++ line ++ "\x1b[0m".toList

/-- The markdown line by line, heading lines in bold. -/
def terminal (f : Failure) : Text :=
  f.markdown.lines.flatMap fun line =>
    (if Text.startsWith ['#'] line then bold line else line) ++ ['\n']

end IslDocs.Failure
