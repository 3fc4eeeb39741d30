import IslDocs.Path.Basic
import IslDocs.Tree.Fault

/-! The failures that end a command before it has a result, and the one-line message of each. -/

namespace IslDocs

inductive Failure where
  /-- The documents of the chain reference each other in a loop; the last is the first again. -/
  | dependencyCycle (chain : List Path)
  | fileNotFound (path : Path)
  | io (fault : Fault)
  | json (reason : Text)
  | manifestCorrupt (reason : Text)
  | manifestNotFound (path : Path)
  | noDocuments (root : Path) (suffix : Text)
  | toml (reason : Text)
  | watch (reason : Text)

namespace Failure

def chainText (chain : List Path) : Text := " -> ".toList.intercalate (chain.map Path.text)

/-- The report on a TOML text ends its own line. -/
def tomlReport (reason : Text) : Text := reason ++ ['\n']

def message : Failure → Text
  | dependencyCycle chain => "dependency cycle detected: ".toList ++ chainText chain
  | fileNotFound path => "file not found: ".toList ++ path.text
  | io fault => "io: ".toList ++ fault.message
  | json reason => "json: ".toList ++ reason
  | manifestCorrupt reason => "manifest corrupt: ".toList ++ reason
  | manifestNotFound path => "manifest not found: ".toList ++ path.text
  | noDocuments root suffix =>
    "no ".toList ++ suffix ++ " documents found in ".toList ++ root.text
  | toml reason => "toml deserialize: ".toList ++ tomlReport reason
  | watch reason => "watch: ".toList ++ reason

end Failure
end IslDocs
