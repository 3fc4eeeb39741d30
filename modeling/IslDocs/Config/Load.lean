import IslDocs.Config.Basic
import IslDocs.Tree.Access

/-! The configuration of the project at a root. A project without a configuration file has the
defaults; a file that cannot be read or understood is a failure. -/

namespace IslDocs.Config

def load (t : Tree) (root : Path) : Except Failure Config :=
  match t.readText (root.join fileName) with
  | .error .notFound => .ok default
  | .error fault => .error (.io fault)
  | .ok text => parse text

end IslDocs.Config
