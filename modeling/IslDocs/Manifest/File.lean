import IslDocs.Manifest.Codec
import IslDocs.Tree.Access

/-! Manifests in files. -/

namespace IslDocs.Manifest

def read (t : Tree) (p : Path) : Except Failure Manifest :=
  match t.readText p with
  | .error .notFound => .error (.manifestNotFound p)
  | .error fault => .error (.io fault)
  | .ok text => parse text

end IslDocs.Manifest
