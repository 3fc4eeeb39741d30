import IslDocs.Path.Normal
import IslDocs.Reference.Line
import IslDocs.Text.BlankLines
import IslDocs.Text.Lines
import IslDocs.Tree.Access

/-! Documents with their references inlined. Each reference line is followed by the text of the file
it names, inlined in turn, up to a greatest depth; below the top, a file that has been inlined
before leaves nothing, which also ends cycles. -/

namespace IslDocs.Inline

/-! ### Marks in the text -/

def depthNotice (maxDepth : Nat) (p : Path) : Text :=
  "<!-- Max recursion depth (".toList ++ Text.ofNat maxDepth ++ ") reached for ".toList ++
    p.text ++ " -->".toList

def faultNotice (p : Path) : Fault → Text
  | .notFound => "[ERROR: File not found: ".toList ++ p.text ++ "]".toList
  | fault =>
    "[ERROR: Could not read file ".toList ++ p.text ++ ": ".toList ++ fault.message ++ "]".toList

def opening (target : Text) : Text :=
  "<!-- START EXTERNAL CONTEXT: ".toList ++ target ++ " -->".toList

def closing : Text := "<!-- END EXTERNAL CONTEXT -->".toList

/-! ### Inlining -/

/-- The lines of the file at `p` with what `inner` makes of each reference put after it; `seen`
holds the files inlined so far, in order. -/
def expand (inner : Path → List Path → Text × List Path) (p : Path) :
    List Text → List Path → List Text × List Path
  | [], seen => ([], seen)
  | line :: rest, seen =>
    match Reference.target? line with
    | none =>
      let (out, seen) := expand inner p rest seen
      (line :: out, seen)
    | some target =>
      let (inlined, seen) := inner (Path.resolveAgainst p target) seen
      let (out, seen) := expand inner p rest seen
      (line :: [] :: opening target :: inlined :: closing :: [] :: out, seen)

def addSeen (seen : List Path) (p : Path) : List Path :=
  if seen.contains p then seen else seen ++ [p]

/-- The file at `p`, with `left` more levels before the depth notice; the top has all of
`maxDepth + 1`. -/
def atDepth (t : Tree) (maxDepth : Nat) : (left : Nat) → Path → List Path → Text × List Path
  | 0, p, seen => (depthNotice maxDepth p, seen)
  | left + 1, p, seen =>
    if left < maxDepth && seen.contains p then ([], seen)
    else match t.readText p with
      | .error fault => (faultNotice p fault, seen)
      | .ok content =>
        let (out, seen) := expand (atDepth t maxDepth left) p (Text.dropMark content).lines
          (addSeen seen p)
        (Text.collapse (Text.unlines out), seen)

/-- The base names of the files inlined. -/
def contextMap (seen : List Path) : Text :=
  "<!-- CONTEXT MAP\nIncluded files:\n".toList ++
    seen.flatMap (fun p => "- ".toList ++ p.fileName?.getD p.text ++ ['\n']) ++ "-->\n".toList

/-- The document at `p` with its references inlined, under a map of the files in it; and the files
seen, those that were seen before included. -/
def resolve (t : Tree) (p : Path) (maxDepth : Nat) (seen : List Path) :
    Text × List Path :=
  let (body, seen) := atDepth t maxDepth (maxDepth + 1) (Path.absolute t.workPath p) seen
  (Text.collapse (contextMap seen ++ '\n' :: body), seen)

end IslDocs.Inline
