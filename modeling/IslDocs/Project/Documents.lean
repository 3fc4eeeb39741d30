import IslDocs.Config.Load
import IslDocs.Graph.Order
import IslDocs.Interface.Context

/-! The documents of a project and their graph. Documents are the regular files below the root whose
names end with the suffix and whose paths the configuration lets pass; an edge is recorded for each
reference line of a document that names another one. -/

namespace IslDocs.Project

/-- A location below the root as the configuration sees it. -/
def scanText (root loc : Location) : Text :=
  (['/'].intercalate (loc.drop root.length)).map fun c => if c == '\\' then '/' else c

def isDocument (config : Config) (root loc : Location) : Bool :=
  Text.endsWith config.suffix (loc.getLast?.getD []) && config.shouldScan (scanText root loc)

/-- The documents under a root as paths from the tree's root, in path order; the empty path is no
root. -/
def discover (t : Tree) (root : Path) (config : Config) : List Path :=
  if root.text.isEmpty then []
  else
    let base := (Path.absolute t.workPath root).location
    Path.sort (((t.filesBelow base).filter (isDocument config base)).map Path.ofLocation)

/-- The targets of a document's reference lines as paths; an unreadable document has none. -/
def referencesOf (t : Tree) (document : Path) : List Path :=
  match t.readText document with
  | .ok content => (BuildContext.targets content).map (Path.resolveAgainst document)
  | .error _ => []

/-- Records the references of one document; those to other files are ignored. -/
def addReferences (t : Tree) (g : Graph) (document : Path) : Graph :=
  (referencesOf t document).foldl (fun g dependency => g.addEdge dependency document) g

def graph (t : Tree) (root : Path) (documents : List Path) : Graph :=
  documents.foldl (addReferences t)
    (documents.foldl Graph.addNode (Graph.empty (Path.absolute t.workPath root)))

end IslDocs.Project
