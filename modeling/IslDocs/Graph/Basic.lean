import IslDocs.Path.Normal

/-! The dependency graph of a project. Its nodes are documents, and each edge records one reference
from a dependent document to a dependency; repeated references are repeated edges. -/

namespace IslDocs

structure Edge where
  dependency : Path
  dependent : Path

structure Graph where
  root : Path
  /-- In the order in which they were added, without repetition. -/
  nodes : List Path
  /-- In the order in which they were recorded. -/
  edges : List Edge

namespace Graph

def empty (root : Path) : Graph := { root, nodes := [], edges := [] }

def contains (g : Graph) (p : Path) : Bool := g.nodes.contains p

/-- Adds a node; a node that is already there keeps its spelling. -/
def addNode (g : Graph) (p : Path) : Graph :=
  if g.contains p then g else { g with nodes := g.nodes ++ [p] }

/-- Records an edge between two nodes; with an unknown end it is ignored. -/
def addEdge (g : Graph) (dependency dependent : Path) : Graph :=
  if g.contains dependency && g.contains dependent then
    { g with edges := g.edges ++ [{ dependency, dependent }] }
  else g

def dependenciesOf (g : Graph) (p : Path) : List Path :=
  (g.edges.filter (·.dependent == p)).map Edge.dependency

def dependentsOf (g : Graph) (p : Path) : List Path :=
  (g.edges.filter (·.dependency == p)).map Edge.dependent

/-- The number of recorded edges into a node. -/
def inDegree (g : Graph) (p : Path) : Nat := g.edges.countP (·.dependent == p)

def relative (g : Graph) (p : Path) : Path := Path.relativeTo g.root p

/-- Some recorded edge leads from `p` to its dependent `q`. -/
def Precedes (g : Graph) (p q : Path) : Prop :=
  ∃ e ∈ g.edges, (e.dependency == p) = true ∧ (e.dependent == q) = true

end Graph
end IslDocs
