import IslDocs.Graph.Cycle
import IslDocs.Graph.Sweep

/-! The build order of a graph, in which every dependency stands before its dependents, or a cycle
if there is no such order; and the levels of an order, in which documents do not depend on each
other. -/

namespace IslDocs.Graph

def unordered (g : Graph) (ordered : List Path) : List Path :=
  (Path.sort g.nodes).filter fun p => !ordered.contains p

/-- The build order, or the chain of a cycle relative to the root. -/
def order (g : Graph) : Except (List Path) (List Path) :=
  if g.swept.length < g.nodes.length then
    .error ((g.cycle (g.unordered g.swept)).map g.relative)
  else .ok g.swept

/-! ### Levels -/

/-- One more than the highest level of the dependencies that `placed` has, and zero for none. -/
def levelAbove (placed : List (Path × Nat)) (dependencies : List Path) : Nat :=
  ((dependencies.filterMap fun d => List.lookup d placed).max?.map (· + 1)).getD 0

/-- Every node of an order with its level; `placed` holds the earlier ones, the latest first. -/
def annotateFrom (g : Graph) (placed : List (Path × Nat)) : List Path → List (Path × Nat)
  | [] => []
  | p :: rest =>
    let level := levelAbove placed (g.dependenciesOf p)
    (p, level) :: annotateFrom g ((p, level) :: placed) rest

def annotate (g : Graph) (order : List Path) : List (Path × Nat) := annotateFrom g [] order

def groupLevels (annotated : List (Path × Nat)) : List (List Path) :=
  let height := ((annotated.map Prod.snd).max?.map (· + 1)).getD 0
  (List.range height).map fun level => (annotated.filter (·.2 == level)).map Prod.fst

/-- The nodes of an order by level, and within a level in the order given. -/
def levels (g : Graph) (order : List Path) : List (List Path) := groupLevels (g.annotate order)

end IslDocs.Graph
