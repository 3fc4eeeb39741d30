import IslDocs.Graph.Basic

/-! A cycle among the nodes that could not be ordered: from the first of them the walk follows,
again and again, the first dependency that is among them too, until it comes to a node it has
visited. -/

namespace IslDocs.Graph

/-- The stretch of the walk from `node` on, closed by `node` itself. -/
def closeLoop (walk : List Path) (node : Path) : List Path :=
  walk.dropWhile (fun p => !(p == node)) ++ [node]

def without (ps : List Path) (p : Path) : List Path := ps.filter fun q => !(p == q)

theorem length_without_lt {ps : List Path} {p : Path} (h : ps.contains p = true) :
    (without ps p).length < ps.length := by
  obtain ⟨q, hq, same⟩ := List.contains_iff_exists_mem_beq.1 h
  exact List.length_filter_lt_length_iff_exists.2 ⟨q, hq, by simp [same]⟩

/-- The walk goes on from `node`; `unvisited` holds the unordered nodes that are not on it. -/
def chase (g : Graph) (unordered unvisited walk : List Path) (node : Path) : List Path :=
  if _open : unvisited.contains node then
    match (g.dependenciesOf node).find? unordered.contains with
    | some next => chase g unordered (without unvisited node) (walk ++ [node]) next
    | none => unordered
  else closeLoop walk node
termination_by unvisited.length
decreasing_by exact length_without_lt _open

/-- The nodes of one cycle among `unordered`, the first of them repeated at the end. -/
def cycle (g : Graph) (unordered : List Path) : List Path :=
  match unordered with
  | [] => []
  | first :: _ => chase g unordered unordered [] first

end IslDocs.Graph
