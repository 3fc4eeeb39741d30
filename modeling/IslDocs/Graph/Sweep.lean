import IslDocs.Graph.Basic

/-! The sweep that orders a graph. Every node carries the number of its dependencies still to come;
a node whose number has reached zero waits in a queue, and taking a node from the queue counts down
its dependents. Main statement: each step makes the sweep smaller, so it ends. -/

namespace IslDocs

/-- Nodes with the number of edges into them from nodes not yet taken. -/
abbrev Counts := List (Path × Nat)

namespace Counts

def total : Counts → Nat
  | [] => 0
  | (_, n) :: rest => n + total rest

/-- Counts `p` down, and says whether that made its count zero. -/
def countDown (p : Path) : Counts → Counts × Bool
  | [] => ([], false)
  | (q, n) :: rest =>
    if q == p then ((q, n - 1) :: rest, n == 1)
    else
      let (rest, freed) := countDown p rest
      ((q, n) :: rest, freed)

theorem total_countDown (p : Path) (counts : Counts) :
    (countDown p counts).1.total + (if (countDown p counts).2 then 1 else 0) ≤ counts.total := by
  induction counts with
  | nil => simp [countDown, total]
  | cons entry rest ih =>
    by_cases hq : (entry.1 == p) = true
    · simp only [countDown, total, hq, ↓reduceIte, beq_iff_eq]
      split <;> omega
    · simp only [countDown, total, hq, Bool.false_eq_true, ↓reduceIte]
      omega

end Counts

structure Sweep where
  /-- The nodes taken so far, in order. -/
  done : List Path
  queue : List Path
  remaining : Counts

namespace Sweep

/-- Nodes in path order, those without dependencies waiting. -/
def start (g : Graph) : Sweep :=
  let remaining := (Path.sort g.nodes).map fun p => (p, g.inDegree p)
  { done := [], queue := (remaining.filter (·.2 == 0)).map Prod.fst, remaining }

/-- Counts down one dependent of the node that is being taken. -/
def visit (s : Sweep) (dependent : Path) : Sweep :=
  let (remaining, freed) := s.remaining.countDown dependent
  { s with remaining, queue := if freed then s.queue ++ [dependent] else s.queue }

/-- Takes the first node of the queue, if there is one. -/
def step? (g : Graph) (s : Sweep) : Option Sweep :=
  match s.queue with
  | [] => none
  | current :: waiting =>
    some ((g.dependentsOf current).foldl visit
      { s with done := s.done ++ [current], queue := waiting })

/-- What is left to do: the waiting nodes and the edges not yet counted down. -/
def size (s : Sweep) : Nat := s.queue.length + s.remaining.total

theorem size_visit (s : Sweep) (p : Path) : (s.visit p).size ≤ s.size := by
  have h := Counts.total_countDown p s.remaining
  simp only [visit, size]
  split at h
  · simp_all
    omega
  · simp_all

theorem size_foldl_visit (ps : List Path) (s : Sweep) : (ps.foldl visit s).size ≤ s.size := by
  induction ps generalizing s with
  | nil => exact Nat.le_refl _
  | cons p rest ih => exact Nat.le_trans (ih (s.visit p)) (size_visit s p)

theorem size_step? {g : Graph} {s next : Sweep} (h : s.step? g = some next) :
    next.size < s.size := by
  unfold step? at h
  split at h
  · cases h
  · next current waiting hq =>
    cases h
    refine Nat.lt_of_le_of_lt (size_foldl_visit _ _) ?_
    simp [size, hq]

def run (g : Graph) (s : Sweep) : Sweep :=
  match _taken : s.step? g with
  | none => s
  | some next => run g next
termination_by s.size
decreasing_by exact size_step? _taken

end Sweep

/-- The nodes that a sweep takes, in order. -/
def Graph.swept (g : Graph) : List Path := ((Sweep.start g).run g).done

end IslDocs
