import IslDocs.Graph.Basic
import IslDocs.Proofs.Path.Same

/-! Graphs as they come about: from the empty graph, by adding nodes and recording edges in any
order. Whatever the sequence, the nodes are distinct and both ends of every edge are nodes. -/

namespace IslDocs.Graph

inductive Operation where
  | addNode (p : Path)
  | addEdge (dependency dependent : Path)

def apply (g : Graph) : Operation → Graph
  | .addNode p => g.addNode p
  | .addEdge dependency dependent => g.addEdge dependency dependent

/-- The graph that a sequence of operations makes. -/
def ofOperations (root : Path) (ops : List Operation) : Graph := ops.foldl apply (empty root)

structure WellFormed (g : Graph) : Prop where
  distinct : Path.Distinct g.nodes
  dependency : ∀ e ∈ g.edges, g.contains e.dependency = true
  dependent : ∀ e ∈ g.edges, g.contains e.dependent = true

theorem contains_congr (g : Graph) {p q : Path} (h : (p == q) = true) :
    g.contains p = g.contains q := Path.contains_congr h g.nodes

/-- `p` is spelled like a node or like the dependent of an edge. -/
def Spells (g : Graph) (p : Path) : Prop := p ∈ g.nodes ∨ ∃ e ∈ g.edges, e.dependent = p

theorem WellFormed.contains_of_spells {g : Graph} (hg : g.WellFormed) {p : Path}
    (h : g.Spells p) : g.contains p = true := by
  rcases h with node | ⟨e, he, rfl⟩
  · exact Path.contains_of_mem node
  · exact hg.dependent e he

/-! ### Adding nodes and edges -/

theorem wellFormed_empty (root : Path) : (empty root).WellFormed :=
  ⟨List.Pairwise.nil, by simp [empty], by simp [empty]⟩

@[simp] theorem contains_addNode (g : Graph) (p q : Path) :
    (g.addNode p).contains q = (g.contains q || q == p) := by
  unfold addNode
  split
  · next known =>
    rcases hq : (q == p) with _ | _
    · simp
    · simp [g.contains_congr hq, known]
  · simp [contains]

theorem WellFormed.addNode {g : Graph} (hg : g.WellFormed) (p : Path) :
    (g.addNode p).WellFormed := by
  have old : ∀ q, g.contains q = true → (g.addNode p).contains q = true := by
    intro q hq
    simp [hq]
  have edges : (g.addNode p).edges = g.edges := by
    unfold Graph.addNode
    split <;> rfl
  refine ⟨?_, fun e he => old _ (hg.dependency e (edges ▸ he)),
    fun e he => old _ (hg.dependent e (edges ▸ he))⟩
  unfold Graph.addNode
  split
  · exact hg.distinct
  · next unknown =>
    refine List.pairwise_append.2 ⟨hg.distinct, List.pairwise_singleton _ _, ?_⟩
    intro q hq r hr
    rw [List.mem_singleton.1 hr, ← Bool.not_eq_true]
    intro same
    exact unknown ((g.contains_congr same).symm.trans (Path.contains_of_mem hq))

@[simp] theorem nodes_addEdge (g : Graph) (p q : Path) : (g.addEdge p q).nodes = g.nodes := by
  unfold addEdge
  split <;> rfl

@[simp] theorem contains_addEdge (g : Graph) (p q r : Path) :
    (g.addEdge p q).contains r = g.contains r := by
  simp [contains]

theorem WellFormed.addEdge {g : Graph} (hg : g.WellFormed) (p q : Path) :
    (g.addEdge p q).WellFormed := by
  refine ⟨(g.nodes_addEdge p q).symm ▸ hg.distinct, ?_, ?_⟩ <;> intro e he <;>
    rw [contains_addEdge] <;> unfold Graph.addEdge at he <;> split at he
  · next known =>
    rcases List.mem_append.1 he with old | new
    · exact hg.dependency e old
    · rw [List.mem_singleton.1 new]
      exact (Bool.and_eq_true_iff.1 known).1
  · exact hg.dependency e he
  · next known =>
    rcases List.mem_append.1 he with old | new
    · exact hg.dependent e old
    · rw [List.mem_singleton.1 new]
      exact (Bool.and_eq_true_iff.1 known).2
  · exact hg.dependent e he

theorem wellFormed_foldl {α : Type} (f : Graph → α → Graph)
    (step : ∀ g a, g.WellFormed → (f g a).WellFormed) (as : List α) (g : Graph)
    (hg : g.WellFormed) : (as.foldl f g).WellFormed := by
  induction as generalizing g with
  | nil => exact hg
  | cons a rest ih => exact ih (f g a) (step g a hg)

theorem wellFormed_ofOperations (root : Path) (ops : List Operation) :
    (ofOperations root ops).WellFormed := by
  refine wellFormed_foldl apply (fun g op hg => ?_) ops _ (wellFormed_empty root)
  cases op with
  | addNode p => exact hg.addNode p
  | addEdge p q => exact hg.addEdge p q

/-! ### Edges -/

theorem mem_dependenciesOf {g : Graph} {p d : Path} :
    d ∈ g.dependenciesOf p ↔ ∃ e ∈ g.edges, (e.dependent == p) = true ∧ e.dependency = d := by
  simp [dependenciesOf, and_assoc]

theorem dependenciesOf_congr (g : Graph) {p q : Path} (h : (p == q) = true) :
    g.dependenciesOf p = g.dependenciesOf q := by
  simp only [dependenciesOf]
  congr 2
  funext e
  exact BEq.congr_right h

theorem mem_dependentsOf {g : Graph} {p q : Path} :
    q ∈ g.dependentsOf p ↔ ∃ e ∈ g.edges, (e.dependency == p) = true ∧ e.dependent = q := by
  simp [dependentsOf, and_assoc]

theorem WellFormed.contains_of_mem_dependenciesOf {g : Graph} (hg : g.WellFormed) {p d : Path}
    (h : d ∈ g.dependenciesOf p) : g.contains d = true := by
  obtain ⟨e, he, -, rfl⟩ := mem_dependenciesOf.1 h
  exact hg.dependency e he

theorem spells_of_mem_dependentsOf {g : Graph} {p q : Path} (h : q ∈ g.dependentsOf p) :
    g.Spells q := by
  obtain ⟨e, he, -, same⟩ := mem_dependentsOf.1 h
  exact Or.inr ⟨e, he, same⟩

theorem precedes_of_mem_dependenciesOf {g : Graph} {p d : Path} (h : d ∈ g.dependenciesOf p) :
    g.Precedes d p := by
  obtain ⟨e, he, same, rfl⟩ := mem_dependenciesOf.1 h
  exact ⟨e, he, BEq.rfl, same⟩

theorem Precedes.congr {g : Graph} {p p' q q' : Path} (h : g.Precedes p q)
    (hp : (p == p') = true) (hq : (q == q') = true) : g.Precedes p' q' := by
  obtain ⟨e, he, dependency, dependent⟩ := h
  exact ⟨e, he, BEq.trans dependency hp, BEq.trans dependent hq⟩

end IslDocs.Graph
