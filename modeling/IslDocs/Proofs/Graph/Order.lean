import IslDocs.Proofs.Graph.Loop

/-! The build order is topological. It exists exactly when the recorded edges have no cycle; it
lists every node once and nothing else, every dependency before its dependents. -/

namespace IslDocs.Graph

open Relation

variable {g : Graph} {listed : List Path}

structure IsTopological (g : Graph) (listed : List Path) : Prop where
  once : ∀ p, g.contains p = true → listed.countP (· == p) = 1
  known : ∀ p ∈ listed, g.contains p = true
  before : ∀ e ∈ g.edges, listed.findIdx (· == e.dependency) < listed.findIdx (· == e.dependent)

instance (g : Graph) (listed : List Path) : Decidable (g.IsTopological listed) :=
  decidable_of_iff
    ((∀ k ∈ g.nodes.map Path.parts, (listed.map Path.parts).count k = 1) ∧
      (∀ p ∈ listed, g.contains p = true) ∧
      ∀ e ∈ g.edges, listed.findIdx (· == e.dependency) < listed.findIdx (· == e.dependent)) <| by
    constructor
    · rintro ⟨once, known, before⟩
      refine ⟨fun p hp => ?_, known, before⟩
      rw [Path.countP_beq]
      exact once _ (Path.contains_iff.1 hp)
    · rintro ⟨once, known, before⟩
      refine ⟨fun k hk => ?_, known, before⟩
      obtain ⟨p, hp, rfl⟩ := List.mem_map.1 hk
      rw [← Path.countP_beq]
      exact once p (Path.contains_of_mem hp)

theorem IsTopological.contains_eq (h : g.IsTopological listed) (p : Path) :
    listed.contains p = g.contains p := by
  rw [Bool.eq_iff_iff]
  constructor
  · intro found
    obtain ⟨q, hq, same⟩ := List.contains_iff_exists_mem_beq.1 found
    rw [g.contains_congr same]
    exact h.known q hq
  · intro known
    have once := h.once p known
    obtain ⟨q, hq, same⟩ := List.countP_pos_iff.1 (show 0 < listed.countP (· == p) by omega)
    exact List.contains_iff_exists_mem_beq.2 ⟨q, hq, BEq.symm same⟩

/-! ### Positions -/

theorem findIdx_lt_length {p : Path} (h : listed.contains p = true) :
    listed.findIdx (· == p) < listed.length := by
  obtain ⟨q, hq, same⟩ := List.contains_iff_exists_mem_beq.1 h
  exact List.findIdx_lt_length.2 ⟨q, hq, BEq.symm same⟩

/-- What is listed before every occurrence of a node has the earlier position. -/
theorem findIdx_lt_findIdx {p d : Path} (hp : listed.contains p = true)
    (ordered : ∀ before q after, listed = before ++ q :: after → (q == p) = true →
      before.contains d = true) :
    listed.findIdx (· == d) < listed.findIdx (· == p) := by
  have hi := findIdx_lt_length hp
  set i := listed.findIdx (· == p)
  have split : listed = listed.take i ++ listed[i] :: listed.drop (i + 1) := by
    rw [List.getElem_cons_drop, List.take_append_drop]
  have found : (listed[i] == p) = true := List.findIdx_getElem (p := (· == p))
  have earlier := findIdx_lt_length (ordered _ _ _ split found)
  calc listed.findIdx (· == d) = (listed.take i).findIdx (· == d) := by
        conv_lhs => rw [split]
        rw [List.findIdx_append, if_pos earlier]
    _ < (listed.take i).length := earlier
    _ = i := List.length_take_of_le hi.le

theorem findIdx_le_length (before after : List Path) (p : Path) :
    (before ++ p :: after).findIdx (· == p) ≤ before.length := by
  rw [List.findIdx_append]
  split
  · omega
  · simp [List.findIdx_cons]

theorem Precedes.findIdx_lt (h : g.IsTopological listed) {p q : Path} (edge : g.Precedes p q) :
    listed.findIdx (· == p) < listed.findIdx (· == q) := by
  obtain ⟨e, he, dependency, dependent⟩ := edge
  have position : ∀ {r r' : Path}, (r == r') = true →
      listed.findIdx (· == r) = listed.findIdx (· == r') := by
    intro r r' same
    congr 1
    funext s
    exact BEq.congr_right same
  rw [← position dependency, ← position dependent]
  exact h.before e he

/-- In a topological order the dependencies of a node stand before it. -/
theorem IsTopological.contains_before (h : g.IsTopological listed) {p d : Path}
    {before after : List Path} (split : listed = before ++ p :: after) (hd : d ∈ g.dependenciesOf p) :
    before.contains d = true := by
  have earlier := (precedes_of_mem_dependenciesOf hd).findIdx_lt h
  rw [split] at earlier
  have position := findIdx_le_length before after p
  rw [List.contains_iff_exists_mem_beq]
  by_contra missing
  have absent : before.findIdx (· == d) = before.length :=
    List.findIdx_eq_length.2 fun q hq =>
      Bool.eq_false_iff.2 fun same => missing ⟨q, hq, BEq.symm same⟩
  rw [List.findIdx_append, absent, if_neg (Nat.lt_irrefl _)] at earlier
  omega

theorem IsTopological.acyclic (h : g.IsTopological listed) : g.Acyclic := by
  intro p cycle
  have rises : ∀ q, TransGen g.Precedes p q →
      listed.findIdx (· == p) < listed.findIdx (· == q) := by
    intro q path
    induction path with
    | single edge => exact edge.findIdx_lt h
    | tail _ edge ih => exact ih.trans (edge.findIdx_lt h)
  exact Nat.lt_irrefl _ (rises p cycle)

/-! ### The nodes taken -/

theorem WellFormed.contains_swept (hg : g.WellFormed) (all : g.nodes.length ≤ g.swept.length)
    (p : Path) : g.swept.contains p = g.contains p := by
  have taken := hg.distinct_swept.subperm fun q hq => hg.contains_of_mem_swept hq
  have perm : (g.swept.map Path.parts).Perm (g.nodes.map Path.parts) :=
    taken.perm_of_length_le (by simpa using all)
  rw [Bool.eq_iff_iff, contains, Path.contains_iff, Path.contains_iff, perm.mem_iff]

theorem WellFormed.isTopological_swept (hg : g.WellFormed)
    (all : g.nodes.length ≤ g.swept.length) : g.IsTopological g.swept where
  once := by
    intro p hp
    rw [Path.countP_beq]
    refine List.count_eq_one_of_mem (Path.distinct_iff.1 hg.distinct_swept) ?_
    exact Path.contains_iff.1 ((hg.contains_swept all p).trans hp)
  known := fun _ hp => hg.contains_of_mem_swept hp
  before := by
    intro e he
    refine findIdx_lt_findIdx ((hg.contains_swept all _).trans (hg.dependent e he)) ?_
    intro before q after split same
    exact hg.swept_ordered split (mem_dependenciesOf.2 ⟨e, he, by rwa [Path.beq_comm], rfl⟩)

theorem order_eq_ok {listed : List Path} (h : g.order = .ok listed) :
    listed = g.swept ∧ g.nodes.length ≤ g.swept.length := by
  unfold order at h
  split at h
  · cases h
  · cases h
    exact ⟨rfl, by omega⟩

/-- An order is given exactly when no recorded edge lies on a cycle, and it is topological. -/
theorem order_topological (root : Path) (ops : List Operation) :
    let g := ofOperations root ops
    ((∃ listed, g.order = .ok listed) ↔ g.Acyclic) ∧
      ((∃ chain, g.order = .error chain) ↔ ¬ g.Acyclic) ∧
      ∀ listed, g.order = .ok listed → g.IsTopological listed := by
  intro g
  have hg : g.WellFormed := wellFormed_ofOperations root ops
  have topological : ∀ listed, g.order = .ok listed → g.IsTopological listed := by
    intro listed h
    obtain ⟨rfl, all⟩ := order_eq_ok h
    exact hg.isTopological_swept all
  have cyclic : ∀ chain, g.order = .error chain → ¬ g.Acyclic := by
    intro chain h acyclic
    obtain ⟨loop, -⟩ := hg.isLoop_of_order h
    obtain ⟨p, hp⟩ := List.exists_mem_of_length_pos (Nat.lt_of_lt_of_le Nat.two_pos loop.two_le)
    exact acyclic p (loop.transGen hp)
  cases h : g.order with
  | ok listed =>
    have := (topological listed h).acyclic
    simp [this, topological listed h]
  | error chain =>
    have := cyclic chain h
    simp [this]

end IslDocs.Graph
