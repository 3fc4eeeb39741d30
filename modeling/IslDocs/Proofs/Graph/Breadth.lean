import IslDocs.Proofs.Graph.Depth

/-! The sweep goes through the levels one after the other. Its queue holds nodes of one rank and then
nodes of the next one, because a node joins the queue when the last of its dependencies is taken and
the nodes taken so far are in the order of their ranks. So an order that the sweep makes never goes
back to a lower level, which other topological orders may do. -/

namespace IslDocs.Sweep

variable {g : Graph} {rank : Path → ℕ} {pending : List Path} {s : Sweep} {current p : Path}

/-- Nodes have been taken and wait by rank, and those that wait are of one rank and the next. -/
structure Layered (rank : Path → ℕ) (s : Sweep) : Prop where
  sorted : (s.done ++ s.queue).Pairwise (rank · ≤ rank ·)
  near : ∀ p ∈ s.queue, ∀ q ∈ s.queue, rank q ≤ rank p + 1

/-- The same while the dependents of the node taken last are being counted down. -/
structure Taking (rank : Path → ℕ) (current : Path) (s : Sweep) : Prop where
  sorted : (s.done ++ s.queue).Pairwise (rank · ≤ rank ·)
  last : s.done.getLast? = some current
  near : ∀ q ∈ s.queue, rank q ≤ rank current + 1

theorem Taking.le_current (h : Taking rank current s) (hp : p ∈ s.done) :
    rank p ≤ rank current := by
  obtain ⟨earlier, split⟩ := List.getLast?_eq_some_iff.1 h.last
  rw [split] at hp
  rcases List.mem_append.1 hp with hp | hp
  · have sorted := (List.pairwise_append.1 h.sorted).1
    rw [split] at sorted
    exact (List.pairwise_append.1 sorted).2.2 p hp current (List.mem_singleton_self _)
  · rw [List.mem_singleton.1 hp]

theorem Taking.current_le (h : Taking rank current s) (hp : p ∈ s.queue) :
    rank current ≤ rank p :=
  (List.pairwise_append.1 h.sorted).2.2 current (List.mem_of_getLast? h.last) p hp

theorem Taking.layered (h : Taking rank current s) : Layered rank s where
  sorted := h.sorted
  near := by
    intro p hp q hq
    have := h.near q hq
    have := h.current_le hp
    omega

theorem Layered.taking (h : Layered rank s) {waiting : List Path}
    (hq : s.queue = current :: waiting) :
    Taking rank current { s with done := s.done ++ [current], queue := waiting } where
  sorted := by simpa [hq] using h.sorted
  last := List.getLast?_concat
  near := fun q hw => h.near current (by simp [hq]) q (by simp [hq, hw])

/-! ### One step -/

theorem layered_start (ranks : g.Ranks rank) : Layered rank (start g) := by
  have lowest : ∀ p ∈ (start g).queue, rank p = 0 := by
    intro p hp
    obtain ⟨a, ha, rfl⟩ := List.mem_map.1 hp
    obtain ⟨ha, zero⟩ := List.mem_filter.1 ha
    obtain ⟨q, -, rfl⟩ := List.mem_map.1 ha
    refine ranks.eq_zero (List.map_eq_nil_iff.2 (List.filter_eq_nil_iff.2 ?_))
    exact List.countP_eq_zero.1 (beq_iff_eq.1 zero)
  have none : (start g).done = [] := rfl
  constructor
  · rw [none, List.nil_append]
    refine List.Pairwise.imp_of_mem (fun hp hq _ => ?_) (List.pairwise_of_forall fun _ _ => trivial)
    rw [lowest _ hp]
    exact Nat.zero_le _
  · intro p _ q hq
    rw [lowest q hq]
    exact Nat.zero_le _

/-- A dependent that comes free has the next rank: it depends on the node being taken, and on nothing
that has not been taken. -/
theorem Taking.rank_freed (ranks : g.Ranks rank) (h : Taking rank current s)
    (hp : p ∈ g.dependentsOf current) (free : ∀ d ∈ g.dependenciesOf p, s.done.contains d = true) :
    rank p = rank current + 1 := by
  obtain ⟨e, he, same, rfl⟩ := Graph.mem_dependentsOf.1 hp
  have above := ranks.lt_of_mem (Graph.mem_dependenciesOf.2 ⟨e, he, BEq.rfl, rfl⟩)
  rw [ranks.congr same] at above
  refine Nat.le_antisymm (Nat.le_of_not_lt fun higher => ?_) above
  obtain ⟨d, hd, high⟩ := ranks.lt_iff.1 higher
  obtain ⟨q, hq, equal⟩ := List.contains_iff_exists_mem_beq.1 (free d hd)
  have := h.le_current hq
  rw [ranks.congr equal] at high
  omega

section
variable (hg : g.WellFormed) (ranks : g.Ranks rank)
include hg ranks

theorem Taking.visit (h : Taking rank current s) (inv : Invariant g (p :: pending) s)
    (hp : p ∈ g.dependentsOf current) : Taking rank current (s.visit p) := by
  have spells := Graph.spells_of_mem_dependentsOf hp
  obtain ⟨b, hb, same⟩ := inv.exists_count (hg.contains_of_spells spells)
  have queue := inv.visit_queue hg hb same
  have next := inv.visit hg spells
  have done : (s.visit p).done = s.done := rfl
  split at queue
  · have free : ∀ d ∈ g.dependenciesOf p, s.done.contains d = true := fun d hd =>
      next.dependencies_done hg (by simp [done, queue]) hd
    have rank_p := h.rank_freed ranks hp free
    refine ⟨?_, h.last, ?_⟩
    · rw [done, queue, ← List.append_assoc]
      refine List.pairwise_append.2 ⟨h.sorted, List.pairwise_singleton _ _, fun q hq r hr => ?_⟩
      rw [List.mem_singleton.1 hr, rank_p]
      rcases List.mem_append.1 hq with hq | hq
      · exact Nat.le_succ_of_le (h.le_current hq)
      · exact h.near q hq
    · rw [queue]
      intro q hq
      rcases List.mem_append.1 hq with hq | hq
      · exact h.near q hq
      · rw [List.mem_singleton.1 hq, rank_p]
  · refine ⟨?_, h.last, ?_⟩
    · rw [done, queue]
      exact h.sorted
    · rw [queue]
      exact h.near

theorem Taking.foldl_visit (h : Taking rank current s) (inv : Invariant g pending s)
    (hp : ∀ p ∈ pending, p ∈ g.dependentsOf current) :
    Taking rank current (pending.foldl Sweep.visit s) := by
  induction pending generalizing s with
  | nil => exact h
  | cons p rest ih =>
    have own := hp p List.mem_cons_self
    exact ih (h.visit hg ranks inv own) (inv.visit hg (Graph.spells_of_mem_dependentsOf own))
      fun q hq => hp q (List.mem_cons_of_mem _ hq)

theorem Layered.step (h : Layered rank s) (inv : Invariant g [] s) {next : Sweep}
    (hs : s.step? g = some next) : Layered rank next := by
  unfold step? at hs
  split at hs
  · cases hs
  · next current waiting hq =>
    cases hs
    exact ((h.taking hq).foldl_visit hg ranks (inv.take hg hq) fun _ hp => hp).layered

/-! ### The whole sweep -/

theorem pairwise_swept : g.swept.Pairwise (rank · ≤ rank ·) := by
  obtain ⟨⟨-, layered⟩, empty⟩ :=
    run_induction (g := g) (motive := fun s => Invariant g [] s ∧ Layered rank s) (start g)
      ⟨.start hg, layered_start ranks⟩ fun s next h hs => ⟨h.1.step hg hs, h.2.step hg ranks h.1 hs⟩
  have sorted := layered.sorted
  rwa [empty, List.append_nil] at sorted

end

end IslDocs.Sweep

namespace IslDocs.Graph

variable {g : Graph} {rank : Path → ℕ} {listed : List Path}

/-! ### Levels in order -/

theorem filter_lt_append (sorted : listed.Pairwise (rank · ≤ rank ·)) (n : ℕ) :
    listed.filter (rank · < n) ++ listed.filter (rank · == n) = listed.filter (rank · < n + 1) := by
  induction listed with
  | nil => rfl
  | cons p rest ih =>
    obtain ⟨above, sorted⟩ := List.pairwise_cons.1 sorted
    have ih := ih sorted
    rcases Nat.lt_trichotomy (rank p) n with lower | equal | higher
    · simp only [List.filter_cons, decide_eq_true lower, decide_eq_true (Nat.lt_succ_of_lt lower),
        beq_eq_false_iff_ne.2 (Nat.ne_of_lt lower), if_true, Bool.false_eq_true, if_false,
        List.cons_append, ih]
    · have none : rest.filter (rank · < n) = [] := by
        refine List.filter_eq_nil_iff.2 fun q hq low => ?_
        have := of_decide_eq_true low
        have := above q hq
        omega
      rw [none, List.nil_append] at ih
      simp only [List.filter_cons, equal, Nat.lt_irrefl, decide_false, beq_self_eq_true,
        decide_eq_true (Nat.lt_succ_self n), if_true, Bool.false_eq_true, if_false, none,
        List.nil_append, ih]
    · simp only [List.filter_cons, decide_eq_false (Nat.not_lt.2 higher.le),
        decide_eq_false (Nat.not_lt.2 higher), beq_eq_false_iff_ne.2 (Nat.ne_of_gt higher),
        Bool.false_eq_true, if_false, ih]

theorem flatten_layers (sorted : listed.Pairwise (rank · ≤ rank ·)) :
    (layers rank listed).flatten = listed := by
  have upTo : ∀ n, ((List.range n).map fun k => listed.filter (rank · == k)).flatten =
      listed.filter (rank · < n) := by
    intro n
    induction n with
    | zero => simp
    | succ n ih =>
      rw [List.range_succ, List.map_append, List.flatten_append, ih, ← filter_lt_append sorted n]
      simp
  rw [layers, upTo]
  refine List.filter_eq_self.2 fun p hp => decide_eq_true ?_
  exact lt_height_iff.2 ⟨rank p, List.mem_map_of_mem hp, le_rfl⟩

theorem WellFormed.exists_sorted (hg : g.WellFormed) (h : g.order = .ok listed) :
    ∃ rank, g.Ranks rank ∧ g.IsTopological listed ∧ listed.Pairwise (rank · ≤ rank ·) := by
  obtain ⟨rfl, all⟩ := order_eq_ok h
  have topological := hg.isTopological_swept all
  obtain ⟨rank, ranks⟩ := topological.exists_ranks
  exact ⟨rank, ranks, topological, Sweep.pairwise_swept hg ranks⟩

/-- The levels of the build order, put together, are the build order. -/
theorem WellFormed.flatten_levels (hg : g.WellFormed) (h : g.order = .ok listed) :
    (g.levels listed).flatten = listed := by
  obtain ⟨rank, ranks, topological, sorted⟩ := hg.exists_sorted h
  rw [topological.levels_eq ranks, flatten_layers sorted]

theorem WellFormed.pairwise_annotate (hg : g.WellFormed) (h : g.order = .ok listed) :
    (g.annotate listed).Pairwise fun a b => a.2 ≤ b.2 := by
  obtain ⟨rank, ranks, topological, sorted⟩ := hg.exists_sorted h
  rw [topological.annotate_eq ranks, List.pairwise_map]
  exact sorted

end IslDocs.Graph
