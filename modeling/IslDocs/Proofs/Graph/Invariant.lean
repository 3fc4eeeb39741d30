import IslDocs.Proofs.Graph.Counting

/-! The sweep from its start to its end. Each countdown and each taking of a node keeps the
invariant; at the end no node waits, so a node that was not taken still has an edge from another
one that was not taken. -/

namespace IslDocs.Sweep

variable {g : Graph}

/-- `pending` holds the dependents still to be counted down for the node taken last. -/
structure Invariant (g : Graph) (pending : List Path) (s : Sweep) : Prop where
  nodes : s.remaining.map Prod.fst = Path.sort g.nodes
  count : ∀ a ∈ s.remaining, a.2 = g.edgesLeft s.done a.1 + pending.countP (· == a.1)
  reached : ∀ a ∈ s.remaining, a.2 = 0 ↔ (s.done ++ s.queue).contains a.1 = true
  distinct : Path.Distinct (s.done ++ s.queue)
  spelled : ∀ p ∈ s.done ++ s.queue, g.Spells p
  ordered : ∀ before p after, s.done = before ++ p :: after →
    ∀ d ∈ g.dependenciesOf p, before.contains d = true

namespace Invariant

variable {pending : List Path} {s : Sweep}

theorem keyed (hg : g.WellFormed) (h : Invariant g pending s) : s.remaining.Keyed := by
  rw [Counts.Keyed, h.nodes]
  exact hg.distinct.sort

theorem exists_count (h : Invariant g pending s) {p : Path} (hp : g.contains p = true) :
    ∃ a ∈ s.remaining, (a.1 == p) = true := by
  rw [Graph.contains, ← Path.contains_sort, ← h.nodes, List.contains_iff_exists_mem_beq] at hp
  obtain ⟨q, hq, same⟩ := hp
  obtain ⟨a, ha, rfl⟩ := List.mem_map.1 hq
  exact ⟨a, ha, BEq.symm same⟩

/-! ### Start -/

theorem start (hg : g.WellFormed) : Invariant g [] (start g) where
  nodes := by simp [Sweep.start, Function.comp_def]
  count := by
    intro a ha
    obtain ⟨p, -, rfl⟩ := List.mem_map.1 ha
    simp [Sweep.start]
  reached := by
    intro a ha
    obtain ⟨p, hp, rfl⟩ := List.mem_map.1 ha
    simp only [Sweep.start, List.nil_append]
    constructor
    · intro zero
      refine Path.contains_of_mem (List.mem_map.2 ⟨(p, g.inDegree p), ?_, rfl⟩)
      exact List.mem_filter.2 ⟨ha, by simpa using zero⟩
    · intro waiting
      obtain ⟨q, hq, same⟩ := List.contains_iff_exists_mem_beq.1 waiting
      obtain ⟨b, hb, rfl⟩ := List.mem_map.1 hq
      obtain ⟨hb, zero⟩ := List.mem_filter.1 hb
      obtain ⟨r, hr, rfl⟩ := List.mem_map.1 hb
      rw [hg.distinct.eq_of_beq (Path.mem_sort.1 hp) (Path.mem_sort.1 hr) same]
      simpa using zero
  distinct := by
    have sorted : (Path.sort g.nodes).map (fun p => (p, g.inDegree p).1) = Path.sort g.nodes := by
      simp
    refine List.Pairwise.sublist ?_ hg.distinct.sort
    simp only [Sweep.start, List.nil_append]
    conv_rhs => rw [← sorted, ← Function.comp_def Prod.fst, ← List.map_map]
    exact List.filter_sublist.map _
  spelled := by
    intro p hp
    simp only [Sweep.start, List.nil_append] at hp
    obtain ⟨a, ha, rfl⟩ := List.mem_map.1 hp
    obtain ⟨q, hq, rfl⟩ := List.mem_map.1 (List.mem_of_mem_filter ha)
    exact Or.inl (Path.mem_sort.1 hq)
  ordered := by simp [Sweep.start]

/-! ### Counting down a dependent -/

theorem countdown_pos (h : Invariant g (p :: pending) s) {a : Path × ℕ} (ha : a ∈ s.remaining)
    (same : (a.1 == p) = true) : 0 < a.2 := by
  have := h.count a ha
  rw [List.countP_cons_of_pos (by rw [Path.beq_comm]; exact same)] at this
  omega

section
variable {p : Path} (hg : g.WellFormed) (hp : g.Spells p) (h : Invariant g (p :: pending) s)
include hg h

theorem visit_remaining : (s.visit p).remaining =
    s.remaining.map fun a => if a.1 == p then (a.1, a.2 - 1) else a :=
  Counts.countDown_fst (h.keyed hg) p

theorem eq_of_beq {a b : Path × ℕ} (ha : a ∈ s.remaining) (hb : b ∈ s.remaining)
    (hap : (a.1 == p) = true) (hbp : (b.1 == p) = true) : a = b :=
  (h.keyed hg).eq_of_beq ha hb (BEq.trans hap (BEq.symm hbp))

/-- The dependent joins the queue when its last edge is counted down. -/
theorem visit_queue {b : Path × ℕ} (hb : b ∈ s.remaining) (same : (b.1 == p) = true) :
    (s.visit p).queue = if b.2 = 1 then s.queue ++ [p] else s.queue := by
  have freed : (s.remaining.countDown p).2 = (b.2 == 1) := by
    rw [Counts.countDown_snd (h.keyed hg), Bool.eq_iff_iff, List.any_eq_true]
    constructor
    · rintro ⟨a, ha, hit⟩
      obtain ⟨hap, one⟩ := Bool.and_eq_true_iff.1 hit
      exact h.eq_of_beq hg ha hb hap same ▸ one
    · exact fun one => ⟨b, hb, by simp [same, one]⟩
  simp only [Sweep.visit, freed, beq_iff_eq]

include hp

theorem unreached : (s.done ++ s.queue).contains p = false := by
  obtain ⟨b, hb, same⟩ := h.exists_count (hg.contains_of_spells hp)
  have positive := h.countdown_pos hb same
  rw [← Path.contains_congr same, ← Bool.not_eq_true, ← h.reached b hb]
  omega

theorem distinct_push : Path.Distinct (s.done ++ (s.queue ++ [p])) := by
  rw [← List.append_assoc]
  refine List.pairwise_append.2 ⟨h.distinct, List.pairwise_singleton _ _, ?_⟩
  intro q hq r hr
  rw [List.mem_singleton.1 hr, ← Bool.not_eq_true]
  intro equal
  have outside := h.unreached hg hp
  rw [← Path.contains_congr equal, Path.contains_of_mem hq] at outside
  exact Bool.noConfusion outside

theorem visit : Invariant g pending (s.visit p) := by
  obtain ⟨b, hb, same⟩ := h.exists_count (hg.contains_of_spells hp)
  have positive := h.countdown_pos hb same
  have queue := h.visit_queue hg hb same
  have done : (s.visit p).done = s.done := rfl
  refine ⟨?_, ?_, ?_, ?_, ?_, h.ordered⟩
  · exact (Counts.fst_countDown p s.remaining).trans h.nodes
  · intro a' ha'
    obtain ⟨a, ha, rfl⟩ := List.mem_map.1 (h.visit_remaining hg ▸ ha')
    have count := h.count a ha
    rw [List.countP_cons, Path.beq_comm] at count
    rcases hap : (a.1 == p) with _ | _ <;> simp_all
  · intro a' ha'
    obtain ⟨a, ha, rfl⟩ := List.mem_map.1 (h.visit_remaining hg ▸ ha')
    rw [done, queue]
    rcases hap : (a.1 == p) with _ | _
    · have appended : (s.queue ++ [p]).contains a.1 = s.queue.contains a.1 := by
        simp [hap]
      rw [if_neg Bool.false_ne_true, h.reached a ha, List.contains_append, List.contains_append]
      split
      · rw [appended]
      · rfl
    · obtain rfl := h.eq_of_beq hg ha hb hap same
      rw [if_pos rfl, Path.contains_congr hap]
      split
      · next one => simp [one]
      · next more =>
        rw [h.unreached hg hp]
        simp only [Bool.false_eq_true, iff_false]
        omega
  · rw [done, queue]
    split
    · exact h.distinct_push hg hp
    · exact h.distinct
  · rw [done, queue]
    split
    · intro q hq
      rw [← List.append_assoc] at hq
      rcases List.mem_append.1 hq with old | new
      · exact h.spelled q old
      · rw [List.mem_singleton.1 new]
        exact hp
    · exact h.spelled

end

theorem foldl_visit (hg : g.WellFormed) (hp : ∀ p ∈ pending, g.Spells p)
    (h : Invariant g pending s) : Invariant g [] (pending.foldl Sweep.visit s) := by
  induction pending generalizing s with
  | nil => exact h
  | cons p rest ih =>
    exact ih (fun q hq => hp q (List.mem_cons_of_mem _ hq)) (h.visit hg (hp p List.mem_cons_self))

/-! ### Taking a node -/

/-- A waiting node has all its dependencies among those taken. -/
theorem dependencies_done (hg : g.WellFormed) (h : Invariant g pending s) {p : Path}
    (hp : p ∈ s.done ++ s.queue) {d : Path} (hd : d ∈ g.dependenciesOf p) :
    s.done.contains d = true := by
  obtain ⟨a, ha, same⟩ := h.exists_count (hg.contains_of_spells (h.spelled p hp))
  have zero : a.2 = 0 :=
    (h.reached a ha).2 (Path.contains_congr same _ ▸ Path.contains_of_mem hp)
  have left : g.edgesLeft s.done a.1 = 0 := by
    have := h.count a ha
    omega
  exact Graph.edgesLeft_eq_zero left (g.dependenciesOf_congr same ▸ hd)

theorem take (hg : g.WellFormed) (h : Invariant g [] s) {current : Path} {waiting : List Path}
    (hq : s.queue = current :: waiting) :
    Invariant g (g.dependentsOf current)
      { s with done := s.done ++ [current], queue := waiting } := by
  have all : (s.done ++ [current]) ++ waiting = s.done ++ s.queue := by simp [hq]
  have new : s.done.contains current = false := by
    have apart := (List.pairwise_append.1 h.distinct).2.2
    rw [← Bool.not_eq_true, List.contains_iff_exists_mem_beq]
    rintro ⟨p, hp, same⟩
    have := apart p hp current (by simp [hq])
    rw [BEq.symm same] at this
    exact Bool.noConfusion this
  refine ⟨h.nodes, ?_, ?_, ?_, ?_, ?_⟩
  · intro a ha
    have := h.count a ha
    rw [g.edgesLeft_append new a.1, List.countP_nil] at this
    exact this
  · simpa only [all] using h.reached
  · simpa only [all] using h.distinct
  · simpa only [all] using h.spelled
  · intro before p after split d hd
    rcases List.eq_nil_or_concat after with rfl | ⟨after, last, rfl⟩
    · obtain ⟨rfl, last⟩ := List.append_inj' split rfl
      obtain rfl : current = p := by simpa using last
      exact h.dependencies_done hg (by simp [hq]) hd
    · have split : s.done ++ [current] = (before ++ p :: after) ++ [last] := by simpa using split
      exact h.ordered before p after (List.append_inj' split rfl).1 d hd

theorem step (hg : g.WellFormed) (h : Invariant g [] s) {next : Sweep}
    (hs : s.step? g = some next) : Invariant g [] next := by
  unfold Sweep.step? at hs
  split at hs
  · cases hs
  · next current waiting hq =>
    cases hs
    exact (h.take hg hq).foldl_visit hg fun p hp => Graph.spells_of_mem_dependentsOf hp

end Invariant

/-! ### The whole sweep -/

theorem step?_eq_none {s : Sweep} (h : s.step? g = none) : s.queue = [] := by
  unfold step? at h
  split at h
  · assumption
  · cases h

/-- A run keeps what its steps keep, and ends when no node waits. -/
theorem run_induction {motive : Sweep → Prop} (s : Sweep) (start : motive s)
    (step : ∀ s next, motive s → s.step? g = some next → motive next) :
    motive (s.run g) ∧ (s.run g).queue = [] := by
  induction s using Sweep.run.induct g with
  | case1 s stop =>
    rw [Sweep.run]
    split
    · exact ⟨start, step?_eq_none stop⟩
    · simp_all
  | case2 s next taken ih =>
    rw [Sweep.run]
    split
    · simp_all
    · next other found =>
      obtain rfl : next = other := Option.some.inj (taken.symm.trans found)
      exact ih (step s next start taken)

end IslDocs.Sweep

namespace IslDocs.Graph

variable {g : Graph}

/-- What the sweep has taken at its end. -/
theorem WellFormed.invariant_swept (hg : g.WellFormed) :
    Sweep.Invariant g [] ((Sweep.start g).run g) ∧ ((Sweep.start g).run g).queue = [] :=
  Sweep.run_induction _ (.start hg) fun _ _ h => h.step hg

theorem WellFormed.distinct_swept (hg : g.WellFormed) : Path.Distinct g.swept := by
  obtain ⟨h, empty⟩ := hg.invariant_swept
  simpa [empty, swept] using h.distinct

theorem WellFormed.spells_of_mem_swept (hg : g.WellFormed) {p : Path} (hp : p ∈ g.swept) :
    g.Spells p := by
  obtain ⟨h, empty⟩ := hg.invariant_swept
  exact h.spelled p (by simpa [empty, swept] using hp)

theorem WellFormed.contains_of_mem_swept (hg : g.WellFormed) {p : Path} (hp : p ∈ g.swept) :
    g.contains p = true :=
  hg.contains_of_spells (hg.spells_of_mem_swept hp)

/-- Wherever a node stands among those taken, its dependencies stand before it. -/
theorem WellFormed.swept_ordered (hg : g.WellFormed) {before after : List Path} {p d : Path}
    (split : g.swept = before ++ p :: after) (hd : d ∈ g.dependenciesOf p) :
    before.contains d = true :=
  hg.invariant_swept.1.ordered before p after split d hd

/-- A node that was not taken has a dependency that was not taken either. -/
theorem WellFormed.exists_untaken (hg : g.WellFormed) {p : Path} (hp : g.contains p = true)
    (left : g.swept.contains p = false) :
    ∃ d ∈ g.dependenciesOf p, g.swept.contains d = false := by
  obtain ⟨h, empty⟩ := hg.invariant_swept
  obtain ⟨a, ha, same⟩ := h.exists_count hp
  have positive : a.2 ≠ 0 := by
    rw [Ne, h.reached a ha, empty, List.append_nil, Path.contains_congr same]
    exact fun taken => Bool.noConfusion (left.symm.trans taken)
  have count := h.count a ha
  rw [List.countP_nil, Nat.add_zero] at count
  obtain ⟨d, hd, missing⟩ := exists_of_edgesLeft_ne_zero (count ▸ positive)
  exact ⟨d, g.dependenciesOf_congr same ▸ hd, missing⟩

end IslDocs.Graph
