import IslDocs.Graph.Order
import IslDocs.Proofs.Graph.Invariant
import Mathlib.Data.List.Chain

/-! The loop that stands for a failed ordering. Every node left over by the sweep has a dependency
that is left over too, so the walk along the first of them never stops at a dead end and closes a
loop; all that is on the loop lies on a cycle of recorded edges. -/

namespace IslDocs.Graph

open Relation

variable {g : Graph}

/-- A cycle written out along dependencies, its first node repeated at the end. -/
structure IsLoop (g : Graph) (loop : List Path) : Prop where
  two_le : 2 ≤ loop.length
  closed : (loop.head? == loop.getLast?) = true
  distinct : Path.Distinct loop.dropLast
  linked : loop.IsChain fun p d => d ∈ g.dependenciesOf p

/-! ### Closing the walk -/

theorem exists_dropWhile {walk : List Path} {node : Path} (h : walk.contains node = true) :
    ∃ first rest, walk.dropWhile (fun p => !(p == node)) = first :: rest ∧
      (first == node) = true := by
  induction walk with
  | nil => simp at h
  | cons p rest ih =>
    rcases same : (p == node) with _ | _
    · rw [List.contains_cons, Path.beq_comm, same, Bool.false_or] at h
      simpa [List.dropWhile_cons, same] using ih h
    · exact ⟨p, rest, by simp [same], same⟩

theorem isLoop_closeLoop {walk : List Path} {node : Path} (visited : walk.contains node = true)
    (distinct : Path.Distinct walk)
    (linked : (walk ++ [node]).IsChain fun p d => d ∈ g.dependenciesOf p) :
    g.IsLoop (closeLoop walk node) := by
  obtain ⟨first, rest, cut, same⟩ := exists_dropWhile visited
  have suffix := List.dropWhile_suffix (fun p => !(p == node)) (l := walk)
  obtain ⟨before, split⟩ := suffix
  rw [cut] at split
  have loop : closeLoop walk node = first :: rest ++ [node] := by rw [closeLoop, cut]
  rw [loop]
  refine ⟨by simp, ?_, ?_, ?_⟩
  · rw [List.getLast?_concat]
    exact same
  · rw [List.dropLast_concat]
    exact distinct.sublist (split ▸ List.sublist_append_right before _)
  · rw [← split, List.append_assoc] at linked
    exact linked.right_of_append

@[simp] theorem contains_without (ps : List Path) (p q : Path) :
    (without ps p).contains q = (ps.contains q && !(q == p)) := by
  rw [Bool.eq_iff_iff, Bool.and_eq_true_iff, List.contains_iff_exists_mem_beq,
    List.contains_iff_exists_mem_beq]
  constructor
  · rintro ⟨r, hr, same⟩
    obtain ⟨hr, other⟩ := List.mem_filter.1 hr
    exact ⟨⟨r, hr, same⟩, by rwa [Path.beq_comm, BEq.congr_right same]⟩
  · rintro ⟨⟨r, hr, same⟩, other⟩
    exact ⟨r, List.mem_filter.2 ⟨hr, by rwa [← BEq.congr_right same, Path.beq_comm]⟩, same⟩

/-- `unvisited` and `walk` share the unordered nodes between them. -/
theorem isLoop_chase {unordered : List Path}
    (left : ∀ p, unordered.contains p = true →
      ∃ d ∈ g.dependenciesOf p, unordered.contains d = true)
    (unvisited walk : List Path) (node : Path) (inside : unordered.contains node = true)
    (cover : ∀ p, unordered.contains p = true →
      unvisited.contains p = true ∨ walk.contains p = true)
    (apart : ∀ p, unvisited.contains p = true → walk.contains p = false)
    (distinct : Path.Distinct walk)
    (linked : (walk ++ [node]).IsChain fun p d => d ∈ g.dependenciesOf p) :
    g.IsLoop (g.chase unordered unvisited walk node) := by
  induction unvisited, walk, node using Graph.chase.induct g unordered with
  | case1 unvisited walk node _open next found ih =>
    have next_inside := List.find?_some found
    have next_mem := List.mem_of_find?_eq_some found
    rw [Graph.chase, dif_pos _open, found]
    refine ih next_inside ?_ ?_ ?_ ?_
    · intro p hp
      rw [contains_without, List.contains_append, List.contains_cons]
      rcases cover p hp with free | visited
      · rcases same : (p == node) with _ | _ <;> simp [free]
      · simp [visited]
    · intro p free
      rw [contains_without, Bool.and_eq_true_iff, Bool.not_eq_true'] at free
      simp [apart p free.1, free.2]
    · refine List.pairwise_append.2 ⟨distinct, List.pairwise_singleton _ _, ?_⟩
      intro p hp q hq
      rw [List.mem_singleton.1 hq, ← Bool.not_eq_true]
      intro same
      have := apart node _open
      rw [← Path.contains_congr same, Path.contains_of_mem hp] at this
      exact Bool.noConfusion this
    · refine linked.append (List.isChain_singleton _) ?_
      intro p hp d hd
      rw [List.getLast?_concat, Option.mem_def, Option.some.injEq] at hp
      rw [List.head?_cons, Option.mem_def, Option.some.injEq] at hd
      exact hp ▸ hd ▸ next_mem
  | case2 unvisited walk node _open found =>
    obtain ⟨d, hd, hin⟩ := left node inside
    have := List.find?_eq_none.1 found d hd
    exact absurd hin this
  | case3 unvisited walk node _closed =>
    rw [Graph.chase, dif_neg _closed]
    exact isLoop_closeLoop ((cover node inside).resolve_left _closed) distinct linked

/-- The walk from the first of a non-empty list of nodes, each of which depends on another one. -/
theorem isLoop_cycle {unordered : List Path} (nonempty : unordered ≠ [])
    (left : ∀ p, unordered.contains p = true →
      ∃ d ∈ g.dependenciesOf p, unordered.contains d = true) :
    g.IsLoop (g.cycle unordered) := by
  cases unordered with
  | nil => exact absurd rfl nonempty
  | cons first rest =>
    exact isLoop_chase left _ [] first (Path.contains_of_mem List.mem_cons_self)
      (fun p hp => Or.inl hp) (fun p _ => rfl) List.Pairwise.nil (List.isChain_singleton _)

/-! ### Cycles of edges -/

/-- No node can be reached from itself along recorded edges. -/
def Acyclic (g : Graph) : Prop := ∀ p, ¬ TransGen g.Precedes p p

theorem transGen_congr {p p' q q' : Path} (h : TransGen g.Precedes p q) (hp : (p == p') = true)
    (hq : (q == q') = true) : TransGen g.Precedes p' q' := by
  induction h generalizing q' with
  | single edge => exact .single (edge.congr hp hq)
  | tail _ edge ih => exact (ih BEq.rfl).tail (edge.congr BEq.rfl hq)

theorem IsLoop.transGen {loop : List Path} (h : g.IsLoop loop) {p : Path} (hp : p ∈ loop) :
    TransGen g.Precedes p p := by
  have linked : loop.Pairwise fun p d => TransGen g.Precedes d p := by
    have : IsTrans Path fun p d => TransGen g.Precedes d p := ⟨fun _ _ _ h₁ h₂ => h₂.trans h₁⟩
    exact List.isChain_iff_pairwise.1
      (h.linked.imp fun _ _ hd => .single (precedes_of_mem_dependenciesOf hd))
  obtain ⟨first, rest, rfl⟩ : ∃ first rest, loop = first :: rest :=
    List.exists_cons_of_length_pos (by have := h.two_le; omega)
  obtain ⟨inner, last, rfl⟩ : ∃ inner last, rest = inner ++ [last] :=
    (List.eq_nil_or_concat' rest).resolve_left (by rintro rfl; simpa using h.two_le)
  have closed : (first == last) = true := by
    have := h.closed
    rwa [← List.cons_append, List.getLast?_concat] at this
  obtain ⟨from_first, linked⟩ := List.pairwise_cons.1 linked
  have to_last := (List.pairwise_append.1 linked).2.2
  rcases List.mem_cons.1 hp with rfl | hp
  · exact transGen_congr (from_first last (by simp)) (BEq.symm closed) BEq.rfl
  · have forth := from_first p hp
    rcases List.mem_append.1 hp with hp | hp
    · exact forth.trans (transGen_congr (to_last p hp last (by simp)) (BEq.symm closed) BEq.rfl)
    · exact transGen_congr forth BEq.rfl (List.mem_singleton.1 hp ▸ closed)

theorem WellFormed.contains_of_transGen (hg : g.WellFormed) {p q : Path}
    (h : TransGen g.Precedes p q) : g.contains q = true := by
  obtain ⟨r, e, he, -, same⟩ : ∃ r, g.Precedes r q := by
    cases h with
    | single edge => exact ⟨_, edge⟩
    | tail _ edge => exact ⟨_, edge⟩
  exact g.contains_congr same ▸ hg.dependent e he

/-! ### The nodes left over -/

@[simp] theorem contains_unordered (g : Graph) (ordered : List Path) (p : Path) :
    (g.unordered ordered).contains p = (g.contains p && !ordered.contains p) := by
  have sorted : g.contains p = (Path.sort g.nodes).contains p := Path.contains_sort.symm
  rw [Bool.eq_iff_iff, Bool.and_eq_true_iff, sorted, List.contains_iff_exists_mem_beq,
    List.contains_iff_exists_mem_beq]
  constructor
  · rintro ⟨q, hq, same⟩
    obtain ⟨hq, missing⟩ := List.mem_filter.1 hq
    exact ⟨⟨q, hq, same⟩, by rwa [Path.contains_congr same]⟩
  · rintro ⟨⟨q, hq, same⟩, missing⟩
    exact ⟨q, List.mem_filter.2 ⟨hq, by rwa [← Path.contains_congr same]⟩, same⟩

theorem WellFormed.unordered_left (hg : g.WellFormed) (p : Path)
    (hp : (g.unordered g.swept).contains p = true) :
    ∃ d ∈ g.dependenciesOf p, (g.unordered g.swept).contains d = true := by
  rw [contains_unordered, Bool.and_eq_true_iff, Bool.not_eq_true'] at hp
  obtain ⟨d, hd, missing⟩ := hg.exists_untaken hp.1 hp.2
  refine ⟨d, hd, ?_⟩
  simp [hg.contains_of_mem_dependenciesOf hd, missing]

theorem WellFormed.unordered_ne_nil (hg : g.WellFormed) (short : g.swept.length < g.nodes.length) :
    g.unordered g.swept ≠ [] := by
  intro none
  have all : ∀ p ∈ g.nodes, g.swept.contains p = true := by
    intro p hp
    have := g.contains_unordered g.swept p
    rw [none, contains, Path.contains_of_mem hp] at this
    simpa using this
  exact Nat.not_lt.2 (hg.distinct.length_le all) short

theorem short_of_order {chain : List Path} (h : g.order = .error chain) :
    g.swept.length < g.nodes.length := by
  unfold order at h
  split at h
  · assumption
  · cases h

/-- The chain of a failed ordering is a loop, told relative to the root. -/
theorem WellFormed.isLoop_of_order (hg : g.WellFormed) {chain : List Path}
    (h : g.order = .error chain) :
    g.IsLoop (g.cycle (g.unordered g.swept)) ∧
      chain = (g.cycle (g.unordered g.swept)).map g.relative := by
  have short := short_of_order h
  rw [order, if_pos short] at h
  cases h
  exact ⟨isLoop_cycle (hg.unordered_ne_nil short) hg.unordered_left, rfl⟩

/-- A failed ordering names a cycle: its chain is a loop of at least one edge whose nodes are
distinct up to its end and linked by references. Every node left over has a dependency that is left
over, so the walk never runs out; and what is named lies on a cycle itself. -/
theorem order_error_names_loop (root : Path) (ops : List Operation) (chain : List Path)
    (h : (ofOperations root ops).order = .error chain) :
    let g := ofOperations root ops
    (∃ loop, chain = loop.map g.relative ∧ g.IsLoop loop ∧
      ∀ p ∈ loop, g.contains p = true ∧ TransGen g.Precedes p p) ∧
    g.unordered g.swept ≠ [] ∧
    ∀ p, (g.unordered g.swept).contains p = true →
      ((g.dependenciesOf p).find? (g.unordered g.swept).contains).isSome = true := by
  intro g
  have hg : g.WellFormed := wellFormed_ofOperations root ops
  obtain ⟨loop, rfl⟩ := hg.isLoop_of_order h
  refine ⟨⟨_, rfl, loop, fun p hp => ?_⟩, ?_, fun p hp => ?_⟩
  · have cycle := loop.transGen hp
    exact ⟨hg.contains_of_transGen cycle, cycle⟩
  · exact hg.unordered_ne_nil (short_of_order h)
  · obtain ⟨d, hd, left⟩ := hg.unordered_left p hp
    exact List.find?_isSome.2 ⟨d, hd, left⟩

/-- Two documents that refer to each other, one that they need and one that needs them. -/
def entangled : List Operation :=
  [.addNode ⟨"/p/r".toList⟩, .addNode ⟨"/p/x".toList⟩, .addNode ⟨"/p/y".toList⟩,
   .addNode ⟨"/p/z".toList⟩, .addEdge ⟨"/p/r".toList⟩ ⟨"/p/x".toList⟩,
   .addEdge ⟨"/p/y".toList⟩ ⟨"/p/x".toList⟩, .addEdge ⟨"/p/x".toList⟩ ⟨"/p/y".toList⟩,
   .addEdge ⟨"/p/x".toList⟩ ⟨"/p/z".toList⟩]

theorem entangled_names_loop :
    ∃ loop, [⟨"x".toList⟩, ⟨"y".toList⟩, ⟨"x".toList⟩] =
        loop.map (ofOperations ⟨"/p".toList⟩ entangled).relative ∧
      (ofOperations ⟨"/p".toList⟩ entangled).IsLoop loop := by
  have sorted : Path.sort (ofOperations ⟨"/p".toList⟩ entangled).nodes =
      (ofOperations ⟨"/p".toList⟩ entangled).nodes := Path.sort_of_pairwise (by decide)
  have failed : (ofOperations ⟨"/p".toList⟩ entangled).order =
      .error [⟨"x".toList⟩, ⟨"y".toList⟩, ⟨"x".toList⟩] := by
    rw [order, unordered, swept, Sweep.start, sorted, if_pos (by decide +kernel)]
    exact congrArg Except.error (Path.map_text_injective (by decide +kernel))
  obtain ⟨⟨loop, chain, isLoop, -⟩, -, -⟩ :=
    order_error_names_loop ⟨"/p".toList⟩ entangled _ failed
  exact ⟨loop, chain, isLoop⟩

end IslDocs.Graph
