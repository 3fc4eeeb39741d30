import IslDocs.Proofs.Graph.Order

/-! The levels of an order are the depths of its nodes. A level is found as one more than the highest
level of the dependencies that stand before a node; in a topological order these are all of them, so
every order leads to the same numbers, and they are the lengths of the longest chains of
dependencies. -/

namespace IslDocs.Graph

variable {g : Graph} {rank : Path → ℕ} {listed : List Path} {p q d : Path} {n : ℕ}

/-! ### Chains of dependencies -/

/-- Each path of the chain is a dependency of the one before it, and the first is one of `p`. -/
def IsChainFrom (g : Graph) (p : Path) (chain : List Path) : Prop :=
  (p :: chain).IsChain fun p d => d ∈ g.dependenciesOf p

/-- The longest chains of dependencies that start at `p` have `n` edges. -/
structure HasDepth (g : Graph) (p : Path) (n : ℕ) : Prop where
  reached : ∃ chain, g.IsChainFrom p chain ∧ chain.length = n
  longest : ∀ chain, g.IsChainFrom p chain → chain.length ≤ n

/-! ### Ranks -/

/-- Every path has its rank above the highest one of its dependencies, and rank zero without any. -/
def Ranks (g : Graph) (rank : Path → ℕ) : Prop :=
  ∀ p, rank p = (((g.dependenciesOf p).map rank).max?.map (· + 1)).getD 0

theorem lt_height_iff {ns : List ℕ} : n < (ns.max?.map (· + 1)).getD 0 ↔ ∃ m ∈ ns, n ≤ m := by
  cases h : ns.max? with
  | none => simp [List.max?_eq_none_iff.1 h]
  | some top =>
    obtain ⟨found, highest⟩ := List.max?_eq_some_iff.1 h
    rw [Option.map_some, Option.getD_some, Nat.lt_succ_iff]
    exact ⟨fun le => ⟨top, found, le⟩, fun ⟨m, hm, le⟩ => le.trans (highest m hm)⟩

namespace Ranks

theorem congr (h : g.Ranks rank) (same : (p == q) = true) : rank p = rank q := by
  rw [h p, h q, g.dependenciesOf_congr same]

theorem lt_iff (h : g.Ranks rank) : n < rank p ↔ ∃ d ∈ g.dependenciesOf p, n ≤ rank d := by
  rw [h p, lt_height_iff]
  simp

theorem lt_of_mem (h : g.Ranks rank) (hd : d ∈ g.dependenciesOf p) : rank d < rank p :=
  h.lt_iff.2 ⟨d, hd, le_rfl⟩

theorem exists_of_succ (h : g.Ranks rank) (hp : rank p = n + 1) :
    ∃ d ∈ g.dependenciesOf p, rank d = n := by
  obtain ⟨d, hd, above⟩ := h.lt_iff.1 (show n < rank p by omega)
  have below := h.lt_of_mem hd
  exact ⟨d, hd, by omega⟩

theorem eq_zero (h : g.Ranks rank) (none : g.dependenciesOf p = []) : rank p = 0 := by
  rw [h p, none]
  rfl

/-- Going down from rank to rank makes a chain of full length, and no chain can do it in more. -/
theorem hasDepth (h : g.Ranks rank) (p : Path) : g.HasDepth p (rank p) := by
  constructor
  · generalize hn : rank p = n
    induction n generalizing p with
    | zero => exact ⟨[], List.isChain_singleton p, rfl⟩
    | succ n ih =>
      obtain ⟨d, hd, below⟩ := h.exists_of_succ hn
      obtain ⟨chain, isChain, length⟩ := ih d below
      exact ⟨d :: chain, isChain.cons_cons hd, by rw [List.length_cons, length]⟩
  · intro chain isChain
    induction chain generalizing p with
    | nil => exact Nat.zero_le _
    | cons d rest ih =>
      obtain ⟨hd, isChain⟩ := List.isChain_cons_cons.1 isChain
      have := ih d isChain
      have := h.lt_of_mem hd
      rw [List.length_cons]
      omega

end Ranks

/-- Along a topological order every edge rises, so ranks can be given by recursion. -/
theorem IsTopological.exists_ranks (h : g.IsTopological listed) : ∃ rank, g.Ranks rank := by
  have rises : ∀ {d p}, d ∈ g.dependenciesOf p →
      listed.findIdx (· == d) < listed.findIdx (· == p) := fun hd =>
    (precedes_of_mem_dependenciesOf hd).findIdx_lt h
  have founded : WellFounded fun d p => d ∈ g.dependenciesOf p :=
    Subrelation.wf rises (measure fun p => listed.findIdx (· == p)).wf
  let rank := founded.fix fun p below =>
    (((g.dependenciesOf p).attach.map fun d => below d.1 d.2).max?.map (· + 1)).getD 0
  refine ⟨rank, fun p => ?_⟩
  calc rank p
    _ = (((g.dependenciesOf p).attach.map fun d => rank d.1).max?.map (· + 1)).getD 0 :=
      founded.fix_eq _ p
    _ = (((g.dependenciesOf p).map rank).max?.map (· + 1)).getD 0 := by rw [List.attach_map_val]

/-! ### The levels of an order -/

theorem lookup_map_rank (h : g.Ranks rank) {placed : List Path} (found : placed.contains p = true) :
    (placed.map fun q => (q, rank q)).lookup p = some (rank p) := by
  induction placed with
  | nil => simp at found
  | cons q rest ih =>
    rw [List.map_cons, List.lookup_cons]
    cases same : p == q with
    | true => rw [h.congr same]
    | false =>
      rw [List.contains_cons, same, Bool.false_or] at found
      exact ih found

/-- With all dependencies placed at their ranks, a node goes to its own. -/
theorem levelAbove_eq (h : g.Ranks rank) {placed : List Path}
    (all : ∀ d ∈ g.dependenciesOf p, placed.contains d = true) :
    levelAbove (placed.map fun q => (q, rank q)) (g.dependenciesOf p) = rank p := by
  have levels : (g.dependenciesOf p).filterMap
      (fun d => (placed.map fun q => (q, rank q)).lookup d) = (g.dependenciesOf p).map rank := by
    rw [List.filterMap_congr fun d hd => lookup_map_rank h (all d hd)]
    exact congrFun List.filterMap_eq_map _
  rw [levelAbove, levels, ← h p]

theorem annotateFrom_eq (h : g.Ranks rank) (placed : List Path) {rest : List Path}
    (ordered : ∀ before p after, rest = before ++ p :: after → ∀ d ∈ g.dependenciesOf p,
      placed.contains d = true ∨ before.contains d = true) :
    g.annotateFrom (placed.map fun q => (q, rank q)) rest = rest.map fun q => (q, rank q) := by
  induction rest generalizing placed with
  | nil => rfl
  | cons p rest ih =>
    have level := levelAbove_eq h fun d hd => (ordered [] p rest rfl d hd).resolve_right (by simp)
    have later := ih (p :: placed) fun before q after split d hd => by
      rcases ordered (p :: before) q after (by rw [split]; rfl) d hd with old | new
      · exact Or.inl (by rw [List.contains_cons, old, Bool.or_true])
      · rw [List.contains_cons, Bool.or_eq_true_iff] at new
        rcases new with own | earlier
        · exact Or.inl (by rw [List.contains_cons, own, Bool.true_or])
        · exact Or.inr earlier
    rw [annotateFrom, level, List.map_cons]
    exact congrArg _ later

theorem IsTopological.annotate_eq (h : g.IsTopological listed) (ranks : g.Ranks rank) :
    g.annotate listed = listed.map fun p => (p, rank p) :=
  annotateFrom_eq ranks [] fun _ _ _ split _ hd => Or.inr (h.contains_before split hd)

/-- The levels of a list of nodes by rank, from rank zero up to the highest one. -/
def layers (rank : Path → ℕ) (listed : List Path) : List (List Path) :=
  (List.range (((listed.map rank).max?.map (· + 1)).getD 0)).map fun n =>
    listed.filter (rank · == n)

theorem IsTopological.levels_eq (h : g.IsTopological listed) (ranks : g.Ranks rank) :
    g.levels listed = layers rank listed := by
  rw [levels, h.annotate_eq ranks, groupLevels, layers]
  simp [List.filter_map, Function.comp_def]

theorem lt_length_layers : n < (layers rank listed).length ↔ ∃ p ∈ listed, n ≤ rank p := by
  rw [layers, List.length_map, List.length_range, lt_height_iff]
  simp

theorem getElem?_layers {level : List Path} : (layers rank listed)[n]? = some level ↔
    (∃ p ∈ listed, n ≤ rank p) ∧ listed.filter (rank · == n) = level := by
  rw [← lt_length_layers, List.getElem?_eq_some_iff]
  simp [layers]

/-- The layer of a rank has exactly the nodes of that rank. -/
theorem IsTopological.contains_layer (h : g.IsTopological listed) (ranks : g.Ranks rank)
    (n : ℕ) (p : Path) :
    (listed.filter (rank · == n)).contains p = (g.contains p && rank p == n) := by
  rw [← h.contains_eq p, Bool.eq_iff_iff, Bool.and_eq_true_iff, List.contains_iff_exists_mem_beq,
    List.contains_iff_exists_mem_beq]
  constructor
  · rintro ⟨q, hq, same⟩
    obtain ⟨hq, level⟩ := List.mem_filter.1 hq
    exact ⟨⟨q, hq, same⟩, by rwa [ranks.congr same]⟩
  · rintro ⟨⟨q, hq, same⟩, level⟩
    exact ⟨q, List.mem_filter.2 ⟨hq, by rwa [← ranks.congr same]⟩, same⟩

theorem IsTopological.exists_mem_iff (h : g.IsTopological listed) (ranks : g.Ranks rank) :
    (∃ p ∈ listed, n ≤ rank p) ↔ ∃ p, g.contains p = true ∧ n ≤ rank p := by
  constructor
  · rintro ⟨p, hp, le⟩
    exact ⟨p, h.known p hp, le⟩
  · rintro ⟨p, hp, le⟩
    obtain ⟨q, hq, same⟩ := List.contains_iff_exists_mem_beq.1 ((h.contains_eq p).trans hp)
    exact ⟨q, hq, by rwa [← ranks.congr same]⟩

theorem IsTopological.contains_getElem?_layers (h : g.IsTopological listed) (ranks : g.Ranks rank)
    (n : ℕ) (p : Path) :
    ((layers rank listed)[n]?.getD []).contains p = (g.contains p && rank p == n) := by
  cases found : (layers rank listed)[n]? with
  | some level =>
    obtain ⟨-, rfl⟩ := getElem?_layers.1 found
    exact h.contains_layer ranks n p
  | none =>
    have high : ¬ ∃ p, g.contains p = true ∧ n ≤ rank p := by
      rw [← h.exists_mem_iff ranks, ← lt_length_layers, Nat.not_lt]
      exact List.getElem?_eq_none_iff.1 found
    refine (Bool.eq_false_iff.2 fun both => high ⟨p, ?_⟩).symm
    rw [Bool.and_eq_true_iff, beq_iff_eq] at both
    exact both.imp_right (·.ge)

/-- Below a node there are nodes of every smaller rank. -/
theorem Ranks.exists_of_le (ranks : g.Ranks rank) (hg : g.WellFormed) (hp : g.contains p = true)
    (le : n ≤ rank p) : ∃ q, g.contains q = true ∧ rank q = n := by
  obtain ⟨m, above⟩ := Nat.exists_eq_add_of_le le
  induction m generalizing p with
  | zero => exact ⟨p, hp, above⟩
  | succ m ih =>
    obtain ⟨d, hd, below⟩ := ranks.exists_of_succ above
    exact ih (hg.contains_of_mem_dependenciesOf hd) (below ▸ Nat.le_add_right n m) below

/-! ### What the levels are -/

/-- Every node is in the level of its depth and in no other one; no level is empty or has both ends
of an edge, and each one but the first rests on the one below it. -/
structure Stratified (g : Graph) (levels : List (List Path)) : Prop where
  placed : ∀ p, g.contains p = true → ∃ n, g.HasDepth p n ∧ n < levels.length ∧
    ∀ (k : ℕ) level, levels[k]? = some level → level.countP (· == p) = if k = n then 1 else 0
  known : ∀ level ∈ levels, ∀ p ∈ level, g.contains p = true
  nonempty : ∀ level ∈ levels, level ≠ []
  apart : ∀ level ∈ levels, ∀ e ∈ g.edges,
    level.contains e.dependency = true → level.contains e.dependent = false
  rests : ∀ (k : ℕ) below above, levels[k]? = some below → levels[k + 1]? = some above →
    ∀ p ∈ above, ∃ d ∈ g.dependenciesOf p, below.contains d = true

section
variable (hg : g.WellFormed) (h : g.IsTopological listed) (ranks : g.Ranks rank)
include h ranks

theorem IsTopological.countP_layer (hp : g.contains p = true) (n : ℕ) :
    (listed.filter (rank · == n)).countP (· == p) = if n = rank p then 1 else 0 := by
  rw [List.countP_filter]
  split
  · next same =>
    rw [← h.once p hp]
    refine List.countP_congr fun q _ => ?_
    simp only [Bool.and_eq_true, beq_iff_eq, and_iff_left_iff_imp]
    intro equal
    rw [ranks.congr equal, same]
  · next other =>
    refine List.countP_eq_zero.2 fun q _ both => other ?_
    obtain ⟨equal, level⟩ := Bool.and_eq_true_iff.1 both
    rw [← ranks.congr equal]
    exact (beq_iff_eq.1 level).symm

include hg

theorem IsTopological.stratified_layers : g.Stratified (layers rank listed) where
  placed := by
    intro p hp
    refine ⟨rank p, ranks.hasDepth p, ?_, ?_⟩
    · exact lt_length_layers.2 ((h.exists_mem_iff ranks).2 ⟨p, hp, le_rfl⟩)
    · intro k level found
      rw [← (getElem?_layers.1 found).2]
      exact h.countP_layer ranks hp k
  known := by
    intro level hl p hp
    obtain ⟨k, found⟩ := List.mem_iff_getElem?.1 hl
    rw [← (getElem?_layers.1 found).2] at hp
    exact h.known p (List.mem_of_mem_filter hp)
  nonempty := by
    intro level hl
    obtain ⟨k, found⟩ := List.mem_iff_getElem?.1 hl
    obtain ⟨⟨p, hp, le⟩, rfl⟩ := getElem?_layers.1 found
    obtain ⟨q, hq, rfl⟩ := ranks.exists_of_le hg (h.known p hp) le
    have inside := h.contains_layer ranks (rank q) q
    rw [hq, beq_self_eq_true, Bool.and_self] at inside
    rintro empty
    rw [empty] at inside
    cases inside
  apart := by
    intro level hl e he dependency
    obtain ⟨k, found⟩ := List.mem_iff_getElem?.1 hl
    obtain ⟨-, rfl⟩ := getElem?_layers.1 found
    rw [h.contains_layer ranks, Bool.and_eq_true_iff, beq_iff_eq] at dependency
    rw [h.contains_layer ranks, Bool.and_eq_false_iff, beq_eq_false_iff_ne]
    have edge : e.dependency ∈ g.dependenciesOf e.dependent :=
      mem_dependenciesOf.2 ⟨e, he, BEq.rfl, rfl⟩
    have := ranks.lt_of_mem edge
    exact Or.inr (by omega)
  rests := by
    intro k below above hbelow habove p hp
    obtain ⟨-, rfl⟩ := getElem?_layers.1 hbelow
    obtain ⟨-, rfl⟩ := getElem?_layers.1 habove
    obtain ⟨-, level⟩ := List.mem_filter.1 hp
    obtain ⟨d, hd, below⟩ := ranks.exists_of_succ (beq_iff_eq.1 level)
    refine ⟨d, hd, ?_⟩
    rw [h.contains_layer ranks, hg.contains_of_mem_dependenciesOf hd, below, beq_self_eq_true]
    rfl

end

/-- Whatever topological order they are made from, the levels are those of the longest chains of
dependencies: each has exactly the nodes of its depth. -/
theorem levels_stratified (root : Path) (ops : List Operation) (listed : List Path)
    (h : (ofOperations root ops).IsTopological listed) :
    let g := ofOperations root ops
    g.Stratified (g.levels listed) ∧ ∀ other, g.IsTopological other →
      (g.levels other).length = (g.levels listed).length ∧
      ∀ (k : ℕ) p, ((g.levels other)[k]?.getD []).contains p =
        ((g.levels listed)[k]?.getD []).contains p := by
  intro g
  have hg : g.WellFormed := wellFormed_ofOperations root ops
  obtain ⟨rank, ranks⟩ := h.exists_ranks
  rw [h.levels_eq ranks]
  refine ⟨h.stratified_layers hg ranks, fun other h' => ?_⟩
  rw [h'.levels_eq ranks]
  refine ⟨eq_of_forall_lt_iff fun n => ?_, fun k p => ?_⟩
  · rw [lt_length_layers, lt_length_layers, h.exists_mem_iff ranks, h'.exists_mem_iff ranks]
  · rw [h.contains_getElem?_layers ranks, h'.contains_getElem?_layers ranks]

/-- Two documents between a first and a last one, and a fifth that stands alone. -/
def diamond : List Operation :=
  [.addNode ⟨"/p/bottom".toList⟩, .addNode ⟨"/p/left".toList⟩, .addNode ⟨"/p/lone".toList⟩,
   .addNode ⟨"/p/right".toList⟩, .addNode ⟨"/p/top".toList⟩,
   .addEdge ⟨"/p/top".toList⟩ ⟨"/p/left".toList⟩, .addEdge ⟨"/p/top".toList⟩ ⟨"/p/right".toList⟩,
   .addEdge ⟨"/p/left".toList⟩ ⟨"/p/bottom".toList⟩,
   .addEdge ⟨"/p/right".toList⟩ ⟨"/p/bottom".toList⟩]

/-- An order that comes back to lower levels. -/
def windingOrder : List Path :=
  [⟨"/p/top".toList⟩, ⟨"/p/right".toList⟩, ⟨"/p/left".toList⟩, ⟨"/p/bottom".toList⟩,
   ⟨"/p/lone".toList⟩]

theorem diamond_stratified :
    (ofOperations ⟨"/p".toList⟩ diamond).IsTopological windingOrder ∧
      (ofOperations ⟨"/p".toList⟩ diamond).Stratified
        [[⟨"/p/top".toList⟩, ⟨"/p/lone".toList⟩], [⟨"/p/right".toList⟩, ⟨"/p/left".toList⟩],
         [⟨"/p/bottom".toList⟩]] := by
  have topological : (ofOperations ⟨"/p".toList⟩ diamond).IsTopological windingOrder := by decide
  have levels : (ofOperations ⟨"/p".toList⟩ diamond).levels windingOrder =
      [[⟨"/p/top".toList⟩, ⟨"/p/lone".toList⟩], [⟨"/p/right".toList⟩, ⟨"/p/left".toList⟩],
       [⟨"/p/bottom".toList⟩]] :=
    List.map_injective_iff.2 Path.map_text_injective (by decide)
  refine ⟨topological, ?_⟩
  rw [← levels]
  exact (levels_stratified ⟨"/p".toList⟩ diamond windingOrder topological).1

end IslDocs.Graph
