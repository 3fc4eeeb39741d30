import IslDocs.Proofs.Graph.Adjacency
import IslDocs.Proofs.Graph.Invariant

/-! The counters of the sweep are exact. At every stage of it, also between two dependents of the
node being taken, the number of a node is that of its edges from nodes not yet taken and of the
countdowns still to come. So no number is counted down from zero, no node is queued twice, and each
step takes another node. -/

namespace IslDocs

namespace Sweep

variable {g : Graph} {taken : ℕ} {entered pending : List Path} {s : Sweep}

/-- What visiting a dependent adds to the queue. -/
def freed (s : Sweep) (p : Path) : List Path := if (s.remaining.countDown p).2 then [p] else []

/-- What a sweep comes through: how many nodes it has taken, all that has ever been queued, the
dependents still to be counted down for the node taken last, and its state. -/
inductive Stage (g : Graph) : ℕ → List Path → List Path → Sweep → Prop where
  | start : Stage g 0 (start g).queue [] (start g)
  | take {taken : ℕ} {entered : List Path} {s : Sweep} {current : Path} {waiting : List Path} :
    Stage g taken entered [] s → s.queue = current :: waiting →
      Stage g (taken + 1) entered (g.dependentsOf current)
        { s with done := s.done ++ [current], queue := waiting }
  | visit {taken : ℕ} {entered pending : List Path} {s : Sweep} {p : Path} :
    Stage g taken entered (p :: pending) s →
      Stage g taken (entered ++ s.freed p) pending (s.visit p)

theorem queue_visit (s : Sweep) (p : Path) : (s.visit p).queue = s.queue ++ s.freed p := by
  show (if (s.remaining.countDown p).2 then s.queue ++ [p] else s.queue) = _
  rw [freed]
  split <;> simp

/-! ### Every stage -/

/-- The counters at a stage. -/
structure Exact (g : Graph) (taken : ℕ) (entered pending : List Path) (s : Sweep) : Prop where
  keys : s.remaining.map Prod.fst = Path.sort g.nodes
  count : ∀ a ∈ s.remaining, a.2 = g.edgesLeft s.done a.1 + pending.countP (· == a.1)
  positive : ∀ p ∈ pending, (∃ a ∈ s.remaining, (a.1 == p) = true) ∧
    ∀ a ∈ s.remaining, (a.1 == p) = true → 0 < a.2
  /-- The countdowns to come free a node when nothing is left of its number. -/
  freed : ∀ p ∈ pending, (s.remaining.countDown p).2 =
    (s.remaining.countDown p).1.any fun a => a.1 == p && a.2 == 0
  entered_eq : entered = s.done ++ s.queue
  once : Path.Distinct entered
  taken_eq : taken = s.done.length
  taken_le : taken ≤ g.nodes.length

theorem Stage.spells (h : Stage g taken entered pending s) : ∀ p ∈ pending, g.Spells p := by
  induction h with
  | start => simp
  | take => exact fun p hp => Graph.spells_of_mem_dependentsOf hp
  | visit _ ih => exact fun p hp => ih p (List.mem_cons_of_mem _ hp)

theorem Stage.invariant (hg : g.WellFormed) (h : Stage g taken entered pending s) :
    Invariant g pending s := by
  induction h with
  | start => exact .start hg
  | take _ queue ih => exact ih.take hg queue
  | visit stage ih => exact ih.visit hg (stage.spells _ List.mem_cons_self)

theorem Stage.entered_eq (h : Stage g taken entered pending s) : entered = s.done ++ s.queue := by
  induction h with
  | start => rfl
  | take _ queue ih => simp [ih, queue]
  | visit _ ih => rw [ih, queue_visit, List.append_assoc]; rfl

theorem Stage.taken_eq (h : Stage g taken entered pending s) : taken = s.done.length := by
  induction h with
  | start => rfl
  | take _ _ ih => simp [ih]
  | visit _ ih => exact ih

theorem Stage.exact (hg : g.WellFormed) (h : Stage g taken entered pending s) :
    Exact g taken entered pending s := by
  have invariant := h.invariant hg
  have entered := h.entered_eq
  have positive : ∀ p ∈ pending, ∀ a ∈ s.remaining, (a.1 == p) = true → 0 < a.2 := by
    intro p hp a ha same
    have := invariant.count a ha
    have : 0 < pending.countP (· == a.1) := List.countP_pos_iff.2 ⟨p, hp, BEq.symm same⟩
    omega
  refine ⟨invariant.nodes, invariant.count, fun p hp => ⟨?_, positive p hp⟩,
    fun p hp => Counts.countDown_snd_eq (invariant.keyed hg) (positive p hp), entered,
    entered ▸ invariant.distinct, h.taken_eq, ?_⟩
  · exact invariant.exists_count (hg.contains_of_spells (h.spells p hp))
  · rw [h.taken_eq]
    have distinct : Path.Distinct s.done := (List.pairwise_append.1 invariant.distinct).1
    exact distinct.length_le fun p hp =>
      hg.contains_of_spells (invariant.spelled p (List.mem_append_left _ hp))

/-! ### Steps and runs -/

theorem Stage.foldl_visit (h : Stage g taken entered pending s) :
    ∃ entered', Stage g taken entered' [] (pending.foldl Sweep.visit s) := by
  induction pending generalizing entered s with
  | nil => exact ⟨_, h⟩
  | cons p rest ih => exact ih h.visit

theorem Stage.step (h : Stage g taken entered [] s) {next : Sweep} (hs : s.step? g = some next) :
    ∃ entered', Stage g (taken + 1) entered' [] next := by
  unfold step? at hs
  split at hs
  · cases hs
  · next current waiting queue =>
    cases hs
    exact (h.take queue).foldl_visit

theorem exists_stage_run (g : Graph) :
    (∃ taken entered, Stage g taken entered [] ((start g).run g)) ∧
      ((start g).run g).queue = [] := by
  refine run_induction (motive := fun s => ∃ taken entered, Stage g taken entered [] s) _
    ⟨_, _, .start⟩ ?_
  rintro s next ⟨taken, entered, stage⟩ hs
  exact ⟨taken + 1, stage.step hs⟩

end Sweep

/-- Whatever operations a graph comes from, its three maps agree and are those of the recorded
edges; a sweep starts from its degrees, and its counters are exact at every stage. It ends, with
nothing queued, after no more steps than there are nodes. -/
theorem Graph.counters_exact (root : Path) (ops : List Operation) :
    let g := ofOperations root ops
    let a := Adjacency.ofOperations ops
    a.Agrees ∧
      (∀ p, a.dependencies.get p = g.dependenciesOf p ∧ a.dependents.get p = g.dependentsOf p ∧
        a.inDegree.get p = g.inDegree p) ∧
      (Sweep.start g).remaining.Perm a.inDegree ∧
      (∀ taken entered pending s, Sweep.Stage g taken entered pending s →
        Sweep.Exact g taken entered pending s) ∧
      ∃ taken entered, taken ≤ g.nodes.length ∧
        Sweep.Stage g taken entered [] ((Sweep.start g).run g) ∧
        ((Sweep.start g).run g).queue = [] := by
  intro g a
  have hg : g.WellFormed := wellFormed_ofOperations root ops
  have maps : a = g.adjacency := adjacency_ofOperations root ops
  rw [maps]
  refine ⟨hg.agrees_adjacency,
    fun p => ⟨hg.get_dependencies p, hg.get_dependents p, hg.get_inDegree p⟩,
    (Path.sort_perm g.nodes).map _, fun _ _ _ _ stage => stage.exact hg, ?_⟩
  obtain ⟨⟨taken, entered, stage⟩, empty⟩ := Sweep.exists_stage_run g
  exact ⟨taken, entered, (stage.exact hg).taken_le, stage, empty⟩

end IslDocs
