import IslDocs.Graph.Sweep
import IslDocs.Proofs.Graph.Records
import Mathlib.Data.List.Perm.Subperm

/-! The invariant of the sweep. While the dependents of a taken node are being counted down, every
node's number is that of its edges from nodes not yet taken and of the countdowns still to come; a
node has been taken or is waiting exactly when its number is zero, and it is so only once. -/

namespace IslDocs

/-- The recorded edges into `p` from nodes that are not in `done`. -/
def Graph.edgesLeft (g : Graph) (done : List Path) (p : Path) : ℕ :=
  g.edges.countP fun e => e.dependent == p && !done.contains e.dependency

namespace Graph

@[simp] theorem edgesLeft_nil (g : Graph) (p : Path) : g.edgesLeft [] p = g.inDegree p := by
  simp [edgesLeft, inDegree]

/-- Taking one more node leaves out the edges that its own dependents account for. -/
theorem edgesLeft_append (g : Graph) {done : List Path} {current : Path}
    (new : done.contains current = false) (p : Path) :
    g.edgesLeft done p =
      g.edgesLeft (done ++ [current]) p + (g.dependentsOf current).countP (· == p) := by
  simp only [edgesLeft, dependentsOf, List.countP_map, List.countP_filter, Function.comp_apply,
    List.contains_append, List.contains_cons, List.contains_nil, Bool.or_false]
  induction g.edges with
  | nil => rfl
  | cons e rest ih =>
    simp only [List.countP_cons, ih]
    rcases same : (e.dependency == current) with _ | _
    · simp only [Bool.or_false, Bool.and_false, Bool.false_eq_true, ↓reduceIte]
      omega
    · rw [Path.contains_congr same, new]
      rcases e.dependent == p with _ | _
      · simp
      · simp only [Bool.not_false, Bool.true_and, Bool.false_or, Bool.not_true, ↓reduceIte,
          Bool.false_eq_true]
        omega

theorem edgesLeft_eq_zero {g : Graph} {done : List Path} {p : Path} (h : g.edgesLeft done p = 0)
    {d : Path} (hd : d ∈ g.dependenciesOf p) : done.contains d = true := by
  obtain ⟨e, he, same, rfl⟩ := mem_dependenciesOf.1 hd
  have := List.countP_eq_zero.1 h e he
  simpa [same] using this

theorem exists_of_edgesLeft_ne_zero {g : Graph} {done : List Path} {p : Path}
    (h : g.edgesLeft done p ≠ 0) : ∃ d ∈ g.dependenciesOf p, done.contains d = false := by
  obtain ⟨e, he, left⟩ := List.countP_pos_iff.1 (Nat.pos_of_ne_zero h)
  obtain ⟨same, missing⟩ := Bool.and_eq_true_iff.1 left
  exact ⟨e.dependency, mem_dependenciesOf.2 ⟨e, he, same, rfl⟩, by simpa using missing⟩

end Graph

/-! ### Counting down -/

namespace Counts

/-- The nodes of the counts are distinct. -/
def Keyed (counts : Counts) : Prop := Path.Distinct (counts.map Prod.fst)

theorem Keyed.eq_of_beq {counts : Counts} (h : Keyed counts) {a b : Path × ℕ} (ha : a ∈ counts)
    (hb : b ∈ counts) (same : (a.1 == b.1) = true) : a = b := by
  have keys : (counts.map (Path.parts ∘ Prod.fst)).Nodup := by
    rw [← List.map_map]
    exact Path.distinct_iff.1 h
  exact List.inj_on_of_nodup_map keys ha hb (Path.beq_iff.1 same)

@[simp] theorem fst_countDown (p : Path) (counts : Counts) :
    (countDown p counts).1.map Prod.fst = counts.map Prod.fst := by
  induction counts with
  | nil => rfl
  | cons entry rest ih =>
    rcases hq : (entry.1 == p) with _ | _ <;> simp [countDown, hq, ih]

/-- One less for `p`, and nothing else changed. -/
theorem countDown_fst {counts : Counts} (h : Keyed counts) (p : Path) :
    (countDown p counts).1 =
      counts.map fun a => if a.1 == p then (a.1, a.2 - 1) else a := by
  induction counts with
  | nil => rfl
  | cons entry rest ih =>
    obtain ⟨apart, keyed⟩ := List.pairwise_cons.1 h
    rcases hq : (entry.1 == p) with _ | _
    · simp [countDown, hq, ih keyed]
    · have same : ∀ a ∈ rest, (if a.1 == p then (a.1, a.2 - 1) else a) = a := by
        intro a ha
        rw [if_neg]
        intro hp
        have := apart a.1 (List.mem_map_of_mem ha)
        rw [BEq.trans hq (BEq.symm hp)] at this
        exact Bool.noConfusion this
      simp only [countDown, hq, if_true, List.map_cons]
      have unchanged : rest = rest.map fun a => if a.1 == p then (a.1, a.2 - 1) else a :=
        (List.map_id' rest).symm.trans (List.map_congr_left fun a ha => (same a ha).symm)
      exact congrArg _ unchanged

theorem countDown_snd {counts : Counts} (h : Keyed counts) (p : Path) :
    (countDown p counts).2 = counts.any fun a => a.1 == p && a.2 == 1 := by
  induction counts with
  | nil => rfl
  | cons entry rest ih =>
    obtain ⟨apart, keyed⟩ := List.pairwise_cons.1 h
    rcases hq : (entry.1 == p) with _ | _
    · simp [countDown, hq, ih keyed]
    · have none : (rest.any fun a => a.1 == p && a.2 == 1) = false := by
        rw [List.any_eq_false]
        intro a ha both
        have := apart a.1 (List.mem_map_of_mem ha)
        rw [BEq.trans hq (BEq.symm (Bool.and_eq_true_iff.1 both).1)] at this
        exact Bool.noConfusion this
      simp [countDown, hq, none]

/-- Where no count is zero before, a count is freed when nothing is left of it. -/
theorem countDown_snd_eq {counts : Counts} (h : Keyed counts) {p : Path}
    (positive : ∀ a ∈ counts, (a.1 == p) = true → 0 < a.2) :
    (countDown p counts).2 = (countDown p counts).1.any fun a => a.1 == p && a.2 == 0 := by
  rw [countDown_snd h, countDown_fst h, List.any_map, Bool.eq_iff_iff, List.any_eq_true,
    List.any_eq_true]
  refine exists_congr fun a => and_congr_right fun ha => ?_
  rcases same : (a.1 == p) with _ | _
  · simp [same]
  · have := positive a ha same
    simp only [Function.comp_apply, same, if_true, Bool.true_and, beq_iff_eq]
    omega

end Counts
end IslDocs
