import IslDocs.Path.Basic
import Mathlib.Data.List.Nodup
import Mathlib.Data.List.Perm.Subperm

/-! Lists of paths up to spelling. Two spellings are the same path when their components agree, so
membership, counts and repetition in a list of paths are those of the list of their components. -/

namespace IslDocs.Path

theorem map_text_injective : Function.Injective (List.map Path.text) :=
  List.map_injective_iff.2 fun _ _ => congrArg Path.mk

theorem beq_comm (p q : Path) : (p == q) = (q == p) := by
  rw [Bool.eq_iff_iff, beq_iff, beq_iff, eq_comm]

theorem beq_eq_false_iff {p q : Path} : (p == q) = false ↔ p.parts ≠ q.parts := by
  rw [← Bool.not_eq_true, beq_iff]

theorem contains_iff {ps : List Path} {p : Path} :
    ps.contains p = true ↔ p.parts ∈ ps.map parts := by
  rw [List.contains_iff_exists_mem_beq, List.mem_map]
  exact exists_congr fun q => and_congr_right fun _ => beq_iff.trans eq_comm

theorem contains_of_mem {ps : List Path} {p : Path} (h : p ∈ ps) : ps.contains p = true :=
  contains_iff.2 (List.mem_map_of_mem h)

theorem contains_congr {p q : Path} (h : (p == q) = true) (ps : List Path) :
    ps.contains p = ps.contains q := by
  rw [Bool.eq_iff_iff, contains_iff, contains_iff, beq_iff.1 h]

theorem countP_beq (ps : List Path) (p : Path) :
    ps.countP (· == p) = (ps.map parts).count p.parts := by
  rw [List.count, List.countP_map]
  exact List.countP_congr fun q _ => by simp [beq_iff]

/-- No two paths of the list are the same. -/
def Distinct (ps : List Path) : Prop := ps.Pairwise fun p q => (p == q) = false

theorem distinct_iff {ps : List Path} : Distinct ps ↔ (ps.map parts).Nodup := by
  simp only [Distinct, beq_eq_false_iff, List.Nodup, List.pairwise_map]

theorem Distinct.eq_of_beq {ps : List Path} (h : Distinct ps) {p q : Path} (hp : p ∈ ps)
    (hq : q ∈ ps) (same : (p == q) = true) : p = q :=
  List.inj_on_of_nodup_map (distinct_iff.1 h) hp hq (beq_iff.1 same)

theorem Distinct.subperm {ps qs : List Path} (h : Distinct ps)
    (listed : ∀ p ∈ ps, qs.contains p = true) : (ps.map parts).Subperm (qs.map parts) := by
  refine List.subperm_of_subset (distinct_iff.1 h) fun k hk => ?_
  obtain ⟨p, hp, rfl⟩ := List.mem_map.1 hk
  exact contains_iff.1 (listed p hp)

/-- Distinct paths that are all listed are no more than the list has. -/
theorem Distinct.length_le {ps qs : List Path} (h : Distinct ps)
    (listed : ∀ p ∈ ps, qs.contains p = true) : ps.length ≤ qs.length := by
  simpa using (h.subperm listed).length_le

/-! ### Sorting -/

theorem sort_perm (ps : List Path) : (sort ps).Perm ps := List.mergeSort_perm ps le

theorem sort_of_pairwise {ps : List Path} (h : ps.Pairwise fun p q => le p q = true) :
    sort ps = ps := List.mergeSort_of_pairwise h

@[simp] theorem mem_sort {ps : List Path} {p : Path} :
    p ∈ sort ps ↔ p ∈ ps := (sort_perm ps).mem_iff

@[simp] theorem contains_sort {ps : List Path} {p : Path} :
    (sort ps).contains p = ps.contains p := by
  rw [Bool.eq_iff_iff, contains_iff, contains_iff, ((sort_perm ps).map parts).mem_iff]

theorem Distinct.sort {ps : List Path} (h : Distinct ps) : Distinct (sort ps) :=
  distinct_iff.2 (((sort_perm ps).map parts).nodup_iff.2 (distinct_iff.1 h))

end IslDocs.Path
