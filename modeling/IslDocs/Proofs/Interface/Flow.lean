import IslDocs.Interface.Flow
import IslDocs.Proofs.Section.Heading
import Mathlib.Data.List.Basic

/-! Flow blocks by position. Whether a line lies in a block depends on the lines up to it: it opens
one, or the line before it lies in one and it does not end it. So the pass over the lines, which
only keeps track of whether a block is open, leaves out exactly the lines that lie in a block. -/

namespace IslDocs.Flow

variable {stop : Text → Bool} {lines before rest : List Text} {line : Text} {k : Nat}

instance (stop : Text → Bool) (lines : List Text) (k : Nat) : Decidable (Covers stop lines k) :=
  decidable_of_iff
    ((List.range (k + 1)).any (fun i => (lines[i]?).any opens && (List.range (k + 1)).all fun m =>
      !decide (i < m) || (lines[m]?).all fun line => !stop line) = true)
    (by
      simp only [Covers, List.any_eq_true, List.all_eq_true, List.mem_range, Nat.lt_succ_iff,
        Bool.and_eq_true, Bool.or_eq_true, Bool.not_eq_true', decide_eq_false_iff_not,
        Option.any_eq_true, Option.all_eq_true, ← imp_iff_not_or]
      exact exists_congr fun i => and_congr_right fun _ => and_congr_right fun _ =>
        ⟨fun h m line lt le => h m le lt line, fun h m le lt line => h m line lt le⟩)

/-- The lines that lie in no block. -/
def uncovered (stop : Text → Bool) (lines : List Text) : List Text :=
  (lines.zipIdx.filter fun (_, k) => ¬ Covers stop lines k).map Prod.fst

theorem mem_of_mem_uncovered (h : line ∈ uncovered stop lines) : line ∈ lines := by
  obtain ⟨⟨line, k⟩, kept, rfl⟩ := List.mem_map.1 h
  exact List.mem_of_getElem? (List.mem_zipIdx_iff_getElem?.1 (List.mem_of_mem_filter kept))

/-- With nothing before a line, the line numbered `0 - 1` is none that could open a block. -/
theorem covers_middle :
    Covers stop (before ++ line :: rest) before.length ↔
      opens line = true ∨ (stop line = false ∧ Covers stop before (before.length - 1)) := by
  have here : (before ++ line :: rest)[before.length]? = some line := by simp
  have same : ∀ {i}, i < before.length → (before ++ line :: rest)[i]? = before[i]? := fun hi =>
    List.getElem?_append_left hi
  constructor
  · rintro ⟨i, hi, ⟨first, at', opened⟩, none⟩
    rcases Nat.lt_or_eq_of_le hi with earlier | rfl
    · refine Or.inr ⟨none _ _ earlier (Nat.le_refl _) here, i, by omega,
        ⟨first, same earlier ▸ at', opened⟩, fun m line lt le at' => ?_⟩
      have inside : m < before.length := by omega
      exact none m line lt (by omega) ((same inside).trans at')
    · rw [here] at at'
      exact Or.inl (Option.some.inj at' ▸ opened)
  · rintro (opened | ⟨open', i, hi, ⟨first, at', opened⟩, none⟩)
    · exact ⟨_, Nat.le_refl _, ⟨line, here, opened⟩, fun m _ lt le => absurd lt (by omega)⟩
    · have inside : i < before.length := (List.getElem?_eq_some_iff.1 at').1
      refine ⟨i, by omega, ⟨first, (same inside).trans at', opened⟩, fun m line' lt le at' => ?_⟩
      rcases Nat.lt_or_eq_of_le le with earlier | rfl
      · exact none m line' lt (by omega) (same earlier ▸ at')
      · rw [here] at at'
        exact Option.some.inj at' ▸ open'

theorem outsideFrom_eq {inside : Bool}
    (h : inside = true ↔ Covers ends before (before.length - 1)) :
    outsideFrom inside rest =
      ((rest.zipIdx before.length).filter fun (_, k) =>
        ¬ Covers ends (before ++ rest) k).map Prod.fst := by
  induction rest generalizing before inside with
  | nil => rfl
  | cons line rest ih =>
    have here : (opens line || inside && !ends line) = true ↔
        Covers ends (before ++ line :: rest) before.length := by
      rw [covers_middle, ← h]
      simp [and_comm]
    have next : Covers ends (before ++ [line]) (before.length + 1 - 1) ↔
        Covers ends (before ++ line :: rest) before.length := by
      simp [covers_middle]
    have tail := fun inside' h' => @ih (before ++ [line]) inside' h'
    rw [List.length_append, List.length_singleton, List.append_assoc, List.singleton_append] at tail
    rw [outsideFrom, List.zipIdx_cons]
    split
    · next covered =>
      rw [List.filter_cons_of_neg (by simpa using here.1 covered)]
      exact tail true (iff_of_true rfl (next.2 (here.1 covered)))
    · next kept =>
      have outside := fun inside => kept (here.2 inside)
      rw [List.filter_cons_of_pos (by simpa using outside), List.map_cons]
      exact congrArg _ (tail false (iff_of_false Bool.false_ne_true fun c => outside (next.1 c)))

/-- The pass over the lines drops those that lie in a block, and no others. -/
theorem outside_eq (lines : List Text) : outside lines = uncovered ends lines := by
  have closed : ¬ Covers ends [] 0 := fun ⟨_, _, ⟨_, at', _⟩, _⟩ => by cases at'
  exact @outsideFrom_eq [] lines false (iff_of_false Bool.false_ne_true closed)

/-! ### Headings as ends of a block -/

/-- A separator, or a heading of level 2 or 4. -/
def endsByHeading (line : Text) : Bool :=
  let t := Text.trimStart line
  Text.startsWith "---".toList t ||
    (Heading.ofLine? t).any fun heading => heading.level == 2 || heading.level == 4

/-- Whether four number signs come first, whatever comes after them. -/
def hasFourSigns (line : Text) : Bool := Text.startsWith "####".toList (Text.trimStart line)

theorem signs_prefix_of_ofLine? {t : Text} {heading : Heading}
    (found : Heading.ofLine? t = some heading) : List.replicate heading.level '#' <+: t := by
  obtain ⟨rest, rfl, -⟩ := Heading.ofLine?_eq_some_iff.1 found
  exact List.prefix_append _ _

theorem ends_iff : ends line = true ↔ endsByHeading line = true ∨ hasFourSigns line = true := by
  have four : ∀ heading, Heading.ofLine? (Text.trimStart line) = some heading →
      heading.level = 4 → hasFourSigns line = true := by
    intro heading found level
    have signs := signs_prefix_of_ofLine? found
    rw [level] at signs
    exact List.isPrefixOf_iff_prefix.2 signs
  rw [ends, ← hasFourSigns]
  simp only [endsByHeading, Bool.or_eq_true, Option.any_eq_true, beq_iff_eq]
  constructor
  · rintro ((separator | signs) | ⟨heading, found, level⟩)
    · exact Or.inl (Or.inl separator)
    · exact Or.inr signs
    · exact Or.inl (Or.inr ⟨heading, found, Or.inl level⟩)
  · rintro ((separator | ⟨heading, found, level | level⟩) | signs)
    · exact Or.inl (Or.inl separator)
    · exact Or.inr ⟨heading, found, level⟩
    · exact Or.inl (Or.inr (four heading found level))
    · exact Or.inl (Or.inr signs)

theorem ends_eq_false_iff :
    ends line = false ↔ endsByHeading line = false ∧ hasFourSigns line = false := by
  simp [← Bool.not_eq_true, ends_iff]

theorem opens_eq_false_of_ends (h : ends line = true) : opens line = false := by
  rw [← Bool.not_eq_true]
  intro opened
  obtain ⟨rest, text⟩ : ∃ rest, Text.trimStart line = '*' :: rest := by
    rw [opens, Bool.or_eq_true] at opened
    rcases opened with opened | opened <;>
      exact ⟨_, (List.isPrefixOf_iff_prefix.1 opened).choose_spec.symm⟩
  rw [ends, text] at h
  cases h

/-- A line that ends a block lies in none. -/
theorem not_covers_of_ends (at' : lines[k]? = some line) (h : ends line = true) :
    ¬ Covers ends lines k := by
  rintro ⟨i, hi, ⟨first, there, opened⟩, none⟩
  rcases Nat.lt_or_eq_of_le hi with earlier | rfl
  · rw [none k line earlier (Nat.le_refl k) at'] at h
    cases h
  · obtain rfl := Option.some.inj (there.symm.trans at')
    rw [opens_eq_false_of_ends h] at opened
    cases opened

/-- A line that opens a block lies in it. -/
theorem opens_of_mem_uncovered (h : line ∈ uncovered stop lines) : opens line = false := by
  obtain ⟨⟨line, k⟩, kept, rfl⟩ := List.mem_map.1 h
  obtain ⟨listed, outside⟩ := List.mem_filter.1 kept
  rw [List.mem_zipIdx_iff_getElem?] at listed
  rw [← Bool.not_eq_true]
  intro opened
  exact of_decide_eq_true outside
    ⟨k, Nat.le_refl k, ⟨line, listed, opened⟩, fun m _ lt le => absurd lt (Nat.not_lt.2 le)⟩

theorem Covers.byHeading (h : Covers ends lines k) : Covers endsByHeading lines k := by
  obtain ⟨i, hi, opened, none⟩ := h
  exact ⟨i, hi, opened, fun m line lt le at' => (ends_eq_false_iff.1 (none m line lt le at')).1⟩

/-- No line that four number signs begin lies in a block if blocks end at headings. -/
def Unsigned (lines : List Text) : Prop :=
  ∀ k line, lines[k]? = some line → Covers endsByHeading lines k → hasFourSigns line = false

theorem Unsigned.covers_iff (h : Unsigned lines) :
    Covers ends lines k ↔ Covers endsByHeading lines k := by
  refine ⟨Covers.byHeading, ?_⟩
  rintro ⟨i, hi, opened, none⟩
  refine ⟨i, hi, opened, fun m line lt le at' => ?_⟩
  have quiet := none m line lt le at'
  have covered : Covers endsByHeading lines m :=
    ⟨i, Nat.le_of_lt lt, opened, fun m' line' lt' le' => none m' line' lt' (Nat.le_trans le' le)⟩
  exact ends_eq_false_iff.2 ⟨quiet, h m line at' covered⟩

theorem Unsigned.uncovered_eq (h : Unsigned lines) :
    uncovered ends lines = uncovered endsByHeading lines := by
  simp only [uncovered, h.covers_iff]

theorem filter_uncovered (stop : Text → Bool) (lines : List Text) (p : Text → Bool) :
    (uncovered stop lines).filter p =
      (lines.zipIdx.filter fun (line, k) => p line && !decide (Covers stop lines k)).map
        Prod.fst := by
  rw [uncovered, List.filter_map, List.filter_filter]
  simp only [decide_not, Function.comp_def]

/-- A line with number signs stays where blocks end at them, so it is missed where they do not. -/
theorem unsigned_of_filter_eq (h : (uncovered ends lines).filter (!·.isEmpty) =
    (uncovered endsByHeading lines).filter (!·.isEmpty)) : Unsigned lines := by
  intro k line at' covered
  rw [filter_uncovered, filter_uncovered] at h
  have fewer : (lines.zipIdx.filter fun (line, k) =>
      !line.isEmpty && !decide (Covers endsByHeading lines k)).Sublist
        (lines.zipIdx.filter fun (line, k) => !line.isEmpty && !decide (Covers ends lines k)) := by
    refine List.monotone_filter_right _ fun (line, k) kept => ?_
    simp only [Bool.and_eq_true, Bool.not_eq_true', decide_eq_false_iff_not] at kept ⊢
    exact ⟨kept.1, fun c => kept.2 c.byHeading⟩
  have same := fewer.eq_of_length (by simpa using (congrArg List.length h).symm)
  by_contra signs
  rw [Bool.not_eq_false] at signs
  have filled : line.isEmpty = false := by
    cases line with
    | nil => cases signs
    | cons => rfl
  have kept : (line, k) ∈ lines.zipIdx.filter fun (line, k) =>
      !line.isEmpty && !decide (Covers ends lines k) := by
    rw [List.mem_filter, List.mem_zipIdx_iff_getElem?]
    exact ⟨at', by simp [filled, not_covers_of_ends at' (ends_iff.2 (Or.inr signs))]⟩
  rw [← same, List.mem_filter] at kept
  simp [covered] at kept

end IslDocs.Flow
