import IslDocs.Text.Word
import Mathlib.Data.List.Infix

/-! Occurrences of one text in another. A search for a text finds it wherever it stands, and a word
occurs where the characters on both sides of it belong to no identifier. -/

namespace IslDocs.Text

variable {p t word : Text} {before : Option Char}

theorem contains_iff_infix : contains p t = true ↔ p <:+: t := by
  induction t with
  | nil => simp [contains]
  | cons c rest ih =>
    simp [contains, ih, List.infix_cons_iff]

/-- The word stands somewhere in the text with no identifier character on either side. -/
def HasWord (t word : Text) : Prop :=
  ∃ before after, t = before ++ word ++ after ∧ isBoundary before.getLast? = true ∧
    isBoundary after.head? = true

theorem getLast?_cons_or (c : Char) (between : Text) (before : Option Char) :
    (c :: between).getLast?.or before = between.getLast?.or (some c) := by
  rw [List.getLast?_cons, Option.some_or]
  cases between.getLast? <;> rfl

/-- What lies between `before` and the word ends in `before` if it is empty. -/
theorem containsWordAfter_iff : containsWordAfter word before t = true ↔
    ∃ between after, t = between ++ word ++ after ∧
      isBoundary (between.getLast?.or before) = true ∧ isBoundary after.head? = true := by
  induction t generalizing before with
  | nil =>
    rw [containsWordAfter, Bool.and_eq_true, List.isEmpty_iff]
    constructor
    · rintro ⟨rfl, boundary⟩
      exact ⟨[], [], rfl, boundary, rfl⟩
    · rintro ⟨between, after, empty, boundary, -⟩
      simp only [List.nil_eq, List.append_eq_nil_iff] at empty
      obtain ⟨⟨rfl, rfl⟩, rfl⟩ := empty
      exact ⟨rfl, boundary⟩
  | cons c rest ih =>
    rw [containsWordAfter, Bool.or_eq_true, ih, Option.any_eq_true]
    constructor
    · rintro (⟨after, found, boundaries⟩ | ⟨between, after, rfl, boundaries⟩)
      · rw [after?, List.isPrefixOf?_eq_some_iff_append_eq] at found
        exact ⟨[], after, found.symm, Bool.and_eq_true_iff.1 boundaries⟩
      · refine ⟨c :: between, after, rfl, ?_, boundaries.2⟩
        rw [getLast?_cons_or, boundaries.1]
    · rintro ⟨between, after, split, left, right⟩
      cases between with
      | nil =>
        refine Or.inl ⟨after, ?_, Bool.and_eq_true_iff.2 ⟨left, right⟩⟩
        simp [after?, split]
      | cons d between =>
        obtain ⟨rfl, rfl⟩ := List.cons_eq_cons.1 split
        refine Or.inr ⟨between, after, rfl, ?_, right⟩
        rw [← getLast?_cons_or, left]

theorem containsWord_iff : containsWord t word = true ↔ HasWord t word := by
  rw [containsWord, containsWordAfter_iff]
  simp only [Option.or_none, HasWord]

instance (t word : Text) : Decidable (HasWord t word) := decidable_of_iff _ containsWord_iff

end IslDocs.Text
