import IslDocs.Proofs.Text.Search
import IslDocs.Proofs.Validation.Errors
import IslDocs.Proofs.Validation.Keyword
import IslDocs.Proofs.Validation.Rules
import Mathlib.Data.List.TakeWhile

/-! The text of a field. It begins behind the first marker of the field, in either spelling, and ends
where the next header of any field begins or with the content. -/

namespace IslDocs.Field

open Text (HasWord)

variable {content name t before marker after header : Text}

/-! ### Headers -/

/-- The header of a field with some name, in either spelling. -/
def IsHeader (header : Text) : Prop :=
  ∃ name, name ≠ [] ∧ (∀ c ∈ name, c ≠ '*' ∧ c ≠ '\n') ∧
    (header = colonAfter name ∨ header = colonInside name)

/-- A header of a field begins the text. -/
def Opens (t : Text) : Prop := ∃ header, IsHeader header ∧ header <+: t

/-- What counts behind two asterisks, characters of a name and the next asterisk. -/
theorem atHeader_run (h : ∀ c ∈ name, c ≠ '*' ∧ c ≠ '\n') (rest : Text) :
    atHeader ("**".toList ++ (name ++ '*' :: rest)) =
      ((!name.isEmpty && Text.startsWith "*:".toList rest) ||
        (decide (1 < name.length) && name.getLast? == some ':' &&
          Text.startsWith "*".toList rest)) := by
  have run : ∀ c ∈ name, isNameChar c = true := fun c hc => by simp [isNameChar, h c hc]
  have stop : isNameChar '*' = false := rfl
  have front : (name ++ '*' :: rest).takeWhile isNameChar = name := by
    rw [List.takeWhile_append_of_pos run]
    simp [stop]
  have back : (name ++ '*' :: rest).dropWhile isNameChar = '*' :: rest := by
    rw [List.dropWhile_append_of_pos run]
    simp [stop]
  have found : Text.after? "**".toList ("**".toList ++ (name ++ '*' :: rest)) =
      some (name ++ '*' :: rest) := List.isPrefixOf?_eq_some_iff_append_eq.2 rfl
  simp only [atHeader, found, front, back]
  rfl

theorem atHeader_iff : atHeader t = true ↔ Opens t := by
  constructor
  · intro h
    rw [atHeader] at h
    split at h
    · cases h
    · next rest found =>
      rw [Text.after?, List.isPrefixOf?_eq_some_iff_append_eq] at found
      have run : ∀ c ∈ rest.takeWhile isNameChar, c ≠ '*' ∧ c ≠ '\n' := fun c hc => by
        simpa [isNameChar] using List.mem_takeWhile_imp hc
      have cut : rest.takeWhile isNameChar ++ rest.dropWhile isNameChar = rest :=
        List.takeWhile_append_dropWhile
      simp only [Bool.or_eq_true, Bool.and_eq_true, Bool.not_eq_true', List.isEmpty_eq_false_iff,
        decide_eq_true_eq, beq_iff_eq, Text.startsWith, List.isPrefixOf_iff_prefix] at h
      generalize rest.takeWhile isNameChar = name at h run cut
      generalize rest.dropWhile isNameChar = tail at h cut
      subst cut found
      rcases h with ⟨any, more, rfl⟩ | ⟨⟨long, colon⟩, more, rfl⟩
      · exact ⟨_, ⟨name, any, run, Or.inl rfl⟩, more, by simp [colonAfter]⟩
      · -- The colon is the last of the characters before the closing asterisks.
        obtain ⟨name, rfl⟩ := List.getLast?_eq_some_iff.1 colon
        have any : name ≠ [] := List.length_pos_iff.1 (by simpa using long)
        exact ⟨_, ⟨name, any, fun c hc => run c (by simp [hc]), Or.inr rfl⟩, more,
          by simp [colonInside]⟩
  · rintro ⟨_, ⟨name, any, run, rfl | rfl⟩, more, rfl⟩
    · have split : colonAfter name ++ more =
          "**".toList ++ (name ++ '*' :: ("*:".toList ++ more)) := by simp [colonAfter]
      rw [split, atHeader_run run]
      simp [any, Text.startsWith]
    · have split : colonInside name ++ more =
          "**".toList ++ (name ++ [':'] ++ '*' :: ("*".toList ++ more)) := by simp [colonInside]
      have run' : ∀ c ∈ name ++ [':'], c ≠ '*' ∧ c ≠ '\n' := by
        simpa [or_imp, forall_and] using run
      have long := List.length_pos_of_ne_nil any
      rw [split, atHeader_run run']
      simp [Text.startsWith, long]

/-! ### The text of a field -/

/-- The content cut around the first marker of the field. -/
structure Marked (content name before marker rest : Text) : Prop where
  split : content = before ++ marker ++ rest
  marker : marker = colonAfter name ∨ marker = colonInside name
  /-- No marker of the field begins earlier. -/
  first : ∀ i < before.length,
    ¬ colonAfter name <+: content.drop i ∧ ¬ colonInside name <+: content.drop i

theorem colonAfter_ne_nil (name : Text) : colonAfter name ≠ [] := by simp [colonAfter]

theorem colonInside_ne_nil (name : Text) : colonInside name ≠ [] := by simp [colonInside]

theorem markers_differ {rest more : Text} : colonAfter name ++ rest ≠ colonInside name ++ more := by
  simp [colonAfter, colonInside]

theorem le_of_breakOn {front rest : Text}
    (found : Text.breakOn marker content = some (front, rest))
    (first : ∀ i < before.length, ¬ marker <+: content.drop i) : before.length ≤ front.length := by
  by_contra early
  refine first front.length (Nat.lt_of_not_le early) ?_
  simp [(Text.breakOn_eq_some_iff.1 found).1]

theorem not_prefix_of_breakOn (any : marker ≠ []) (none : Text.breakOn marker content = none)
    (i : Nat) : ¬ marker <+: content.drop i := fun starts =>
  (Text.breakOn_eq_none_iff any).1 none (starts.isInfix.trans (List.drop_suffix i content).isInfix)

theorem afterMarker?_eq_some_iff {rest : Text} : afterMarker? content name = some rest ↔
    ∃ before marker, Marked content name before marker rest := by
  constructor
  · intro h
    rw [afterMarker?] at h
    split at h
    · next before after before' after' found found' =>
      obtain ⟨split, first⟩ := Text.breakOn_eq_some_iff.1 found
      obtain ⟨split', first'⟩ := Text.breakOn_eq_some_iff.1 found'
      split at h
      · next le =>
        cases h
        exact ⟨_, _, split, Or.inl rfl, fun i hi => ⟨first i hi, first' i (by omega)⟩⟩
      · next gt =>
        cases h
        exact ⟨_, _, split', Or.inr rfl, fun i hi => ⟨first i (by omega), first' i hi⟩⟩
    · next before after found none =>
      cases h
      obtain ⟨split, first⟩ := Text.breakOn_eq_some_iff.1 found
      exact ⟨_, _, split, Or.inl rfl,
        fun i hi => ⟨first i hi, not_prefix_of_breakOn (colonInside_ne_nil name) none i⟩⟩
    · next before after none found =>
      cases h
      obtain ⟨split, first⟩ := Text.breakOn_eq_some_iff.1 found
      exact ⟨_, _, split, Or.inr rfl,
        fun i hi => ⟨not_prefix_of_breakOn (colonAfter_ne_nil name) none i, first i hi⟩⟩
    · cases h
  · rintro ⟨before, marker, split, rfl | rfl, first⟩
    · have found := Text.breakOn_eq_some_iff.2 ⟨split, fun i hi => (first i hi).1⟩
      cases other : Text.breakOn (colonInside name) content with
      | none => simp [afterMarker?, found, other]
      | some cut =>
        have le := le_of_breakOn other fun i hi => (first i hi).2
        simp [afterMarker?, found, other, le]
    · have found := Text.breakOn_eq_some_iff.2 ⟨split, fun i hi => (first i hi).2⟩
      cases other : Text.breakOn (colonAfter name) content with
      | none => simp [afterMarker?, found, other]
      | some cut =>
        obtain ⟨front, more⟩ := cut
        have le := le_of_breakOn other fun i hi => (first i hi).1
        have gt : ¬ front.length ≤ before.length := by
          intro ge
          have both := (Text.breakOn_eq_some_iff.1 other).1
          rw [split, List.append_assoc, List.append_assoc] at both
          obtain ⟨-, same⟩ := List.append_inj both (Nat.le_antisymm le ge)
          exact markers_differ same.symm
        simp [afterMarker?, found, other, gt]

/-- The text runs from the marker up to the first place where a header begins. -/
structure Runs (rest t after : Text) : Prop where
  split : rest = t ++ after
  /-- No header begins within the text. -/
  clear : ∀ i < t.length, ¬ Opens (rest.drop i)
  stop : after = [] ∨ Opens after

theorem breakAt_atHeader {rest : Text} :
    Text.breakAt atHeader rest = (t, after) ↔ Runs rest t after := by
  rw [Text.breakAt_eq_iff]
  simp only [← Bool.not_eq_true, atHeader_iff]
  exact ⟨fun ⟨split, clear, stop⟩ => ⟨split, clear, stop⟩, fun h => ⟨h.split, h.clear, h.stop⟩⟩

theorem text?_eq_some_iff : text? content name = some t ↔ ∃ before marker rest after,
    Marked content name before marker rest ∧ Runs rest t after := by
  simp only [text?, Option.map_eq_some_iff, afterMarker?_eq_some_iff]
  constructor
  · rintro ⟨rest, ⟨before, marker, marked⟩, rfl⟩
    exact ⟨before, marker, rest, _, marked, breakAt_atHeader.1 rfl⟩
  · rintro ⟨before, marker, rest, after, marked, runs⟩
    exact ⟨rest, ⟨before, marker, marked⟩, by rw [breakAt_atHeader.2 runs]⟩

/-- No header stands in the text, wherever it would end. -/
theorem Runs.not_infix {rest : Text} (h : Runs rest t after) (made : IsHeader header) :
    ¬ header <:+: t := by
  rintro ⟨front, back, inside⟩
  obtain ⟨name, any, -, spelled⟩ := id made
  have size := congrArg List.length inside
  have long : 0 < header.length := by
    rcases spelled with rfl | rfl <;> simp [colonAfter, colonInside]
  simp only [List.length_append] at size
  refine h.clear front.length (by omega) ⟨header, made, back ++ after, ?_⟩
  simp [h.split, ← inside]

theorem isPresent_eq_isSome (content name : Text) :
    isPresent content name = (text? content name).isSome := by
  have occurs : ∀ marker, marker ≠ [] →
      Text.contains marker content = (Text.breakOn marker content).isSome := fun marker any => by
    rw [Bool.eq_iff_iff, Text.contains_iff_infix, Option.isSome_iff_ne_none, ne_eq,
      Text.breakOn_eq_none_iff any, not_not]
  rw [isPresent, occurs _ (colonAfter_ne_nil name), occurs _ (colonInside_ne_nil name), text?,
    Option.isSome_map, afterMarker?]
  cases Text.breakOn (colonAfter name) content <;>
    cases Text.breakOn (colonInside name) content <;> simp [apply_ite Option.isSome]

/-! ### Constraints -/

/-- The section has a constraint without any keyword. -/
def LacksKeyword (s : Section) : Prop :=
  ∃ t, text? s.content constraintName = some t ∧ ∀ k ∈ Keyword.all, ¬ HasWord t k

theorem lacksKeyword_iff {s : Section} : LacksKeyword s ↔
    ((text? s.content constraintName).any fun t => !Keyword.occursIn t) = true := by
  have lacks : ∀ t, (!Keyword.occursIn t) = true ↔ ∀ k ∈ Keyword.all, ¬ HasWord t k := by
    simp [← Bool.not_eq_true, Keyword.occursIn_iff]
  simp only [LacksKeyword, Option.any_eq_true, lacks]

instance (s : Section) : Decidable (LacksKeyword s) := decidable_of_iff _ lacksKeyword_iff.symm

theorem weakConstraint_eq (s : Section) : Check.weakConstraint s =
    if ¬ LacksKeyword s then []
    else [.report .weakConstraint ("Capability: ".toList ++ s.title) s.line] := by
  simp only [lacksKeyword_iff, Check.weakConstraint]
  cases text? s.content constraintName with
  | none => rfl
  | some t => cases h : Keyword.occursIn t <;> simp [h]

/-- A field that is present has a text: what stands between its first marker and the next place
where the header of any field begins. A constraint is weak if there is no keyword in that text, and
what comes behind it does not count. -/
theorem text_up_to_header (content name : Text) (sections : List Section) :
    (isPresent content name = true ↔ ∃ t, text? content name = some t) ∧
    (∀ t, text? content name = some t ↔ ∃ before marker rest after,
      Marked content name before marker rest ∧ Runs rest t after) ∧
    (∀ t header, text? content name = some t → IsHeader header → ¬ header <:+: t) ∧
    (validate sections).warnings.filter (·.rule == .constraintKeyword) =
      (sections.filter fun s => s.kind = .capability ∧ LacksKeyword s).map fun s =>
        .report .weakConstraint ("Capability: ".toList ++ s.title) s.line := by
  refine ⟨?_, fun t => text?_eq_some_iff, fun t header found made => ?_, ?_⟩
  · rw [isPresent_eq_isSome, Option.isSome_iff_exists]
  · obtain ⟨before, marker, rest, after, -, runs⟩ := text?_eq_some_iff.1 found
    exact runs.not_infix made
  · have parts := Check.ofRule_warnings_capability (r := .constraintKeyword) sections rfl (by decide)
    simp only [Check.ofRule_constraintKeyword, weakConstraint_eq] at parts
    rw [Check.flatMap_unless, List.filter_filter] at parts
    refine parts.trans (congrArg _ (List.filter_congr fun s _ => ?_))
    simp [Bool.and_comm, Bool.beq_eq_decide_eq]

/-- A constraint between bold words, with a header that begins inside another one. -/
def bolded : Text := "**a** **🚨 Constraint:** small **b** and *c* **d:**e**: MUST".toList

theorem bolded_up_to_header :
    text? bolded constraintName = some " small **b** and *c* ".toList ∧
    IsHeader "**e**:".toList ∧ ¬ "**e**:".toList <:+: " small **b** and *c* ".toList := by
  have found : text? bolded constraintName = some " small **b** and *c* ".toList := by decide
  have made : IsHeader "**e**:".toList := ⟨['e'], by simp, by simp, Or.inl rfl⟩
  exact ⟨found, made, (text_up_to_header bolded constraintName []).2.2.1 _ _ found made⟩

end IslDocs.Field
