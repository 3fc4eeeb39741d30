import IslDocs.Text.Basic
import Mathlib.Data.List.Infix

/-! Searches through a text from left to right. A search that looks at every place of a text finds
things in the order of their places, so what it finds last is found at the last place that has
anything. A search for the occurrences of a text that goes on behind each occurrence misses none
if no two of them can overlap. -/

namespace IslDocs.Text

variable {p t before after rest passed : Text} {skip : Nat}

/-! ### Places -/

/-- The places of a text at which a character stands, each with what comes before it and what is
left from it on. -/
def placesFrom (passed : Text) : Text → List (Text × Text)
  | [] => []
  | c :: rest => (passed, c :: rest) :: placesFrom (passed ++ [c]) rest

def places (t : Text) : List (Text × Text) := placesFrom [] t

theorem mem_placesFrom : (before, rest) ∈ placesFrom passed t ↔
    rest ≠ [] ∧ ∃ between, before = passed ++ between ∧ t = between ++ rest := by
  induction t generalizing passed with
  | nil => simp +contextual [placesFrom, eq_comm]
  | cons c t ih =>
    rw [placesFrom, List.mem_cons, ih]
    constructor
    · rintro (same | ⟨left, between, rfl, rfl⟩)
      · obtain ⟨rfl, rfl⟩ := Prod.mk.inj same
        exact ⟨List.cons_ne_nil c t, [], by simp, rfl⟩
      · exact ⟨left, c :: between, by simp, rfl⟩
    · rintro ⟨left, between, rfl, split⟩
      cases between with
      | nil => exact Or.inl (by simp [split])
      | cons d between =>
        obtain ⟨rfl, rfl⟩ := List.cons_eq_cons.1 split
        exact Or.inr ⟨left, between, by simp, rfl⟩

theorem mem_places : (before, rest) ∈ places t ↔ t = before ++ rest ∧ rest ≠ [] := by
  simp [places, mem_placesFrom, and_comm]

theorem pairwise_placesFrom (passed t : Text) :
    (placesFrom passed t).Pairwise fun place later => place.1.length < later.1.length := by
  induction t generalizing passed with
  | nil => exact List.Pairwise.nil
  | cons c t ih =>
    refine List.Pairwise.cons (fun later hl => ?_) (ih _)
    obtain ⟨-, between, split, -⟩ := mem_placesFrom.1 hl
    simp [split]

/-- `a` stands at the last of the places that have anything. -/
def IsLast {α : Type} (Has : (before : Text) → α → Prop) (a : α) : Prop :=
  ∃ before, Has before a ∧ ∀ before' b, Has before' b → before'.length ≤ before.length

section Last

variable {α : Type} {f : Text × Text → Option α} {Has : Text → α → Prop}

theorem getLast?_filterMap_places_eq_some_iff (h : ∀ before a, Has before a ↔
    ∃ rest, (before, rest) ∈ places t ∧ f (before, rest) = some a) {a : α} :
    ((places t).filterMap f).getLast? = some a ↔ IsLast Has a := by
  have ordered : (places t).Pairwise fun place later => place.1.length < later.1.length :=
    pairwise_placesFrom [] t
  rw [List.getLast?_filterMap, List.findSome?_eq_some_iff]
  constructor
  · rintro ⟨later, ⟨before, rest⟩, earlier, split, found, none⟩
    have split' : places t = earlier.reverse ++ (before, rest) :: later.reverse := by
      rw [← List.reverse_inj, split]
      simp
    rw [split', List.pairwise_append] at ordered
    refine ⟨before, (h _ _).2 ⟨rest, by simp [split'], found⟩, fun before' b has => ?_⟩
    obtain ⟨rest', mem, found'⟩ := (h _ _).1 has
    simp only [split', List.mem_append, List.mem_cons, List.mem_reverse] at mem
    rcases mem with mem | same | mem
    · exact (ordered.2.2 _ (List.mem_reverse.2 mem) _ List.mem_cons_self).le
    · rw [(Prod.mk.inj same).1]
    · cases (none _ mem).symm.trans found'
  · rintro ⟨before, has, last⟩
    obtain ⟨rest, mem, found⟩ := (h _ _).1 has
    obtain ⟨earlier, later, split⟩ := List.append_of_mem mem
    rw [split, List.pairwise_append, List.pairwise_cons] at ordered
    refine ⟨later.reverse, (before, rest), earlier.reverse, by simp [split], found, ?_⟩
    rintro ⟨before', rest'⟩ mem'
    have beyond := ordered.2.1.1 _ (List.mem_reverse.1 mem')
    cases some : f (before', rest') with
    | none => rfl
    | some b =>
      have inside : (before', rest') ∈ places t := by simp [split, List.mem_reverse.1 mem']
      exact absurd (last before' b ((h _ _).2 ⟨rest', inside, some⟩)) (Nat.not_le.2 beyond)

theorem getLast?_filterMap_places_eq_none_iff (h : ∀ before a, Has before a ↔
    ∃ rest, (before, rest) ∈ places t ∧ f (before, rest) = some a) :
    ((places t).filterMap f).getLast? = none ↔ ∀ before a, ¬ Has before a := by
  rw [List.getLast?_eq_none_iff, List.filterMap_eq_nil_iff]
  constructor
  · intro none before a has
    obtain ⟨rest, mem, found⟩ := (h _ _).1 has
    cases (none _ mem).symm.trans found
  · rintro none ⟨before, rest⟩ mem
    rw [Option.eq_none_iff_forall_ne_some]
    intro a found
    exact none before a ((h _ _).2 ⟨rest, mem, found⟩)

end Last

/-! ### On one side of a place -/

/-- A text without `c` does not stand across a `c`. -/
theorem infix_append_cons {s : Text} {c : Char} (h : c ∉ p) (inside : p <:+: s ++ c :: t) :
    p <:+: s ∨ p <:+: t := by
  obtain ⟨front, back, split⟩ := inside
  rw [List.append_assoc, List.append_eq_append_iff] at split
  rcases split with ⟨more, rfl, split⟩ | ⟨more, rfl, split⟩
  · rw [List.append_eq_append_iff] at split
    rcases split with ⟨more, rfl, -⟩ | ⟨more, rfl, split⟩
    · exact Or.inl ⟨front, more, by simp⟩
    · cases more with
      | nil => exact Or.inl ⟨front, [], by simp⟩
      | cons d more =>
        obtain ⟨rfl, -⟩ := List.cons_eq_cons.1 split
        simp at h
  · cases more with
    | nil =>
      cases p with
      | nil => exact Or.inl List.nil_infix
      | cons d p =>
        obtain ⟨rfl, -⟩ := List.cons_eq_cons.1 split
        simp at h
    | cons d more =>
      obtain ⟨rfl, rfl⟩ := List.cons_eq_cons.1 split
      exact Or.inr ⟨more, back, by simp⟩

/-- What comes before a later place goes on behind the character at this one. -/
theorem exists_between {s : Text} {c : Char} (split : s ++ c :: t = before ++ rest)
    (later : s.length < before.length) :
    ∃ between, before = s ++ c :: between ∧ t = between ++ rest := by
  rcases List.append_eq_append_iff.1 split with ⟨between, rfl, behind⟩ | ⟨between, rfl, -⟩
  · cases between with
    | nil => simp at later
    | cons d between =>
      rw [List.cons_append, List.cons_eq_cons] at behind
      obtain ⟨rfl, behind⟩ := behind
      exact ⟨between, rfl, behind⟩
  · rw [List.length_append] at later
    omega

/-! ### The first place -/

theorem breakAtFrom_eq (p : Text → Bool) (passed t : Text) : breakAtFrom p passed t =
    (passed.reverse ++ (breakAt p t).1, (breakAt p t).2) := by
  induction t generalizing passed with
  | nil => simp [breakAt, breakAtFrom]
  | cons c t ih =>
    simp only [breakAt, breakAtFrom]
    split
    · simp
    · rw [ih, ih [c]]
      simp

@[simp] theorem breakAt_nil (p : Text → Bool) : breakAt p [] = ([], []) := rfl

theorem breakAt_cons (p : Text → Bool) (c : Char) (t : Text) : breakAt p (c :: t) =
    if p (c :: t) then ([], c :: t) else (c :: (breakAt p t).1, (breakAt p t).2) := by
  rw [breakAt, breakAtFrom]
  split
  · rfl
  · rw [breakAtFrom_eq]
    rfl

/-- The text is cut at the first place where the test succeeds, and at its end if there is none. -/
theorem breakAt_eq_iff {p : Text → Bool} : breakAt p t = (before, rest) ↔
    t = before ++ rest ∧ (∀ i < before.length, p (t.drop i) = false) ∧
      (rest = [] ∨ p rest = true) := by
  induction t generalizing before with
  | nil =>
    simp only [breakAt_nil, Prod.mk.injEq, List.nil_eq, List.append_eq_nil_iff]
    constructor
    · rintro ⟨rfl, rfl⟩
      simp
    · rintro ⟨⟨rfl, rfl⟩, -⟩
      simp
  | cons c t ih =>
    rw [breakAt_cons]
    split
    · next here =>
      simp only [Prod.mk.injEq]
      constructor
      · rintro ⟨rfl, rfl⟩
        simp [here]
      · rintro ⟨split, first, -⟩
        cases before with
        | nil => exact ⟨rfl, split⟩
        | cons d before =>
          have := first 0 (by simp)
          simp [here] at this
    · next here =>
      cases before with
      | nil =>
        simp only [Prod.mk.injEq, reduceCtorEq, false_and, List.nil_append, false_iff]
        rintro ⟨rfl, -, stop⟩
        simp [here] at stop
      | cons d before =>
        rw [Prod.mk.injEq, List.cons_eq_cons, and_assoc, List.cons_append, List.cons_eq_cons,
          and_assoc, ← Prod.mk.injEq, ih]
        refine and_congr_right fun _ => and_congr_right fun _ => and_congr_left fun _ => ?_
        constructor
        · rintro first (_ | i) hi
          · simpa using here
          · exact first i (Nat.lt_of_succ_lt_succ hi)
        · intro first i hi
          exact first (i + 1) (Nat.succ_lt_succ hi)

theorem isPrefixOf_eq_false_iff : p.isPrefixOf t = false ↔ ¬ p <+: t := by
  rw [← List.isPrefixOf_iff_prefix, Bool.not_eq_true]

theorem breakOn_eq_some_iff : breakOn p t = some (before, after) ↔
    t = before ++ p ++ after ∧ ∀ i < before.length, ¬ p <+: t.drop i := by
  have cut : breakAt p.isPrefixOf t = (before, p ++ after) ↔
      t = before ++ p ++ after ∧ ∀ i < before.length, ¬ p <+: t.drop i := by
    simp only [breakAt_eq_iff, isPrefixOf_eq_false_iff, List.append_assoc]
    simp
  rw [← cut, breakOn]
  simp only [Option.map_eq_some_iff, Prod.mk.injEq, List.isPrefixOf?_eq_some_iff_append_eq]
  constructor
  · rintro ⟨rest, found, rfl, rfl⟩
    rw [found]
  · intro same
    exact ⟨after, by rw [same], by rw [same], rfl⟩

theorem breakOn_eq_none_iff (h : p ≠ []) : breakOn p t = none ↔ ¬ p <:+: t := by
  rw [← not_iff_not, not_not, ← ne_eq, Option.ne_none_iff_exists']
  constructor
  · rintro ⟨⟨before, after⟩, found⟩
    exact ⟨before, after, (breakOn_eq_some_iff.1 found).1.symm⟩
  · rintro ⟨before, after, inside⟩
    obtain ⟨front, found, cut⟩ : ∃ front found, breakAt p.isPrefixOf t = (front, found) :=
      ⟨_, _, rfl⟩
    obtain ⟨split, first, rfl | stop⟩ := breakAt_eq_iff.1 cut
    · -- The occurrence would start before the end of the text.
      obtain rfl : t = front := by simpa using split
      have size := congrArg List.length inside
      have := List.length_pos_of_ne_nil h
      simp only [List.length_append] at size
      have starts : p <+: t.drop before.length := by simp [← inside]
      exact absurd starts (isPrefixOf_eq_false_iff.1 (first before.length (by omega)))
    · obtain ⟨rest, rfl⟩ := List.isPrefixOf_iff_prefix.1 stop
      refine ⟨(front, rest), breakOn_eq_some_iff.2 ⟨by simp [split], fun i hi => ?_⟩⟩
      exact isPrefixOf_eq_false_iff.1 (first i hi)

/-! ### Occurrences without overlap -/

/-- What comes before and after each occurrence of a text, where the search goes on behind an
occurrence; `skip` characters of one that has begun are still to be passed over. -/
def occurrencesFrom (p : Text) : (skip : Nat) → (passed : Text) → Text → List (Text × Text)
  | _, _, [] => []
  | skip + 1, passed, c :: rest => occurrencesFrom p skip (passed ++ [c]) rest
  | 0, passed, c :: rest =>
    match after? p (c :: rest) with
    | some after => (passed, after) :: occurrencesFrom p (p.length - 1) (passed ++ [c]) rest
    | none => occurrencesFrom p 0 (passed ++ [c]) rest

def occurrences (p t : Text) : List (Text × Text) := occurrencesFrom p 0 [] t

/-- No end of the text is the start of it, so its occurrences do not overlap. -/
def Unbordered (p : Text) : Prop := ∀ k < p.length, 0 < k → ¬ p.drop k <+: p

instance (p : Text) : Decidable (Unbordered p) :=
  inferInstanceAs (Decidable (∀ k < p.length, _))

/-- Inside an occurrence no other one begins. -/
theorem Unbordered.not_prefix_drop (h : Unbordered p) {k : Nat} (starts : p <+: t) (pos : 0 < k)
    (inside : k < p.length) : ¬ p <+: t.drop k := by
  obtain ⟨after, rfl⟩ := starts
  intro again
  rw [List.drop_append_of_le_length (by omega)] at again
  refine h k inside pos (List.prefix_of_prefix_length_le (List.prefix_append _ after) again ?_)
  simp

/-- What comes before and after an occurrence at a place. -/
def occurrenceAt? (p : Text) : Text × Text → Option (Text × Text)
  | (before, rest) => (after? p rest).map (before, ·)

/-- Where no occurrence begins among the characters to be passed over, none is missed. -/
theorem occurrencesFrom_eq (h : Unbordered p) (clear : ∀ k < skip, ¬ p <+: t.drop k) :
    occurrencesFrom p skip passed t = (placesFrom passed t).filterMap (occurrenceAt? p) := by
  induction t generalizing skip passed with
  | nil => simp [occurrencesFrom, placesFrom]
  | cons c rest ih =>
    rw [placesFrom, List.filterMap_cons, occurrenceAt?]
    cases skip with
    | succ skip =>
      have none : after? p (c :: rest) = none :=
        Option.eq_none_iff_forall_ne_some.2 fun after found =>
          clear 0 (Nat.succ_pos skip) ⟨after, List.isPrefixOf?_eq_some_iff_append_eq.1 found⟩
      rw [occurrencesFrom, none, Option.map_none]
      exact ih fun k hk => clear (k + 1) (Nat.succ_lt_succ hk)
    | zero =>
      rw [occurrencesFrom]
      split
      · next after found =>
        rw [found, Option.map_some, ih]
        intro k hk
        have starts : p <+: c :: rest := ⟨after, List.isPrefixOf?_eq_some_iff_append_eq.1 found⟩
        exact h.not_prefix_drop (k := k + 1) starts (Nat.succ_pos k) (by omega)
      · next none =>
        rw [none, Option.map_none]
        exact ih fun k hk => absurd hk (Nat.not_lt_zero k)

/-- Without overlaps, the search finds what stands at each place. -/
theorem occurrences_eq (h : Unbordered p) (t : Text) :
    occurrences p t = (places t).filterMap (occurrenceAt? p) :=
  occurrencesFrom_eq h fun k hk => absurd hk (Nat.not_lt_zero k)

theorem mem_occurrences (h : Unbordered p) (any : p ≠ []) :
    (before, after) ∈ occurrences p t ↔ t = before ++ p ++ after := by
  simp only [occurrences_eq h, List.mem_filterMap, occurrenceAt?, Option.map_eq_some_iff,
    Prod.exists, mem_places, Prod.mk.injEq, after?, List.isPrefixOf?_eq_some_iff_append_eq]
  constructor
  · rintro ⟨_, _, ⟨rfl, -⟩, _, rfl, rfl, rfl⟩
    exact (List.append_assoc ..).symm
  · rintro rfl
    exact ⟨before, p ++ after, ⟨List.append_assoc .., by simp [any]⟩, after, rfl, rfl, rfl⟩

end IslDocs.Text
