import IslDocs.Proofs.Text.Lines
import IslDocs.Proofs.Text.Search
import IslDocs.Proofs.Text.Trim
import IslDocs.Reference.Line
import Mathlib.Algebra.Group.Nat.Even

/-! What is a reference line. Behind its opening stands a rest, and the target is a candidate of the
rest: its last link target or, where it has none, its last backtick span. Each place of the rest is
looked at for a link target and for a span, so that the last is that at the last place. -/

namespace IslDocs.Reference

open Text (IsLast isBlank places placesFrom trim)

variable {t u v x y l line before passed target span after tail c r s : Text}

/-! ### Link targets -/

/-- The closing bracket after `before` has a link target behind it, and `tail` what is left. -/
structure Link (t before target tail : Text) : Prop where
  split : t = before ++ "](".toList ++ target ++ tail
  opened : '[' ∈ before
  any : target ≠ []
  run : ∀ c ∈ target, endsTarget c = false
  /-- The run of the target goes no further. -/
  ended : ∀ c, tail.head? = some c → endsTarget c = true
  closed : ')' ∈ tail

def LinkAt (t before target : Text) : Prop := ∃ tail, Link t before target tail

theorem linkTarget?_eq_some_iff : linkTarget? t = some target ↔ ∃ tail, t = target ++ tail ∧
    target ≠ [] ∧ (∀ c ∈ target, endsTarget c = false) ∧
      (∀ c, tail.head? = some c → endsTarget c = true) ∧ ')' ∈ tail := by
  constructor
  · intro h
    simp only [linkTarget?, Option.ite_none_left_eq_some, Option.some.injEq, Bool.or_eq_true,
      not_or, List.isEmpty_iff, Bool.not_eq_true', Bool.not_eq_false, List.contains_iff_mem] at h
    obtain ⟨⟨any, closed⟩, rfl⟩ := h
    refine ⟨_, List.takeWhile_append_dropWhile.symm, any, fun c hc => ?_, fun c hc => ?_, closed⟩
    · simpa using List.mem_takeWhile_imp hc
    · simpa [hc] using List.head?_dropWhile_not (fun c => !endsTarget c) t
  · rintro ⟨tail, rfl, any, run, ended, closed⟩
    have run' : ∀ c ∈ target, (!endsTarget c) = true := by simpa using run
    obtain ⟨c, tail, rfl⟩ := List.exists_cons_of_ne_nil (List.ne_nil_of_mem closed)
    have stop : (!endsTarget c) = false := by simpa using ended c rfl
    rw [linkTarget?, List.takeWhile_append_of_pos run', List.dropWhile_append_of_pos run',
      List.takeWhile_cons_of_neg (by simp [stop]), List.dropWhile_cons_of_neg (by simp [stop])]
    simp only [List.append_nil]
    rw [if_neg]
    simp [any, closed]

/-- The link target at a place. -/
def linkAt? : Text × Text → Option Text
  | (before, rest) =>
    if '[' ∈ before then (Text.after? "](".toList rest).bind linkTarget? else none

theorem linkTargets_eq (passed t : Text) :
    linkTargets (decide ('[' ∈ passed)) t = (placesFrom passed t).filterMap linkAt? := by
  induction t generalizing passed with
  | nil => rfl
  | cons c rest ih =>
    have opened : decide ('[' ∈ passed ++ [c]) = (decide ('[' ∈ passed) || c == '[') := by
      rw [Bool.eq_iff_iff]
      simp [@eq_comm _ c]
    simp only [linkTargets, placesFrom, decide_eq_true_eq, ← opened]
    rw [← linkAt?]
    split
    · next target found =>
      have inside : '[' ∈ passed := by
        by_contra outside
        simp [linkAt?, outside] at found
      rw [List.filterMap_cons_some found, ← ih]
      simp [inside]
    · next none => rw [List.filterMap_cons_none none, ← ih]

theorem linkAt_iff : LinkAt t before target ↔
    ∃ rest, (before, rest) ∈ places t ∧ linkAt? (before, rest) = some target := by
  simp only [linkAt?, Text.mem_places, Option.ite_none_right_eq_some, Option.bind_eq_some_iff,
    Text.after?, List.isPrefixOf?_eq_some_iff_append_eq, linkTarget?_eq_some_iff]
  constructor
  · rintro ⟨tail, split, opened, any, run, ended, closed⟩
    exact ⟨"](".toList ++ (target ++ tail), ⟨by simp [split], by simp⟩, opened, target ++ tail, rfl,
      tail, rfl, any, run, ended, closed⟩
  · rintro ⟨rest, ⟨rfl, -⟩, opened, after, rfl, tail, rfl, any, run, ended, closed⟩
    exact ⟨tail, by simp, opened, any, run, ended, closed⟩

theorem lastLink?_eq (t : Text) : lastLink? t = ((places t).filterMap linkAt?).getLast? :=
  congrArg List.getLast? (linkTargets_eq [] t)

theorem lastLink?_eq_some_iff : lastLink? t = some target ↔ IsLast (LinkAt t) target := by
  rw [lastLink?_eq]
  exact Text.getLast?_filterMap_places_eq_some_iff fun _ _ => linkAt_iff

theorem lastLink?_eq_none_iff :
    lastLink? t = none ↔ ∀ before target, ¬ LinkAt t before target := by
  rw [lastLink?_eq]
  exact Text.getLast?_filterMap_places_eq_none_iff fun _ _ => linkAt_iff

/-! ### Backtick spans -/

/-- The backtick after `before` opens a span, which the next backtick closes. -/
structure Span (t before span after : Text) : Prop where
  split : t = before ++ '\x60' :: span ++ '\x60' :: after
  outside : Even (before.count '\x60')
  plain : '\x60' ∉ span

/-- A span that is not blank is opened after `before`. -/
def SpanAt (t before span : Text) : Prop := isBlank span = false ∧ ∃ after, Span t before span after

/-- The first of the pieces between backticks, if another piece follows it. -/
def firstPiece? : List Text → Option Text
  | piece :: _ :: _ => some piece
  | _ => none

theorem firstPiece?_splitOn_eq_some_iff : firstPiece? (t.splitOn '\x60') = some span ↔
    '\x60' ∉ span ∧ ∃ after, t = span ++ '\x60' :: after := by
  constructor
  · intro h
    unfold firstPiece? at h
    split at h
    · next piece next rest pieces =>
      obtain rfl := Option.some.inj h
      have whole : ['\x60'].intercalate (t.splitOn '\x60') = t := List.intercalate_splitOn '\x60'
      rw [pieces, List.intercalate_cons_cons] at whole
      refine ⟨(Path.of_mem_splitOn (pieces ▸ List.mem_cons_self)).1,
        ['\x60'].intercalate (next :: rest), ?_⟩
      simpa using whole.symm
    · cases h
  · rintro ⟨plain, after, rfl⟩
    obtain ⟨next, rest, pieces⟩ := List.exists_cons_of_ne_nil (List.splitOn_ne_nil '\x60' after)
    rw [List.splitOn_append_cons_self, List.splitOn_eq_singleton plain, pieces]
    rfl

/-- The span that is opened at a place. -/
def spanAt? : Text × Text → Option Text
  | (before, rest) =>
    if Even (before.count '\x60') then
      (Text.after? "\x60".toList rest).bind fun after => firstPiece? (after.splitOn '\x60')
    else none

theorem closedSpans_modifyHead (f : Text → Text) (pieces : List Text) :
    closedSpans (pieces.modifyHead f) = closedSpans pieces := by
  rcases pieces with _ | ⟨first, _ | ⟨second, _ | ⟨third, rest⟩⟩⟩ <;> rfl

theorem closedSpans_cons (piece : Text) (pieces : List Text) :
    closedSpans (piece :: pieces) = (firstPiece? pieces).toList ++ closedSpans pieces.tail := by
  rcases pieces with _ | ⟨first, _ | ⟨second, rest⟩⟩ <;> rfl

/-- Where a span is still open, its end is the first piece. -/
theorem closedSpans_eq (passed t : Text) :
    closedSpans (if Even (passed.count '\x60') then t.splitOn '\x60' else (t.splitOn '\x60').tail) =
      (placesFrom passed t).filterMap spanAt? := by
  induction t generalizing passed with
  | nil => split <;> rfl
  | cons c rest ih =>
    have later := ih (passed ++ [c])
    rw [placesFrom, List.filterMap_cons, ← later, List.splitOn_cons_eq_if_modifyHead]
    by_cases tick : c = '\x60'
    · subst tick
      by_cases outside : Even (passed.count '\x60')
      · simp only [spanAt?, Text.after?, outside]
        simp [Nat.even_add_one, outside, closedSpans_cons, List.isPrefixOf?]
        cases firstPiece? (rest.splitOn '\x60') <;> rfl
      · simp [outside, Nat.even_add_one, spanAt?]
    · have none : spanAt? (passed, c :: rest) = none := by
        simp [spanAt?, Text.after?, List.isPrefixOf?, Ne.symm tick]
      by_cases outside : Even (passed.count '\x60')
      · simp [none, tick, outside, closedSpans_modifyHead]
      · simp [none, tick, outside]

def filledSpanAt? (place : Text × Text) : Option Text :=
  (spanAt? place).filter fun span => !isBlank span

theorem spanAt_iff : SpanAt t before span ↔
    ∃ rest, (before, rest) ∈ places t ∧ filledSpanAt? (before, rest) = some span := by
  simp only [SpanAt, filledSpanAt?, spanAt?, Text.mem_places, Option.filter_eq_some_iff,
    Option.ite_none_right_eq_some, Option.bind_eq_some_iff, Text.after?,
    List.isPrefixOf?_eq_some_iff_append_eq, firstPiece?_splitOn_eq_some_iff, Bool.not_eq_true']
  constructor
  · rintro ⟨filled, after, split, outside, plain⟩
    exact ⟨'\x60' :: (span ++ '\x60' :: after), ⟨by simp [split], by simp⟩,
      ⟨outside, span ++ '\x60' :: after, rfl, plain, after, rfl⟩, filled⟩
  · rintro ⟨_, ⟨rfl, -⟩, ⟨outside, _, rfl, plain, after, rfl⟩, filled⟩
    exact ⟨filled, after, by simp, outside, plain⟩

theorem lastSpan?_eq (t : Text) :
    lastSpan? t = (((places t).filterMap filledSpanAt?).getLast?).map trim := by
  have spans : closedSpans (t.splitOn '\x60') = (places t).filterMap spanAt? := closedSpans_eq [] t
  rw [lastSpan?, spans, List.filter_filterMap]
  rfl

theorem lastSpan?_eq_some_iff :
    lastSpan? t = some c ↔ ∃ span, IsLast (SpanAt t) span ∧ trim span = c := by
  rw [lastSpan?_eq, Option.map_eq_some_iff]
  refine exists_congr fun span => and_congr_left fun _ => ?_
  exact Text.getLast?_filterMap_places_eq_some_iff fun _ _ => spanAt_iff

theorem lastSpan?_eq_none_iff : lastSpan? t = none ↔ ∀ before span, ¬ SpanAt t before span := by
  rw [lastSpan?_eq, Option.map_eq_none_iff]
  exact Text.getLast?_filterMap_places_eq_none_iff fun _ _ => spanAt_iff

/-! ### Candidates -/

/-- A link target goes before a span, wherever they stand. -/
def Candidate (r c : Text) : Prop :=
  IsLast (LinkAt r) c ∨
    (∀ before target, ¬ LinkAt r before target) ∧ ∃ span, IsLast (SpanAt r) span ∧ trim span = c

theorem candidate?_eq_some_iff : candidate? r = some c ↔ Candidate r c := by
  simp [candidate?, lastLink?_eq_some_iff, lastLink?_eq_none_iff, lastSpan?_eq_some_iff, Candidate]

theorem Candidate.unique {c' : Text} (h : Candidate r c) (h' : Candidate r c') : c' = c := by
  rw [← candidate?_eq_some_iff] at h h'
  exact Option.some.inj (h'.symm.trans h)

theorem Candidate.ne_nil (h : Candidate r c) : c ≠ [] := by
  rcases h with ⟨_, ⟨_, link⟩, -⟩ | ⟨-, span, ⟨-, ⟨filled, -⟩, -⟩, rfl⟩
  · exact link.any
  · intro none
    rw [Text.trim_eq_nil_iff.1 none] at filled
    cases filled

theorem trim_of_run (h : ∀ c ∈ t, endsTarget c = false) : trim t = t := by
  have solid : ∀ c ∈ t, Text.isSpace c = false := by
    intro c hc
    have := h c hc
    simp only [endsTarget, Bool.or_eq_false_iff] at this
    exact this.1.1
  refine Text.trim_eq_self ?_ (Text.trimEnd_eq_self_iff.2 fun c last => ?_)
  · cases t with
    | nil => rfl
    | cons c t => exact solid c List.mem_cons_self
  · exact solid c (List.mem_of_getLast? last)

theorem Candidate.trim_eq (h : Candidate r c) : trim c = c := by
  rcases h with ⟨_, ⟨_, link⟩, -⟩ | ⟨-, span, -, rfl⟩
  · exact trim_of_run link.run
  · exact Text.trim_trim span

/-! ### The last link and the last span -/

/-- A link is the last where no brackets meet behind it. -/
theorem isLast_linkAt (any : t ≠ []) (run : ∀ c ∈ t, endsTarget c = false)
    (inside : ¬ "](".toList <:+: t) (later : ¬ "](".toList <:+: y) :
    IsLast (LinkAt (x ++ '[' :: l ++ "](".toList ++ t ++ ')' :: y)) t := by
  have closer : endsTarget ')' = true := rfl
  refine ⟨x ++ '[' :: l, ⟨')' :: y, by simp, by simp, any, run, by simp [closer], by simp⟩, ?_⟩
  rintro before target ⟨tail, split, -⟩
  by_contra beyond
  -- The brackets would meet behind the closing one before `t`.
  have split' : (x ++ '[' :: l) ++ ']' :: ('(' :: (t ++ ')' :: y)) =
      before ++ ("](".toList ++ target ++ tail) := by simpa using split
  obtain ⟨between, -, behind⟩ := Text.exists_between split' (Nat.lt_of_not_le beyond)
  have meet : "](".toList <:+: '(' :: (t ++ ')' :: y) :=
    ⟨between, target ++ tail, by simp [behind]⟩
  rcases List.infix_cons_iff.1 meet with start | meet
  · simp at start
  · exact (Text.infix_append_cons (by decide) meet).elim inside later

/-- A span is the last where none is opened behind it. -/
theorem isLast_spanAt (filled : isBlank s = false) (outside : Even (x.count '\x60'))
    (plain : '\x60' ∉ s) (later : ∀ before span, ¬ SpanAt y before span) :
    IsLast (SpanAt (x ++ '\x60' :: s ++ '\x60' :: y)) s := by
  refine ⟨x, ⟨filled, y, rfl, outside, plain⟩, ?_⟩
  rintro before span ⟨filled', after, split, outside', plain'⟩
  by_contra beyond
  have split' : x ++ '\x60' :: (s ++ '\x60' :: y) =
      before ++ ('\x60' :: span ++ '\x60' :: after) := by simpa using split
  obtain ⟨between, rfl, behind⟩ := Text.exists_between split' (Nat.lt_of_not_le beyond)
  -- After the first backtick one more is needed before the next span is opened.
  have tick : '\x60' ∈ between := by
    by_contra none
    simp [List.count_eq_zero.2 none, Nat.even_add_one, outside] at outside'
  have longer : s.length < between.length := by
    by_contra shorter
    have start : between <+: s := List.prefix_of_prefix_length_le ⟨_, behind.symm⟩
      (List.prefix_append s _) (Nat.le_of_not_lt shorter)
    exact plain (start.subset tick)
  obtain ⟨more, rfl, behind'⟩ := Text.exists_between behind longer
  refine later more span ⟨filled', after, by simpa using behind', ?_, plain'⟩
  simpa [List.count_eq_zero.2 plain, Nat.even_add_one, Nat.even_add, outside] using outside'

/-! ### Reference lines -/

theorem after?_trimStart_eq_some_iff {p : Text} (any : p ≠ [])
    (start : Text.startsWithSpace p = false) : Text.after? p (Text.trimStart t) = some r ↔
      ∃ u, isBlank u = true ∧ t = u ++ p ++ r := by
  rw [Text.after?, List.isPrefixOf?_eq_some_iff_append_eq]
  constructor
  · intro h
    refine ⟨t.takeWhile Text.isSpace, Text.isBlank_iff.2 fun _ => List.mem_takeWhile_imp, ?_⟩
    rw [List.append_assoc, h]
    exact List.takeWhile_append_dropWhile.symm
  · rintro ⟨u, blank, rfl⟩
    rw [List.append_assoc, Text.trimStart_append_of_blank blank, Text.trimStart_eq_self_iff.2]
    rw [Text.startsWithSpace_append any, start]

theorem afterOpening?_eq_some_iff : afterOpening? line = some r ↔
    ∃ u v, isBlank u = true ∧ isBlank v = true ∧
      line = u ++ '>' :: v ++ "**Reference**".toList ++ r := by
  simp only [afterOpening?, Option.bind_eq_bind, Option.bind_eq_some_iff]
  constructor
  · rintro ⟨quoted, quote, word⟩
    obtain ⟨u, blank, rfl⟩ := (after?_trimStart_eq_some_iff (by simp) rfl).1 quote
    obtain ⟨v, blank', rfl⟩ := (after?_trimStart_eq_some_iff (by simp) rfl).1 word
    exact ⟨u, v, blank, blank', by simp⟩
  · rintro ⟨u, v, blank, blank', rfl⟩
    refine ⟨v ++ "**Reference**".toList ++ r, (after?_trimStart_eq_some_iff (by simp) rfl).2 ?_,
      (after?_trimStart_eq_some_iff (by simp) rfl).2 ⟨v, blank', rfl⟩⟩
    exact ⟨u, blank, by simp⟩

theorem isExternal_eq_false_iff : isExternal c = false ↔
    ¬ "http://".toList <+: c ∧ ¬ "https://".toList <+: c := by
  simp [isExternal, Text.startsWith, Text.isPrefixOf_eq_false_iff]

theorem target?_eq_some_iff : target? line = some c ↔
    ∃ r, afterOpening? line = some r ∧ Candidate r c ∧
      ¬ "http://".toList <+: c ∧ ¬ "https://".toList <+: c := by
  simp only [target?, Option.bind_eq_bind, Option.bind_eq_some_iff, Option.ite_none_left_eq_some,
    Bool.not_eq_true, Option.some.injEq, candidate?_eq_some_iff]
  constructor
  · rintro ⟨r, opened, c, candidate, near, rfl⟩
    exact ⟨r, opened, candidate, isExternal_eq_false_iff.1 near⟩
  · rintro ⟨r, opened, candidate, near⟩
    exact ⟨r, opened, c, candidate, isExternal_eq_false_iff.2 near, rfl⟩

theorem target?_opening (hu : isBlank u = true) (hv : isBlank v = true) :
    target? (u ++ '>' :: v ++ "**Reference**".toList ++ r) = some c ↔
      Candidate r c ∧ ¬ "http://".toList <+: c ∧ ¬ "https://".toList <+: c := by
  have opened : afterOpening? (u ++ '>' :: v ++ "**Reference**".toList ++ r) = some r :=
    afterOpening?_eq_some_iff.2 ⟨u, v, hu, hv, rfl⟩
  rw [target?_eq_some_iff, opened]
  simp

/-- A line has a target exactly if it opens as a reference line and its rest has a candidate that is
not external. In particular the last link target is the target where it is no external one, and the
last span is where there is no link target. -/
theorem target_grammar :
    (∀ line c, target? line = some c ↔ ∃ u v r, isBlank u = true ∧ isBlank v = true ∧
      line = u ++ '>' :: v ++ "**Reference**".toList ++ r ∧ Candidate r c ∧
        ¬ "http://".toList <+: c ∧ ¬ "https://".toList <+: c) ∧
    (∀ r c, Candidate r c → c ≠ [] ∧ trim c = c ∧ ∀ c', Candidate r c' → c' = c) ∧
    (∀ u v r c, isBlank u = true → isBlank v = true → IsLast (LinkAt r) c →
      "http://".toList <+: c ∨ "https://".toList <+: c →
        target? (u ++ '>' :: v ++ "**Reference**".toList ++ r) = none) ∧
    (∀ u v x l t y, isBlank u = true → isBlank v = true → t ≠ [] →
      (∀ c ∈ t, Text.isSpace c = false ∧ c ≠ '"' ∧ c ≠ ')') → ¬ "](".toList <:+: t →
      ¬ "](".toList <:+: y → ¬ "http://".toList <+: t → ¬ "https://".toList <+: t →
        target? (u ++ '>' :: v ++ "**Reference**".toList ++
          (x ++ '[' :: l ++ "](".toList ++ t ++ ')' :: y)) = some t) ∧
    (∀ u v x s y, isBlank u = true → isBlank v = true → isBlank s = false → '\x60' ∉ s →
      Even (x.count '\x60') →
      (∀ before target, ¬ LinkAt (x ++ '\x60' :: s ++ '\x60' :: y) before target) →
      (∀ before span, ¬ SpanAt y before span) →
      ¬ "http://".toList <+: trim s → ¬ "https://".toList <+: trim s →
        target? (u ++ '>' :: v ++ "**Reference**".toList ++
          (x ++ '\x60' :: s ++ '\x60' :: y)) = some (trim s)) := by
  refine ⟨fun line c => ?_, fun r c h => ⟨h.ne_nil, h.trim_eq, fun c' => h.unique⟩, ?_, ?_, ?_⟩
  · rw [target?_eq_some_iff]
    constructor
    · rintro ⟨r, opened, candidate⟩
      obtain ⟨u, v, hu, hv, rfl⟩ := afterOpening?_eq_some_iff.1 opened
      exact ⟨u, v, r, hu, hv, rfl, candidate⟩
    · rintro ⟨u, v, r, hu, hv, rfl, candidate⟩
      exact ⟨r, afterOpening?_eq_some_iff.2 ⟨u, v, hu, hv, rfl⟩, candidate⟩
  · intro u v r c hu hv last external
    rw [Option.eq_none_iff_forall_ne_some]
    intro c' found
    obtain ⟨candidate, near, near'⟩ := (target?_opening hu hv).1 found
    rw [Candidate.unique (Or.inl last) candidate] at near near'
    exact external.elim near near'
  · intro u v x l t y hu hv any run inside later near near'
    have run' : ∀ c ∈ t, endsTarget c = false := fun c hc => by simp [endsTarget, run c hc]
    exact (target?_opening hu hv).2 ⟨Or.inl (isLast_linkAt any run' inside later), near, near'⟩
  · intro u v x s y hu hv filled plain outside linkless later near near'
    have last := isLast_spanAt filled outside plain later
    exact (target?_opening hu hv).2 ⟨Or.inr ⟨linkless, s, last, rfl⟩, near, near'⟩

/-- A link goes before the span behind it and the external link before it, an external one at the
end hides both, and what is no link leaves the span. -/
theorem target_of_mixed_lines :
    target? "\t> **Reference**: [a](http://b) and [c](../d.isl.md) or \x60e\x60 [f".toList =
      some "../d.isl.md".toList ∧
    target? ">**Reference** [a](b.md) \x60c\x60 [d](https://e)".toList = none ∧
    target? "> **Reference**: \x60a\x60 [b]() \x60 c.isl.md \x60 d \x60e".toList =
      some "c.isl.md".toList := by
  obtain ⟨-, -, external, link, span⟩ := target_grammar
  refine ⟨?_, ?_, ?_⟩
  · have plain : "../d.isl.md".toList.all (fun c => !endsTarget c) = true := by decide
    exact link "\t".toList " ".toList ": [a](http://b) and ".toList "c".toList "../d.isl.md".toList
      " or \x60e\x60 [f".toList (by decide) (by decide) (by decide) (by simpa [endsTarget] using plain)
      (by decide) (by decide) (by decide) (by decide)
  · exact external [] [] " [a](b.md) \x60c\x60 [d](https://e)".toList "https://e".toList rfl rfl
      (lastLink?_eq_some_iff.1 (by decide)) (by decide)
  · exact span [] " ".toList ": \x60a\x60 [b]() ".toList " c.isl.md ".toList " d \x60e".toList rfl
      (by decide) (by decide) (by decide) (by decide) (lastLink?_eq_none_iff.1 (by decide))
      (lastSpan?_eq_none_iff.1 (by decide)) (by decide) (by decide)

end IslDocs.Reference
