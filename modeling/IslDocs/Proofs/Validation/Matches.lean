import IslDocs.Proofs.Text.Trim
import IslDocs.Validation.Entity
import Mathlib.Data.List.TakeWhile

/-! References found without overlap. A search that goes on behind each name it has read, whether or
not a delimiter follows, passes over no other reference, since neither a brace nor a comma stands in
what it has read. -/

namespace IslDocs.Entity

variable {t s name after : Text}

def isMark (c : Char) : Bool := c == '\x7b' || c == ','

/-- The name behind a mark and what comes behind the name, brackets passed over. White space, name
and brackets are each as long as they can be. -/
def read? (t : Text) : Option (Text × Text) :=
  let t := Text.trimStart t
  let name := t.takeWhile Char.isAlpha
  let rest := t.dropWhile Char.isAlpha
  if name.head?.any Char.isUpper && 1 < name.length then
    some (name, (Text.after? "[]".toList rest).getD rest)
  else none

def delimited? : Text × Text → Option Text
  | (name, after) => if atDelimiter after then some name else none

theorem nameAfter?_eq (t : Text) : nameAfter? t = (read? t).bind delimited? := by
  simp only [nameAfter?, read?]
  generalize (Text.trimStart t).takeWhile Char.isAlpha = name
  generalize (Text.trimStart t).dropWhile Char.isAlpha = rest
  by_cases named : (name.head?.any Char.isUpper && decide (1 < name.length)) = true
  · simp [named, delimited?]
  · simp [named]

theorem isMark_eq_false {c : Char}
    (h : Text.isSpace c = true ∨ c.isAlpha = true ∨ c = '[' ∨ c = ']') : isMark c = false := by
  rw [isMark, Bool.or_eq_false_iff, beq_eq_false_iff_ne, beq_eq_false_iff_ne]
  constructor <;> rintro rfl <;> revert h <;> decide

theorem exists_brackets (rest : Text) : ∃ brackets,
    rest = brackets ++ (Text.after? "[]".toList rest).getD rest ∧
      ∀ c ∈ brackets, isMark c = false := by
  cases found : Text.after? "[]".toList rest with
  | none => exact ⟨[], rfl, by simp⟩
  | some after =>
    rw [Text.after?, List.isPrefixOf?_eq_some_iff_append_eq] at found
    refine ⟨"[]".toList, found.symm, fun c hc => isMark_eq_false (Or.inr (Or.inr ?_))⟩
    simpa using hc

/-- No mark is among what has been read. -/
theorem exists_of_read? (h : read? t = some (name, after)) :
    ∃ passed, t = passed ++ after ∧ ∀ c ∈ passed, isMark c = false := by
  simp only [read?, Option.ite_none_right_eq_some, Option.some.injEq, Prod.mk.injEq] at h
  obtain ⟨-, -, rfl⟩ := h
  obtain ⟨brackets, cut, unmarked⟩ := exists_brackets ((Text.trimStart t).dropWhile Char.isAlpha)
  refine ⟨t.takeWhile Text.isSpace ++ (Text.trimStart t).takeWhile Char.isAlpha ++ brackets, ?_, ?_⟩
  · rw [List.append_assoc, ← cut, List.append_assoc, List.takeWhile_append_dropWhile,
      Text.trimStart, List.takeWhile_append_dropWhile]
  · intro c hc
    rcases List.mem_append.1 hc with hc | hc
    · rcases List.mem_append.1 hc with hc | hc
      · exact isMark_eq_false (Or.inl (List.mem_takeWhile_imp hc))
      · exact isMark_eq_false (Or.inr (Or.inl (List.mem_takeWhile_imp hc)))
    · exact unmarked c hc

theorem references_append (h : ∀ c ∈ s, isMark c = false) (t : Text) :
    references (s ++ t) = references t := by
  induction s with
  | nil => rfl
  | cons c s ih =>
    have plain : (c == '\x7b' || c == ',') = false := h c List.mem_cons_self
    rw [List.cons_append, references, plain, if_neg Bool.false_ne_true]
    exact ih fun d hd => h d (List.mem_cons_of_mem c hd)

theorem references_cons (c : Char) (rest : Text) : references (c :: rest) =
    (if isMark c then (nameAfter? rest).toList else []) ++ references rest := by
  rw [references, ← isMark]
  split
  · cases nameAfter? rest <;> rfl
  · rfl

/-- The names behind marks, each with what comes behind it, where the search goes on. -/
def scan : Text → List (Text × Text)
  | [] => []
  | c :: rest =>
    if isMark c then
      match _ : read? rest with
      | some (name, after) => (name, after) :: scan after
      | none => scan rest
    else scan rest
termination_by t => t.length
decreasing_by
  · obtain ⟨passed, rfl, -⟩ := exists_of_read? ‹read? rest = _›
    rw [List.length_cons, List.length_append]
    omega
  · simp
  · simp

/-- The search finds each reference, and a name without a delimiter hides none. -/
theorem references_eq_scan (t : Text) : references t = (scan t).filterMap delimited? := by
  fun_induction scan t with
  | case1 => rfl
  | case2 c rest mark name after found ih =>
    obtain ⟨passed, rfl, unmarked⟩ := exists_of_read? found
    rw [references_cons, if_pos mark, nameAfter?_eq, found, references_append unmarked, ih,
      Option.bind_some, List.filterMap_cons]
    cases delimited? (name, after) <;> rfl
  | case3 c rest mark none ih =>
    simp [references_cons, mark, nameAfter?_eq, none, ih]
  | case4 c rest plain ih => rw [references_cons, if_neg plain, ih, List.nil_append]

example : references "\x7bProduct,Coupon] and , \x7bCart[]: x, y,Order[],Id".toList =
    ["Product".toList, "Cart".toList, "Order".toList] := by decide

end IslDocs.Entity
