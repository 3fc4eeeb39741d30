import IslDocs.Text.Space
import IslDocs.Proofs.Text.Lines
import Mathlib.Data.List.DropRight

/-! White space at the ends of a text. Of a text made of lines, trimming takes off whole blank
lines, the white space at the start of one line and that at the end of one. What is left has the
first line that is not blank, and lines after it as they were but for white space at their ends. -/

namespace IslDocs.Text

variable {s t line last : Text} {ls blank more : List Text}

/-! ### Ends of a text -/

theorem isBlank_iff : isBlank t = true ↔ ∀ c ∈ t, isSpace c = true := List.all_eq_true

@[simp] theorem isBlank_append (s t : Text) : isBlank (s ++ t) = (isBlank s && isBlank t) :=
  List.all_append

@[simp] theorem trimStart_eq_nil_iff : trimStart t = [] ↔ isBlank t = true := by
  rw [trimStart, List.dropWhile_eq_nil_iff, isBlank_iff]

@[simp] theorem trimEnd_eq_nil_iff : trimEnd t = [] ↔ isBlank t = true := by
  rw [isBlank_iff]
  exact List.rdropWhile_eq_nil_iff

theorem trimStart_eq_self_iff : trimStart t = t ↔ startsWithSpace t = false := by
  cases t with
  | nil => simp [trimStart, startsWithSpace]
  | cons c rest => simp [trimStart, List.dropWhile_eq_self_iff, startsWithSpace]

theorem trimStart_append_of_blank (h : isBlank s = true) (t : Text) :
    trimStart (s ++ t) = trimStart t :=
  List.dropWhile_append_of_pos (isBlank_iff.1 h)

theorem trimStart_append_of_not_blank (h : isBlank s = false) (t : Text) :
    trimStart (s ++ t) = trimStart s ++ t := by
  have left : (s.dropWhile isSpace).isEmpty = false := by
    rw [List.isEmpty_eq_false_iff]
    exact fun none => by simp [trimStart_eq_nil_iff.1 none] at h
  rw [trimStart, List.dropWhile_append, left]
  rfl

theorem reverse_trimEnd (t : Text) : (trimEnd t).reverse = trimStart t.reverse :=
  List.reverse_reverse _

theorem trimEnd_append_of_blank (s : Text) (h : isBlank t = true) :
    trimEnd (s ++ t) = trimEnd s := by
  have h' : isBlank t.reverse = true := by simpa [isBlank] using h
  simp [← List.reverse_inj, reverse_trimEnd, trimStart_append_of_blank h']

theorem trimEnd_append_of_not_blank (s : Text) (h : isBlank t = false) :
    trimEnd (s ++ t) = s ++ trimEnd t := by
  have h' : isBlank t.reverse = false := by simpa [isBlank] using h
  simp [← List.reverse_inj, reverse_trimEnd, trimStart_append_of_not_blank h']

theorem trimEnd_isPrefix (t : Text) : trimEnd t <+: t := List.rdropWhile_prefix isSpace t

theorem exists_trimEnd_append (t : Text) : ∃ space, isBlank space = true ∧ trimEnd t ++ space = t :=
  ⟨t.rtakeWhile isSpace, isBlank_iff.2 fun _ => List.mem_rtakeWhile_imp,
    List.rdropWhile_append_rtakeWhile⟩

@[simp] theorem trimEnd_trimEnd (t : Text) : trimEnd (trimEnd t) = trimEnd t :=
  List.rdropWhile_idempotent isSpace t

theorem trimEnd_eq_self_iff : trimEnd t = t ↔ ∀ c, t.getLast? = some c → isSpace c = false := by
  rcases List.eq_nil_or_concat' t with rfl | ⟨rest, last, rfl⟩
  · simp [trimEnd, dropEndWhile]
  · rw [trimEnd, dropEndWhile, ← List.rdropWhile, List.rdropWhile_eq_self_iff]
    simp

theorem trimEnd_of_suffix (h : s <:+ t) (done : trimEnd t = t) : trimEnd s = s := by
  obtain ⟨before, rfl⟩ := h
  refine trimEnd_eq_self_iff.2 fun c last => trimEnd_eq_self_iff.1 done c ?_
  simp [last]

@[simp] theorem startsWithSpace_trimStart (t : Text) : startsWithSpace (trimStart t) = false :=
  trimStart_eq_self_iff.1 (List.dropWhile_idempotent isSpace t)

theorem startsWithSpace_of_prefix (h : s <+: t) (start : startsWithSpace t = false) :
    startsWithSpace s = false := by
  obtain ⟨rest, rfl⟩ := h
  cases s with
  | nil => rfl
  | cons c more => exact start

@[simp] theorem startsWithSpace_trim (t : Text) : startsWithSpace (trim t) = false :=
  startsWithSpace_of_prefix (trimEnd_isPrefix _) (startsWithSpace_trimStart t)

@[simp] theorem trimEnd_trim (t : Text) : trimEnd (trim t) = trim t := trimEnd_trimEnd _

theorem trim_eq_self (start : startsWithSpace t = false) (done : trimEnd t = t) : trim t = t := by
  rw [trim, trimStart_eq_self_iff.2 start, done]

@[simp] theorem trim_trim (t : Text) : trim (trim t) = trim t :=
  trim_eq_self (startsWithSpace_trim t) (trimEnd_trim t)

@[simp] theorem isBlank_trimStart (t : Text) : isBlank (trimStart t) = isBlank t := by
  rw [Bool.eq_iff_iff, ← trimStart_eq_nil_iff, ← trimStart_eq_nil_iff,
    trimStart_eq_self_iff.2 (startsWithSpace_trimStart t)]

theorem startsWithSpace_append (h : s ≠ []) (t : Text) :
    startsWithSpace (s ++ t) = startsWithSpace s := by
  obtain ⟨c, rest, rfl⟩ := List.exists_cons_of_ne_nil h
  rfl

@[simp] theorem trim_eq_nil_iff : trim t = [] ↔ isBlank t = true := by
  simp [trim]

theorem trim_append_of_blank (s : Text) (h : isBlank t = true) : trim (s ++ t) = trim s := by
  cases blank : isBlank s with
  | true =>
    have both : isBlank (s ++ t) = true := by simp [blank, h]
    rw [trim_eq_nil_iff.2 both, trim_eq_nil_iff.2 blank]
  | false =>
    rw [trim, trimStart_append_of_not_blank blank, trimEnd_append_of_blank _ h, trim]

@[simp] theorem trim_trimEnd (t : Text) : trim (trimEnd t) = trim t := by
  obtain ⟨space, blank, split⟩ := exists_trimEnd_append t
  rw [← trim_append_of_blank (trimEnd t) blank, split]

theorem dropEndWhile_sublist (p : Char → Bool) (t : Text) : (dropEndWhile p t).Sublist t :=
  (List.rdropWhile_prefix p t).sublist

theorem trimStart_sublist (t : Text) : (trimStart t).Sublist t := List.dropWhile_sublist isSpace

theorem trim_sublist (t : Text) : (trim t).Sublist t :=
  (dropEndWhile_sublist isSpace _).trans (trimStart_sublist t)

@[simp] theorem trimEnd_dropReturn (line : Text) : trimEnd (dropReturn line) = trimEnd line := by
  rw [dropReturn]
  split
  · rename_i return_last
    obtain ⟨rest, rfl⟩ := List.getLast?_eq_some_iff.1 return_last
    rw [List.dropLast_concat]
    exact (trimEnd_append_of_blank rest (by decide)).symm
  · rfl

/-! ### Texts made of lines -/

@[simp] theorem isBlank_unlines (ls : List Text) : isBlank (unlines ls) = ls.all isBlank := by
  induction ls with
  | nil => rfl
  | cons line rest ih =>
    rcases eq_or_ne rest [] with rfl | more
    · simp
    · rw [unlines_cons line more, isBlank_append, List.all_cons, ← ih]
      rfl

theorem trimStart_unlines (before : ∀ b ∈ blank, isBlank b = true) (h : isBlank line = false) :
    trimStart (unlines (blank ++ line :: more)) = unlines (trimStart line :: more) := by
  induction blank with
  | nil =>
    rcases eq_or_ne more [] with rfl | any
    · simp
    · simp [unlines_cons _ any, trimStart_append_of_not_blank h]
  | cons b rest ih =>
    have blank_feed : isBlank (b ++ ['\n']) = true := by
      rw [isBlank_append, before b List.mem_cons_self]
      rfl
    rw [List.cons_append, unlines_cons b (by simp), ← List.singleton_append, ← List.append_assoc,
      trimStart_append_of_blank blank_feed]
    exact ih fun b' h' => before b' (List.mem_cons_of_mem _ h')

theorem trimEnd_unlines_concat_of_blank (ls : List Text) (h : isBlank last = true) :
    trimEnd (unlines (ls ++ [last])) = trimEnd (unlines ls) := by
  rcases eq_or_ne ls [] with rfl | any
  · simp [trimEnd_eq_nil_iff.2 h]
  · have blank_feed : isBlank ('\n' :: last) = true := h
    rw [unlines_concat any, trimEnd_append_of_blank _ blank_feed]

theorem trimEnd_unlines_concat_of_not_blank (ls : List Text) (h : isBlank last = false) :
    trimEnd (unlines (ls ++ [last])) = unlines (ls ++ [trimEnd last]) := by
  rcases eq_or_ne ls [] with rfl | any
  · simp
  · rw [unlines_concat any, unlines_concat any, List.append_cons, trimEnd_append_of_not_blank _ h,
      ← List.append_cons]

/-- White space at the end of the last line is trimmed off with what comes before it. -/
theorem trim_unlines_concat_congr (same : trimEnd line = trimEnd last) (ls : List Text) :
    trim (unlines (ls ++ [line])) = trim (unlines (ls ++ [last])) := by
  have ends : trimEnd (unlines (ls ++ [line])) = trimEnd (unlines (ls ++ [last])) := by
    cases blank : isBlank line with
    | true =>
      have blank' : isBlank last = true := by
        rw [← trimEnd_eq_nil_iff, ← same, trimEnd_eq_nil_iff, blank]
      rw [trimEnd_unlines_concat_of_blank ls blank, trimEnd_unlines_concat_of_blank ls blank']
    | false =>
      have filled : isBlank last = false := by
        rw [← Bool.not_eq_true, ← trimEnd_eq_nil_iff, ← same, trimEnd_eq_nil_iff, blank]
        exact Bool.false_ne_true
      rw [trimEnd_unlines_concat_of_not_blank ls blank,
        trimEnd_unlines_concat_of_not_blank ls filled, same]
  rw [← trim_trimEnd, ends, trim_trimEnd]

@[simp] theorem trim_unlines_concat_nil (ls : List Text) :
    trim (unlines (ls ++ [[]])) = trim (unlines ls) := by
  rw [← trim_trimEnd, trimEnd_unlines_concat_of_blank ls rfl, trim_trimEnd]

/-- What trimming leaves at the end has lines from the front, apart from white space at their
ends. -/
theorem lines_trimEnd_unlines (h : ∀ l ∈ ls, '\n' ∉ l) :
    (lines (trimEnd (unlines ls))).map trimEnd <+: ls.map trimEnd := by
  induction ls using List.reverseRecOn with
  | nil => exact List.prefix_rfl
  | append_singleton ls last ih =>
    rw [List.map_append]
    cases blank : isBlank last with
    | true =>
      rw [trimEnd_unlines_concat_of_blank ls blank]
      exact (ih fun l hl => h l (List.mem_append_left _ hl)).trans (List.prefix_append _ _)
    | false =>
      have feedless : ∀ l ∈ ls ++ [trimEnd last], '\n' ∉ l := by
        intro l hl inside
        rcases List.mem_append.1 hl with hl | hl
        · exact h l (List.mem_append_left _ hl) inside
        · rw [List.mem_singleton.1 hl] at inside
          exact h last (by simp) ((trimEnd_isPrefix last).subset inside)
      have any : trimEnd last ≠ [] := fun none => by simp [trimEnd_eq_nil_iff.1 none] at blank
      rw [trimEnd_unlines_concat_of_not_blank ls blank, lines_unlines_concat feedless any]
      simp [Function.comp_def]

end IslDocs.Text
