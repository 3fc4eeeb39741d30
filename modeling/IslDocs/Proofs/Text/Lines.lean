import IslDocs.Text.Lines
import IslDocs.Proofs.Path.Normal

/-! Lines of a text and texts made of lines. The lines that are not empty can be read off a text
without regard to line ends before and after them: they split at every line feed. -/

namespace IslDocs.Text

variable {s t line last : Text} {ls more : List Text} {c : Char}

theorem dropReturn_subset (line : Text) : dropReturn line ⊆ line := by
  rw [dropReturn]
  split
  · exact List.dropLast_subset line
  · exact List.Subset.refl line

theorem feed_notMem_of_mem_linesOfPieces (h : ∀ piece ∈ ls, '\n' ∉ piece)
    (hl : line ∈ linesOfPieces ls) : '\n' ∉ line := by
  fun_induction linesOfPieces ls with
  | case1 => cases hl
  | case2 last empty => cases hl
  | case3 last filled =>
    rw [List.mem_singleton.1 hl]
    exact h last List.mem_cons_self
  | case4 piece rest _ ih =>
    rcases List.mem_cons.1 hl with rfl | hl
    · exact fun inside => h piece List.mem_cons_self (dropReturn_subset piece inside)
    · exact ih (fun piece' h' => h piece' (List.mem_cons_of_mem _ h')) hl

theorem feed_notMem_of_mem_lines (h : line ∈ t.lines) : '\n' ∉ line :=
  feed_notMem_of_mem_linesOfPieces (fun _ piece => (Path.of_mem_splitOn piece).1) h

@[simp] theorem unlines_singleton (line : Text) : unlines [line] = line :=
  List.intercalate_singleton

@[simp] theorem unlines_cons (line : Text) (h : ls ≠ []) :
    unlines (line :: ls) = line ++ '\n' :: unlines ls := by
  simp [unlines, List.intercalate_cons_of_ne_nil h]

theorem unlines_concat (h : ls ≠ []) (last : Text) :
    unlines (ls ++ [last]) = unlines ls ++ '\n' :: last := by
  induction ls with
  | nil => exact absurd rfl h
  | cons line rest ih =>
    rcases eq_or_ne rest [] with rfl | more
    · simp
    · rw [List.cons_append, unlines_cons line (by simp), ih more, unlines_cons line more,
        List.append_assoc, List.cons_append]

/-! ### Lines of a text in parts -/

theorem linesOfPieces_cons (piece : Text) (h : ls ≠ []) :
    linesOfPieces (piece :: ls) = dropReturn piece :: linesOfPieces ls := by
  cases ls with
  | nil => exact absurd rfl h
  | cons next others => rfl

theorem linesOfPieces_append (h : more ≠ []) :
    linesOfPieces (ls ++ more) = ls.map dropReturn ++ linesOfPieces more := by
  induction ls with
  | nil => rfl
  | cons piece rest ih =>
    have any := List.append_ne_nil_of_right_ne_nil rest h
    simp [linesOfPieces_cons piece any, ih]

theorem lines_append_feed (s t : Text) :
    lines (s ++ '\n' :: t) = (s.splitOn '\n').map dropReturn ++ lines t := by
  rw [lines, List.splitOn_append_cons_self, linesOfPieces_append (List.splitOn_ne_nil _ _), lines]

/-- A text is a last line without a line feed, or begins with a line and its feed. -/
@[elab_as_elim]
theorem induction_lines {motive : Text → Prop} (last : ∀ t, '\n' ∉ t → motive t)
    (line : ∀ line rest, '\n' ∉ line → motive rest → motive (line ++ '\n' :: rest)) (t : Text) :
    motive t := by
  induction size : t.length using Nat.strongRecOn generalizing t with
  | ind n shorter =>
    by_cases more : '\n' ∈ t
    · obtain ⟨first, rest, rfl, clean⟩ := List.eq_append_cons_of_mem more
      refine line first rest clean (shorter _ ?_ rest rfl)
      simp [← size]
      omega
    · exact last t more

theorem lines_line (h : '\n' ∉ s) (t : Text) :
    lines (s ++ '\n' :: t) = dropReturn s :: lines t := by
  rw [lines_append_feed, List.splitOn_eq_singleton h]
  rfl

/-- Cut at its line feeds, a text has hardly any pieces that are not its lines. -/
theorem mem_linesOfPieces {piece : Text} (h : piece ∈ ls) :
    piece = [] ∨ piece ∈ linesOfPieces ls ∨ dropReturn piece ∈ linesOfPieces ls := by
  fun_induction linesOfPieces ls with
  | case1 => cases h
  | case2 last empty => exact Or.inl (by simpa [List.mem_singleton.1 h] using empty)
  | case3 last filled => exact Or.inr (Or.inl h)
  | case4 first rest _ ih =>
    rcases List.mem_cons.1 h with rfl | h
    · exact Or.inr (Or.inr List.mem_cons_self)
    · exact (ih h).imp_right (Or.imp (List.mem_cons_of_mem _) (List.mem_cons_of_mem _))

theorem mem_unlines {piece : Text} (h : piece ∈ ls) :
    piece <:+ unlines ls ∨ piece ++ ['\n'] <:+: unlines ls := by
  induction ls with
  | nil => cases h
  | cons line rest ih =>
    rcases eq_or_ne rest [] with rfl | more
    · left
      simp [List.mem_singleton.1 h, unlines]
    · have below : unlines rest <:+ unlines (line :: rest) := by
        rw [unlines_cons line more, List.append_cons]
        exact List.suffix_append _ _
      rcases List.mem_cons.1 h with rfl | h
      · exact Or.inr ⟨[], unlines rest, by simp [unlines_cons piece more]⟩
      · exact (ih h).imp (·.trans below) (·.trans below.isInfix)

@[simp] theorem lines_eq_nil_iff : lines t = [] ↔ t = [] := by
  constructor
  · intro none
    have pieces : unlines (t.splitOn '\n') = t := List.intercalate_splitOn '\n'
    rw [lines] at none
    cases cut : t.splitOn '\n' with
    | nil => exact absurd cut (List.splitOn_ne_nil _ _)
    | cons piece rest =>
      rw [cut] at none pieces
      cases rest with
      | nil =>
        have empty : piece = [] := by simpa [linesOfPieces] using none
        rw [← pieces, empty]
        rfl
      | cons next others => cases none
  · rintro rfl
    rw [lines, List.splitOn_nil]
    rfl

theorem lines_unlines_concat (h : ∀ l ∈ ls ++ [last], '\n' ∉ l) (any : last ≠ []) :
    lines (unlines (ls ++ [last])) = ls.map dropReturn ++ [last] := by
  rw [lines, unlines, List.splitOn_intercalate '\n' h (by simp),
    linesOfPieces_append (List.cons_ne_nil _ _)]
  simp [linesOfPieces, any]

@[simp] theorem length_splitOn_feed (t : Text) : (t.splitOn '\n').length = t.count '\n' + 1 := by
  induction t with
  | nil => rfl
  | cons c rest ih =>
    rw [List.splitOn_cons_eq_if_modifyHead, List.count_cons]
    split
    · rw [List.length_cons, ih]
    · simp [ih]

/-! ### The byte-order mark -/

theorem dropMark_cons (h : c ≠ '\uFEFF') (t : Text) : dropMark (c :: t) = c :: t :=
  dropMark.eq_2 _ fun _ start => h (List.cons.inj start).1

@[simp] theorem dropMark_append_feed (s t : Text) :
    dropMark (s ++ '\n' :: t) = dropMark s ++ '\n' :: t := by
  cases s with
  | nil => rfl
  | cons c rest =>
    rcases eq_or_ne c '\uFEFF' with rfl | other
    · rfl
    · simp [dropMark_cons other]

@[simp] theorem count_feed_dropMark (t : Text) : (dropMark t).count '\n' = t.count '\n' := by
  fun_cases dropMark t with
  | case1 rest => rfl
  | case2 => rfl

/-! ### Lines that are not empty -/

/-- The stretches between line feeds, without the empty ones. -/
def filledLines (t : Text) : List Text := (t.splitOn '\n').filter fun line => !line.isEmpty

@[simp] theorem filledLines_nil : filledLines [] = [] := by
  rw [filledLines, List.splitOn_nil]
  rfl

@[simp] theorem filledLines_append_feed (s t : Text) :
    filledLines (s ++ '\n' :: t) = filledLines s ++ filledLines t := by
  rw [filledLines, List.splitOn_append_cons_self, List.filter_append]
  rfl

@[simp] theorem filledLines_unlines (ls : List Text) :
    filledLines (unlines ls) = ls.flatMap filledLines := by
  induction ls with
  | nil => exact filledLines_nil
  | cons line rest ih =>
    rcases eq_or_ne rest [] with rfl | more
    · simp
    · simp [unlines_cons line more, ih]

theorem filledLines_of_line (h : '\n' ∉ line) :
    filledLines line = [line].filter fun line => !line.isEmpty := by
  rw [filledLines, List.splitOn_eq_singleton h]

/-- The lines that make a text are those of the text, apart from empty ones. -/
theorem filledLines_unlines_of_lines (h : ∀ line ∈ ls, '\n' ∉ line) :
    filledLines (unlines ls) = ls.filter fun line => !line.isEmpty := by
  rw [filledLines_unlines]
  induction ls with
  | nil => rfl
  | cons line rest ih =>
    rw [List.flatMap_cons, filledLines_of_line (h line List.mem_cons_self),
      ih fun line' h' => h line' (List.mem_cons_of_mem _ h'), ← List.filter_append]
    rfl

end IslDocs.Text
