import IslDocs.Proofs.Text.BlankLines

/-! Lines of a text whose blank lines have been collapsed: of empty lines that follow one another,
some are left out. A pass over the lines that treats two empty lines like one is not affected, and
what it makes comes out the same once blank lines are collapsed again, provided that a line stands
before it and a line end after it. -/

namespace IslDocs.Text

variable {ls ls' : List Text} {s s' s'' t : Text} {run : Nat}

/-- The second list of lines is the first with empty lines left out, each next to another one that
stays. -/
inductive Tightens : List Text → List Text → Prop where
  | nil : Tightens [] []
  | line {line : Text} {ls ls' : List Text} : Tightens ls ls' → Tightens (line :: ls) (line :: ls')
  | drop {ls ls' : List Text} : Tightens ([] :: ls) ls' → Tightens ([] :: [] :: ls) ls'

namespace Tightens

theorem refl (ls : List Text) : Tightens ls ls := by
  induction ls with
  | nil => exact .nil
  | cons line rest ih => exact ih.line

theorem append_left (h : Tightens ls ls') (before : List Text) :
    Tightens (before ++ ls) (before ++ ls') := by
  induction before with
  | nil => exact h
  | cons line rest ih => exact ih.line

theorem filterMap_eq {α : Type} {f : Text → Option α} (h : Tightens ls ls') (empty : f [] = none) :
    ls.filterMap f = ls'.filterMap f := by
  induction h with
  | nil => rfl
  | line _ ih => rw [List.filterMap_cons, List.filterMap_cons, ih]
  | drop _ ih => rw [List.filterMap_cons_none empty, ih]

end Tightens

/-! ### The lines of a collapsed text -/

theorem collapseAfter_of_line (h : '\n' ∉ s) (any : s ≠ []) (t : Text) :
    collapseAfter run (s ++ t) = s ++ collapseAfter 0 t := by
  induction s generalizing run with
  | nil => exact absurd rfl any
  | cons c rest ih =>
    obtain ⟨other, clean⟩ := not_or.1 (List.mem_cons.not.1 h)
    rw [List.cons_append, collapseAfter, if_neg (Ne.symm other)]
    rcases eq_or_ne rest [] with rfl | more
    · rfl
    · rw [ih clean more, List.cons_append]

/-- The empty line before what stands behind two line feeds. -/
def emptyBefore (run : Nat) : List Text := if run = 2 then [[]] else []

theorem tightens_lines_collapseAfter (t : Text) (h : run ≤ 2) :
    Tightens (emptyBefore run ++ lines t) (emptyBefore run ++ lines (collapseAfter run t)) := by
  induction t using induction_lines generalizing run with
  | last t clean =>
    rcases eq_or_ne t [] with rfl | any
    · exact .refl _
    · have whole : collapseAfter run t = t := by
        simpa [collapseAfter] using collapseAfter_of_line clean any []
      rw [whole]
      exact .refl _
  | line line rest clean ih =>
    rcases eq_or_ne line [] with rfl | any
    · have empty : ∀ t, lines ('\n' :: t) = [] :: lines t := lines_line clean
      rw [List.nil_append, collapseAfter, if_pos rfl, empty]
      obtain rfl | rfl | rfl : run = 0 ∨ run = 1 ∨ run = 2 := by omega
      · rw [if_pos (by decide), empty]
        exact (ih (Nat.le_succ 1)).line
      · rw [if_pos (by decide), empty]
        exact ih (Nat.le_refl 2)
      · rw [if_neg (by decide)]
        exact .drop (ih (Nat.le_refl 2))
    · rw [collapseAfter_of_line clean any, collapseAfter, if_pos rfl, if_pos (by decide),
        lines_line clean, lines_line clean]
      exact (ih (Nat.le_succ 1)).line.append_left _

@[simp] theorem dropMark_collapse (t : Text) : dropMark (collapse t) = collapse (dropMark t) := by
  rw [collapse_eq, collapse_eq]
  cases t with
  | nil => rfl
  | cons c rest =>
    rcases eq_or_ne c '\uFEFF' with rfl | other
    · rfl
    · rw [dropMark_cons other, collapseAfter]
      split <;> exact dropMark_cons other _

theorem tightens_lines_collapse (t : Text) : Tightens (lines t) (lines (collapse t)) := by
  rw [collapse_eq]
  exact tightens_lines_collapseAfter t (Nat.zero_le 2)

/-! ### Lines put together again -/

/-- Texts that come out the same once blank lines are collapsed, whatever stands before them and on
the lines after them. -/
def Equispaced (s s' : Text) : Prop := ∀ before after,
  collapse (before ++ (s ++ '\n' :: after)) = collapse (before ++ (s' ++ '\n' :: after))

theorem Equispaced.collapse (h : Equispaced s s') : Equispaced (collapse s) (collapse s') :=
  fun before after => by rw [collapse_append_collapse, collapse_append_collapse, h]

theorem unlines_append (before : List Text) (h : ls ≠ []) :
    unlines (before ++ ls) = before.flatMap (· ++ ['\n']) ++ unlines ls := by
  induction before with
  | nil => rfl
  | cons line rest ih =>
    rw [List.cons_append, unlines_cons line (List.append_ne_nil_of_right_ne_nil rest h), ih]
    simp

theorem Equispaced.collapse_unlines (h : Equispaced s s') (before : List Text) (next : Text)
    (after : List Text) : Text.collapse (unlines (before ++ s :: next :: after)) =
      Text.collapse (unlines (before ++ s' :: next :: after)) := by
  have cons := fun s : Text => unlines_cons s (List.cons_ne_nil next after)
  rw [unlines_append before (List.cons_ne_nil _ _), unlines_append before (List.cons_ne_nil _ _),
    cons, cons, h]

/-- The last line may be collapsed before. -/
theorem collapse_unlines_concat (h : collapse s = collapse s') (before : List Text) :
    collapse (unlines (before ++ [s])) = collapse (unlines (before ++ [s'])) := by
  have last := fun s : Text => collapse_append_collapse (before.flatMap (· ++ ['\n'])) s []
  simp only [List.append_nil] at last
  have append := fun s : Text => unlines_append before (List.cons_ne_nil s [])
  rw [append, append, unlines_singleton, unlines_singleton, ← last, h, last]

/-- The last of three line feeds is always left out. -/
theorem collapseAfter_three (run : Nat) (t : Text) :
    collapseAfter run ('\n' :: '\n' :: '\n' :: t) = collapseAfter run ('\n' :: '\n' :: t) := by
  match run with
  | 0 => rfl
  | 1 => rfl
  | run + 2 =>
    have full : ¬ run + 2 < 2 := by omega
    simp [collapseAfter, full]

theorem Tightens.collapseAfter_eq (h : Tightens ls ls') (run : Nat) (t : Text) :
    collapseAfter run ('\n' :: (ls.flatMap (· ++ ['\n']) ++ t)) =
      collapseAfter run ('\n' :: (ls'.flatMap (· ++ ['\n']) ++ t)) := by
  induction h generalizing run with
  | nil => rfl
  | @line line ls ls' _ ih =>
    simpa using
      collapseAfter_append_congr (fun run => collapseAfter_append_congr ih run line) run ['\n']
  | drop _ ih =>
    rw [← ih run]
    simpa using collapseAfter_three run _

/-- Behind one and the same line, tightened lines make the same text. -/
theorem Tightens.equispaced (h : Tightens ls ls') (line : Text) :
    Equispaced (unlines (line :: ls)) (unlines (line :: ls')) := fun before after => by
  have lines : ∀ ls : List Text, unlines (line :: ls) ++ '\n' :: after =
      line ++ '\n' :: (ls.flatMap (· ++ ['\n']) ++ after) := fun ls => by
    rw [← unlines_concat (List.cons_ne_nil _ _) after, unlines_append _ (List.cons_ne_nil _ _)]
    simp
  rw [lines, lines]
  exact collapse_append_congr before fun run =>
    collapseAfter_append_congr (fun run => h.collapseAfter_eq run after) run line

end IslDocs.Text
