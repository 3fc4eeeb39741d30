import IslDocs.Text.BlankLines
import IslDocs.Proofs.Text.Lines

/-! Blank lines collapsed in one pass from the front: a line feed is left out if two of them stand
directly before it. Only empty lines get lost that way, and it makes no difference for a text if a
part of it has been collapsed before. -/

namespace IslDocs.Text

variable {run inner : Nat} {acc out t t' : Text} {c : Char}

/-- How many line feeds, up to two, a reversed text begins with. -/
def openRun : Text → Nat
  | '\n' :: '\n' :: _ => 2
  | '\n' :: _ => 1
  | _ => 0

/-- What is left of a text that stands behind `run` line feeds. -/
def collapseAfter : (run : Nat) → Text → Text
  | _, [] => []
  | run, c :: rest =>
    if c = '\n' then
      if run < 2 then c :: collapseAfter (run + 1) rest else collapseAfter run rest
    else c :: collapseAfter 0 rest

theorem pushCollapsed_feed (out : Text) :
    pushCollapsed out '\n' = if openRun out < 2 then '\n' :: out else out := by
  unfold openRun
  split
  · rfl
  · next other => exact pushCollapsed.eq_2 _ _ fun rest two _ => other rest (List.cons.inj two).2
  · next other => exact pushCollapsed.eq_2 _ _ fun rest two _ => other _ two

theorem pushCollapsed_other (h : c ≠ '\n') (out : Text) : pushCollapsed out c = c :: out :=
  pushCollapsed.eq_2 out c fun _ _ feed => h feed

theorem openRun_other (h : c ≠ '\n') (out : Text) : openRun (c :: out) = 0 :=
  openRun.eq_3 _ (fun _ two => h (List.cons.inj two).1) fun _ one => h (List.cons.inj one).1

theorem openRun_feed (h : openRun out < 2) : openRun ('\n' :: out) = openRun out + 1 := by
  cases out with
  | nil => rfl
  | cons c rest =>
    by_cases feed : c = '\n'
    · subst feed
      have one : openRun ('\n' :: rest) = 1 :=
        openRun.eq_2 rest fun more two => Nat.lt_irrefl 2 (by rwa [two] at h)
      rw [one]
      rfl
    · rw [openRun_other feed]
      exact openRun.eq_2 _ fun _ two => feed (List.cons.inj two).1

theorem foldl_pushCollapsed (out t : Text) :
    t.foldl pushCollapsed out = (collapseAfter (openRun out) t).reverse ++ out := by
  induction t generalizing out with
  | nil => rfl
  | cons c rest ih =>
    rw [List.foldl_cons, ih, collapseAfter]
    split
    · next feed =>
      rw [feed, pushCollapsed_feed]
      split
      · next short => rw [openRun_feed short, List.reverse_cons, List.append_assoc]; rfl
      · rfl
    · next other =>
      simp [pushCollapsed_other other, openRun_other other]

theorem collapse_eq (t : Text) : collapse t = collapseAfter 0 t := by
  rw [collapse, foldl_pushCollapsed, List.append_nil, List.reverse_reverse]
  rfl

/-! ### Texts in parts -/

theorem collapse_append (s t : Text) :
    collapse (s ++ t) = collapse s ++ collapseAfter (openRun (collapse s).reverse) t := by
  have passed : (collapse s).reverse = s.foldl pushCollapsed [] := List.reverse_reverse _
  simp [collapse, foldl_pushCollapsed]

theorem collapse_append_congr (s : Text)
    (same : ∀ run, collapseAfter run t = collapseAfter run t') :
    collapse (s ++ t) = collapse (s ++ t') := by
  rw [collapse_append, collapse_append, same]

theorem collapseAfter_append_congr (same : ∀ run, collapseAfter run t = collapseAfter run t')
    (run : Nat) (s : Text) : collapseAfter run (s ++ t) = collapseAfter run (s ++ t') := by
  induction s generalizing run with
  | nil => exact same run
  | cons c rest ih => simp only [List.cons_append, collapseAfter, ih]

/-- Behind more line feeds than it stood behind before, a text loses all that it has lost. -/
theorem collapseAfter_collapseAfter_append (h : inner ≤ run) (s t : Text) :
    collapseAfter run (collapseAfter inner s ++ t) = collapseAfter run (s ++ t) := by
  induction s generalizing inner run with
  | nil => rfl
  | cons c rest ih =>
    simp only [collapseAfter, List.cons_append]
    by_cases feed : c = '\n'
    · simp only [if_pos feed]
      split
      · next short =>
        rw [List.cons_append, collapseAfter, if_pos feed]
        split
        · rw [ih (Nat.succ_le_succ h)]
        · next full => exact ih (by omega)
      · next full => rw [if_neg (by omega), ih h]
    · simp only [if_neg feed, List.cons_append, collapseAfter, ih (Nat.le_refl 0)]

@[simp] theorem collapse_append_collapse (s t u : Text) :
    collapse (s ++ (collapse t ++ u)) = collapse (s ++ (t ++ u)) := by
  rw [collapse_eq t]
  exact collapse_append_congr s fun run =>
    collapseAfter_collapseAfter_append (Nat.zero_le run) t u

@[simp] theorem collapse_collapse (t : Text) : collapse (collapse t) = collapse t := by
  simpa using collapse_append_collapse [] t []

/-! ### Lines that are not empty -/

/-- Behind a line feed, or with nothing of a line passed so far. -/
theorem filter_splitOnPPrepend_collapseAfter (t : Text) (h : run = 0 ∨ acc = []) :
    (List.splitOnPPrepend (· == '\n') (collapseAfter run t) acc).filter (!·.isEmpty) =
      (List.splitOnPPrepend (· == '\n') t acc).filter (!·.isEmpty) := by
  induction t generalizing run acc with
  | nil => rfl
  | cons c rest ih =>
    rw [collapseAfter]
    by_cases feed : c = '\n'
    · have cut : ∀ more : Text, List.splitOnPPrepend (· == '\n') (c :: more) acc =
          acc.reverse :: List.splitOnPPrepend (· == '\n') more [] := fun more =>
        List.splitOnPPrepend_cons_pos (by simp [feed])
      rw [if_pos feed, cut]
      split
      · rw [cut, List.filter_cons, List.filter_cons, ih (Or.inr rfl)]
      · next full =>
        obtain rfl := h.resolve_left (by omega)
        rw [ih (Or.inr rfl), List.filter_cons_of_neg (by simp)]
    · have pass : ∀ more : Text, List.splitOnPPrepend (· == '\n') (c :: more) acc =
          List.splitOnPPrepend (· == '\n') more (c :: acc) := fun more =>
        List.splitOnPPrepend_cons_neg (by simp [feed])
      rw [if_neg feed, pass, pass, ih (Or.inl rfl)]

@[simp] theorem filledLines_collapse (t : Text) : filledLines (collapse t) = filledLines t := by
  simp only [filledLines, List.splitOn_eq_splitOnP, List.splitOnP_eq_splitOnPPrepend, collapse_eq]
  exact filter_splitOnPPrepend_collapseAfter t (Or.inr rfl)

end IslDocs.Text
