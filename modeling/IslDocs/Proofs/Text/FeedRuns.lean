import IslDocs.Proofs.Text.BlankLines
import IslDocs.Proofs.Text.Occurrence

/-! A text by its runs of line feeds. In one way only it is a run of line feeds, possibly empty,
and then other characters, each with the run behind it. Collapsing blank lines cuts every run down
to two line feeds and keeps all other characters, so the collapsed texts are those without three
line feeds in a row. -/

namespace IslDocs.Text

/-- A character that is no line feed, and how many line feeds follow it. -/
structure Stretch where
  char : Char
  char_ne : char ≠ '\n'
  feeds : ℕ

namespace Stretch

def text (s : Stretch) : Text := s.char :: List.replicate s.feeds '\n'

def capped (s : Stretch) : Stretch := { s with feeds := min s.feeds 2 }

end Stretch

/-- A text by its runs of line feeds, the one it begins with first; between two other characters
that are next to each other the run is empty. -/
structure FeedRuns where
  opening : ℕ
  stretches : List Stretch

namespace FeedRuns

def text (r : FeedRuns) : Text := List.replicate r.opening '\n' ++ r.stretches.flatMap Stretch.text

def lengths (r : FeedRuns) : List ℕ := r.opening :: r.stretches.map Stretch.feeds

/-- Every run longer than two is cut down to two. -/
def capped (r : FeedRuns) : FeedRuns where
  opening := min r.opening 2
  stretches := r.stretches.map Stretch.capped

/-- The runs of a text with one more character in front. -/
def push (c : Char) (r : FeedRuns) : FeedRuns :=
  if h : c = '\n' then { r with opening := r.opening + 1 }
  else { opening := 0, stretches := ⟨c, h, r.opening⟩ :: r.stretches }

def ofText (t : Text) : FeedRuns := t.foldr push ⟨0, []⟩

variable {r : FeedRuns} {c : Char} {n run : ℕ} {t : Text}

@[simp] theorem push_feed (r : FeedRuns) :
    push '\n' r = { r with opening := r.opening + 1 } := dif_pos rfl

theorem push_other (h : c ≠ '\n') (r : FeedRuns) :
    push c r = { opening := 0, stretches := ⟨c, h, r.opening⟩ :: r.stretches } := dif_neg h

/-! ### Runs and texts -/

@[simp] theorem ofText_cons (c : Char) (t : Text) : ofText (c :: t) = push c (ofText t) := rfl

@[simp] theorem text_push (c : Char) (r : FeedRuns) : (push c r).text = c :: r.text := by
  rcases eq_or_ne c '\n' with rfl | other
  · rw [push_feed]
    rfl
  · rw [push_other other]
    rfl

@[simp] theorem text_ofText (t : Text) : (ofText t).text = t := by
  induction t with
  | nil => rfl
  | cons c rest ih => simp [ih]

@[simp] theorem ofText_replicate (n : ℕ) (t : Text) :
    ofText (List.replicate n '\n' ++ t) =
      { ofText t with opening := (ofText t).opening + n } := by
  induction n with
  | zero => rfl
  | succ n ih =>
    rw [List.replicate_succ, List.cons_append, ofText_cons, ih, push_feed]
    rfl

@[simp] theorem ofText_stretches (stretches : List Stretch) :
    ofText (stretches.flatMap Stretch.text) = ⟨0, stretches⟩ := by
  induction stretches with
  | nil => rfl
  | cons s rest ih =>
    simp [Stretch.text, ih, push_other s.char_ne]

@[simp] theorem ofText_text (r : FeedRuns) : ofText r.text = r := by
  simp [text]

theorem text_injective : Function.Injective text :=
  Function.LeftInverse.injective ofText_text

/-! ### Collapsing -/

theorem collapseAfter_replicate (h : run ≤ 2) (n : ℕ) (t : Text) :
    collapseAfter run (List.replicate n '\n' ++ t) =
      List.replicate (min n (2 - run)) '\n' ++ collapseAfter (min (run + n) 2) t := by
  induction n generalizing run with
  | zero => simp [Nat.min_eq_left h]
  | succ n ih =>
    rw [List.replicate_succ, List.cons_append, collapseAfter, if_pos rfl]
    split
    · next short =>
      have one : min (n + 1) (2 - run) = min n (2 - (run + 1)) + 1 := by omega
      rw [ih short, one, Nat.succ_add_eq_add_succ]
      rfl
    · next full =>
      obtain rfl : run = 2 := by omega
      rw [ih h]
      simp

/-- Behind another character, the run that went before does not matter. -/
theorem collapseAfter_stretches (run : ℕ) (stretches : List Stretch) :
    collapseAfter run (stretches.flatMap Stretch.text) =
      (stretches.map Stretch.capped).flatMap Stretch.text := by
  induction stretches generalizing run with
  | nil => rfl
  | cons s rest ih =>
    simp only [List.map_cons, List.flatMap_cons, Stretch.text, List.cons_append, collapseAfter,
      if_neg s.char_ne, collapseAfter_replicate (Nat.zero_le 2), ih]
    rfl

theorem collapse_text (r : FeedRuns) : collapse r.text = r.capped.text := by
  rw [collapse_eq, text, collapseAfter_replicate (Nat.zero_le 2), collapseAfter_stretches]
  rfl

/-! ### Three in a row -/

theorem replicate_prefix_iff : List.replicate n '\n' <+: t ↔ n ≤ (ofText t).opening := by
  induction t generalizing n with
  | nil => cases n <;> simp [ofText, List.replicate_succ]
  | cons c rest ih =>
    cases n with
    | zero => simp
    | succ n =>
      rw [List.replicate_succ, List.cons_prefix_cons, ih, ofText_cons]
      rcases eq_or_ne c '\n' with rfl | other
      · simp
      · rw [push_other other]
        simp [Ne.symm other]

theorem three_infix_iff : ['\n', '\n', '\n'] <:+: t ↔ ∃ n ∈ (ofText t).lengths, 3 ≤ n := by
  have three : ∀ t : Text, ['\n', '\n', '\n'] <+: t ↔ 3 ≤ (ofText t).opening := fun t =>
    replicate_prefix_iff (n := 3)
  induction t with
  | nil => simp [ofText, lengths]
  | cons c rest ih =>
    rw [List.infix_cons_iff, three, ofText_cons]
    refine (or_congr_right ih).trans ?_
    rcases eq_or_ne c '\n' with rfl | other
    · rw [push_feed]
      simp only [lengths, List.mem_cons, exists_eq_or_imp]
      rw [← or_assoc]
      exact or_congr_left (by omega)
    · rw [push_other other]
      simp [lengths]

theorem isCollapsed_iff : IsCollapsed t ↔ ∀ n ∈ (ofText t).lengths, n ≤ 2 := by
  rw [IsCollapsed, ← Bool.not_eq_true, contains_iff_infix, three_infix_iff]
  simp only [not_exists, not_and, Nat.not_le, Nat.lt_succ_iff]

theorem le_two_of_mem_capped (r : FeedRuns) : ∀ n ∈ r.capped.lengths, n ≤ 2 := by
  have capped : r.capped.lengths = r.lengths.map (min · 2) := by
    simp [lengths, FeedRuns.capped, Stretch.capped, Function.comp_def]
  rw [capped, List.forall_mem_map]
  exact fun n _ => Nat.min_le_right n 2

theorem capped_eq_self_iff : r.capped = r ↔ ∀ n ∈ r.lengths, n ≤ 2 := by
  constructor
  · intro same
    rw [← same]
    exact r.le_two_of_mem_capped
  · intro short
    have opening : min r.opening 2 = r.opening := min_eq_left (short _ List.mem_cons_self)
    have kept : ∀ s ∈ r.stretches, s.capped = s := fun s hs => by
      rw [Stretch.capped,
        min_eq_left (short _ (List.mem_cons_of_mem _ (List.mem_map_of_mem hs)))]
    simp [capped, opening, List.map_congr_left kept]

end FeedRuns

open FeedRuns

theorem collapse_eq_capped (t : Text) : collapse t = (ofText t).capped.text := by
  rw [← collapse_text, text_ofText]

theorem isCollapsed_collapse (t : Text) : IsCollapsed (collapse t) := by
  rw [isCollapsed_iff, collapse_eq_capped, ofText_text]
  exact (ofText t).le_two_of_mem_capped

theorem collapse_eq_self_iff {t : Text} : collapse t = t ↔ IsCollapsed t := by
  simp [isCollapsed_iff, ← capped_eq_self_iff, ← text_injective.eq_iff, collapse_eq_capped]

/-- Every text is made of runs of line feeds and other characters in exactly one way, and collapsing
it cuts the runs down to two. What it makes has no three line feeds in a row; texts without these,
and no others, stay as they are; and a part of a text may be collapsed before. -/
theorem collapse_caps_runs :
    (∀ t, ∃! r : FeedRuns, r.text = t) ∧
      (∀ r : FeedRuns, collapse r.text = r.capped.text) ∧
      (∀ t, IsCollapsed (collapse t)) ∧
      (∀ t, collapse (collapse t) = collapse t) ∧
      (∀ t, collapse t = t ↔ IsCollapsed t) ∧
      ∀ x y z, collapse (x ++ collapse y ++ z) = collapse (x ++ y ++ z) := by
  refine ⟨fun t => ⟨ofText t, text_ofText t, ?_⟩, collapse_text, isCollapsed_collapse,
    collapse_collapse, fun _ => collapse_eq_self_iff, fun x y z => ?_⟩
  · rintro r rfl
    exact (ofText_text r).symm
  · simp

/-- Two lines far apart come one empty line closer. -/
example : collapse "\n\n\na\n\n\n\nb\n".toList = "\n\na\n\nb\n".toList := by decide

end IslDocs.Text
