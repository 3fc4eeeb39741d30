import IslDocs.Proofs.Path.Normal
import Mathlib.Data.List.DropRight
import Mathlib.Data.List.Induction

/-! The paths above a path. However it is spelled, its parent has all its components but the last,
so the paths above it have the beginnings of its components. -/

namespace IslDocs.Path

variable {p q : Path} {kept ps : List Text}

/-- The component that comes before the pieces of a path's body. -/
def startParts (start : Text) : List Component :=
  if start = ['/'] then [.root] else if start = ['.'] then [.here] else []

/-- A path is absolute, begins with a dot or does neither. -/
theorem body_cases (p : Path) :
    (∃ rest, rest ≠ [] ∧ p.pieces = [] :: rest ∧ p.body = (['/'], rest)) ∨
    (∃ rest, p.pieces = ['.'] :: rest ∧
      p.body = (['.'], if rest.isEmpty then [] else [] :: rest)) ∨
    (∃ first rest, p.pieces = first :: rest ∧ (first = [] → rest = []) ∧ first ≠ ['.'] ∧
      p.body = ([], first :: rest)) := by
  obtain ⟨first, rest, cut⟩ := List.exists_cons_of_ne_nil (List.splitOn_ne_nil '/' p.text)
  change p.pieces = first :: rest at cut
  rcases eq_or_ne first ['.'] with rfl | dotless
  · exact Or.inr (Or.inl ⟨rest, cut, by rw [body, cut]; rfl⟩)
  · rcases eq_or_ne first [] with rfl | filled
    · cases rest with
      | nil => exact Or.inr (Or.inr ⟨[], [], cut, by simp, dotless, by rw [body, cut]⟩)
      | cons next more => exact Or.inl ⟨next :: more, by simp, cut, by rw [body, cut]⟩
    · refine Or.inr (Or.inr ⟨first, rest, cut, fun empty => absurd empty filled, dotless, ?_⟩)
      unfold body
      split
      · simp_all
      · simp_all
      · rw [cut]

theorem text_eq_body (p : Path) : p.text = p.body.1 ++ ['/'].intercalate p.body.2 := by
  have text : p.text = ['/'].intercalate p.pieces := (List.intercalate_splitOn '/').symm
  rcases body_cases p with
    ⟨rest, any, cut, body⟩ | ⟨rest, cut, body⟩ | ⟨first, rest, cut, -, -, body⟩
  · rw [text, cut, body, List.intercalate_cons_of_ne_nil any]
    rfl
  · rw [text, cut, body]
    cases rest with
    | nil => rfl
    | cons next more => simp [List.intercalate_cons_of_ne_nil]
  · rw [text, cut, body]
    rfl

theorem parts_of_pieces {first : Text} {rest : List Text} (cut : p.pieces = first :: rest) :
    p.parts = firstPart first rest.isEmpty ++ rest.filterMap Component.ofPiece? := by
  rw [parts, cut]

theorem pieces_intercalate (inside : kept ⊆ p.pieces) (hne : kept ≠ []) :
    (⟨['/'].intercalate kept⟩ : Path).pieces = kept :=
  List.splitOn_intercalate '/' (fun _ piece => (of_mem_splitOn (inside piece)).1) hne

/-- The components of a path that goes only some way along the body of another. -/
theorem parts_kept (p : Path) (h : kept <+: p.body.2) :
    (⟨p.body.1 ++ ['/'].intercalate kept⟩ : Path).parts =
      startParts p.body.1 ++ kept.filterMap Component.ofPiece? := by
  rcases body_cases p with ⟨rest, any, cut, body⟩ | ⟨rest, cut, body⟩ |
    ⟨first, rest, cut, single, dotless, body⟩
  · rw [body] at h ⊢
    have below : ((['/'].intercalate kept).splitOn '/').filterMap Component.ofPiece? =
        kept.filterMap Component.ofPiece? := by
      rcases eq_or_ne kept [] with rfl | some_kept
      · rfl
      · have inside : kept ⊆ p.pieces := cut ▸ List.subset_cons_of_subset _ h.subset
        exact congrArg _ (pieces_intercalate inside some_kept)
    exact (parts_slash _).trans (congrArg _ below)
  · rw [body] at h ⊢
    rcases eq_or_ne rest [] with rfl | any
    · rw [List.prefix_nil.1 h]
      rfl
    · rw [List.isEmpty_eq_false_iff.2 any] at h
      cases kept with
      | nil => rfl
      | cons blank more =>
        obtain ⟨rfl, later⟩ := List.cons_prefix_cons.1 h
        rcases eq_or_ne more [] with rfl | some_more
        · rfl
        · have inside : ['.'] :: more ⊆ p.pieces := cut ▸ List.cons_subset_cons _ later.subset
          have text : ['.'] ++ ['/'].intercalate ([] :: more) =
              ['/'].intercalate (['.'] :: more) := by
            simp [List.intercalate_cons_of_ne_nil some_more]
          rw [text, parts_of_pieces (pieces_intercalate inside (List.cons_ne_nil _ _))]
          rfl
  · rw [body] at h ⊢
    cases kept with
    | nil => rfl
    | cons first more =>
      obtain ⟨rfl, later⟩ := List.cons_prefix_cons.1 h
      have inside : first :: more ⊆ p.pieces := cut ▸ h.subset
      rw [List.nil_append, parts_of_pieces (pieces_intercalate inside (List.cons_ne_nil _ _))]
      rcases eq_or_ne first [] with rfl | filled
      · rw [single rfl, List.prefix_nil] at later
        rw [later]
        rfl
      · have whole : firstPart first more.isEmpty = (Component.ofPiece? first).toList := by
          unfold firstPart
          split <;> simp_all
        rw [whole, List.filterMap_cons]
        cases Component.ofPiece? first <;> rfl

@[simp] theorem filterMap_dropTrivialEnd (ps : List Text) :
    (dropTrivialEnd ps).filterMap Component.ofPiece? = ps.filterMap Component.ofPiece? := by
  induction ps using List.reverseRecOn with
  | nil => rfl
  | append_singleton init last ih =>
    cases trivial : isTrivial last with
    | false => simp [dropTrivialEnd, trivial]
    | true =>
      have none : Component.ofPiece? last = none := by simpa [isTrivial] using trivial
      simpa [dropTrivialEnd, trivial, none] using ih

theorem parts_eq_body (p : Path) :
    p.parts = startParts p.body.1 ++ p.body.2.filterMap Component.ofPiece? := by
  rw [← parts_kept p List.prefix_rfl, ← text_eq_body]

/-- What is left does not end in a piece that is no component. -/
theorem dropTrivialEnd_eq_concat {init : List Text} {last : Text}
    (h : dropTrivialEnd ps = init ++ [last]) : ∃ c, Component.ofPiece? last = some c := by
  have any : ps.rdropWhile isTrivial ≠ [] := fun none => by
    rw [dropTrivialEnd, ← List.rdropWhile, none] at h
    simp at h
  have component := List.rdropWhile_last_not isTrivial ps any
  have ending : (ps.rdropWhile isTrivial).getLast any = last :=
    (List.getLast_congr _ (by simp) h).trans List.getLast_concat
  rw [ending, isTrivial] at component
  exact Option.ne_none_iff_exists'.1 (by simpa using component)

theorem parts_parent? (h : p.parent? = some q) : ∃ last, p.parts = q.parts ++ [last] := by
  have along : dropTrivialEnd p.body.2 <+: p.body.2 := List.rdropWhile_prefix isTrivial _
  rw [parts_eq_body p, ← filterMap_dropTrivialEnd]
  unfold parent? at h
  simp only [] at h
  split at h
  · next none =>
    split at h
    · next dot =>
      cases h
      rw [none, beq_iff_eq.1 dot]
      exact ⟨.here, rfl⟩
    · cases h
  · next piece rest left =>
    obtain ⟨init, last, split⟩ := List.eq_nil_or_concat' (piece :: rest) |>.resolve_left (by simp)
    rw [split] at left
    obtain ⟨c, component⟩ := dropTrivialEnd_eq_concat left
    rw [split, List.dropLast_concat] at h
    obtain rfl := Option.some.inj h
    have shorter : dropTrivialEnd init <+: p.body.2 :=
      (List.rdropWhile_prefix isTrivial _).trans
        ((List.prefix_append init [last]).trans (left ▸ along))
    rw [parts_kept p shorter, left, filterMap_dropTrivialEnd]
    exact ⟨c, by simp [component]⟩

/-! ### Above a path -/

/-- The parent of a path, the parent of that, and so on. -/
def above (p : Path) : List Path := (p.parent?.map ancestors).getD []

theorem parts_of_mem_ancestorsWithin {depth : Nat} (h : q ∈ ancestorsWithin depth p) :
    q.parts <+: p.parts := by
  induction depth generalizing p with
  | zero =>
    rw [ancestorsWithin, List.mem_singleton] at h
    exact h ▸ List.prefix_rfl
  | succ depth ih =>
    rw [ancestorsWithin, List.mem_cons] at h
    rcases h with rfl | h
    · exact List.prefix_rfl
    · cases up : p.parent? with
      | none => simp [up] at h
      | some parent =>
        obtain ⟨last, split⟩ := parts_parent? up
        rw [up] at h
        exact (ih h).trans (split ▸ List.prefix_append _ _)

/-- The components of a path above another are a beginning of the other's. -/
theorem parts_of_mem_above (h : q ∈ p.above) : ∃ more, more ≠ [] ∧ p.parts = q.parts ++ more := by
  rw [above] at h
  cases up : p.parent? with
  | none => simp [up] at h
  | some parent =>
    rw [up] at h
    obtain ⟨last, split⟩ := parts_parent? up
    obtain ⟨more, beginning⟩ := parts_of_mem_ancestorsWithin h
    exact ⟨more ++ [last], by simp, by rw [split, ← beginning, List.append_assoc]⟩

end IslDocs.Path
