import IslDocs.Proofs.Reference.Resolve

/-! The depth-first walk over the files that reference lines lead to. From the files seen so far it
goes on to the first new file that the latest of them names, if that one names any, and else the one
before it. So there is one walk, and at its end it has seen every file that a chain of reference
lines leads to. -/

namespace IslDocs.Inline

open IslDocs.Path (Distinct)
open IslDocs.Project (referencesOf)

/-- Whether the file at `q` can be read and has not been seen. -/
def isNew (t : Tree) (seen : List Path) (q : Path) : Bool :=
  (t.readText q).toOption.isSome && !seen.contains q

/-- The first new file that the file at `p` names. -/
def firstNew? (t : Tree) (seen : List Path) (p : Path) : Option Path :=
  (referencesOf t p).find? (isNew t seen)

/-- Where a depth-first walk goes on: the latest file that names a new one gives the next. -/
def next? (t : Tree) (seen : List Path) : Option Path :=
  seen.reverse.findSome? (firstNew? t seen)

/-- The files that a depth-first walk from `top` has seen, in the order in which it came to them. -/
inductive Walk (t : Tree) (top : Path) : (seen : List Path) → Prop where
  | nil : Walk t top []
  | start : Readable t top → Walk t top [top]
  | snoc {seen : List Path} {q : Path} : Walk t top seen → next? t seen = some q →
      Walk t top (seen ++ [q])

/-- A depth-first walk that has come to its end. -/
structure CompleteWalk (t : Tree) (top : Path) (order : List Path) : Prop where
  walk : Walk t top order
  start : Readable t top → order ≠ []
  ended : next? t order = none

variable {t : Tree} {p q top : Path} {seen order order' : List Path} {n : Nat} {via : Path → Prop}

theorem isNew_iff : isNew t seen q = true ↔ Readable t q ∧ seen.contains q = false := by
  rw [isNew, Bool.and_eq_true, Bool.not_eq_true', Option.isSome_iff_exists, Readable]
  simp only [toOption_eq_some_iff]

theorem isNew_append (h : isNew t seen q = false) (more : List Path) :
    isNew t (seen ++ more) q = false := by
  unfold isNew at *
  rw [List.contains_append]
  revert h
  cases (t.readText q).toOption.isSome <;> simp +contextual

theorem firstNew?_eq_some (h : firstNew? t seen p = some q) :
    Names t p q ∧ Readable t q ∧ seen.contains q = false :=
  ⟨List.mem_of_find?_eq_some h, isNew_iff.1 (List.find?_some h)⟩

theorem firstNew?_eq_none_iff : firstNew? t seen p = none ↔
    ∀ q, Names t p q → Readable t q → seen.contains q = true := by
  rw [firstNew?, List.find?_eq_none]
  refine forall_congr' fun q => imp_congr_right fun _ => ?_
  rw [isNew_iff, not_and, Bool.not_eq_false]

theorem firstNew?_append (h : firstNew? t seen p = none) (more : List Path) :
    firstNew? t (seen ++ more) p = none :=
  firstNew?_eq_none_iff.2 fun q names readable => by
    simp [firstNew?_eq_none_iff.1 h q names readable]

theorem next?_eq_some_iff : next? t seen = some q ↔
    ∃ earlier p later, seen = earlier ++ p :: later ∧
      firstNew? t seen p = some q ∧ ∀ r ∈ later, firstNew? t seen r = none := by
  rw [next?, List.findSome?_eq_some_iff]
  constructor
  · rintro ⟨later, p, earlier, split, first, none⟩
    refine ⟨earlier.reverse, p, later.reverse, ?_, first, by simpa using none⟩
    simpa using congrArg List.reverse split
  · rintro ⟨earlier, p, later, split, first, none⟩
    refine ⟨later.reverse, p, earlier.reverse, ?_, first, by simpa using none⟩
    simp [split]

theorem next?_eq_none_iff : next? t seen = none ↔ ∀ p ∈ seen, firstNew? t seen p = none := by
  simp [next?]

theorem Walk.distinct (h : Walk t top seen) : Distinct seen := by
  induction h with
  | nil => exact List.Pairwise.nil
  | start => exact List.pairwise_singleton _ _
  | snoc _ next ih =>
    obtain ⟨-, p, -, -, first, -⟩ := next?_eq_some_iff.1 next
    obtain ⟨-, -, new⟩ := firstNew?_eq_some first
    have before : Fresh [] _ := ⟨ih, fun _ _ => rfl⟩
    exact (before.append (fresh_singleton new)).distinct

/-- Every file that a walk comes to can be read, and a chain of reference lines leads to it. -/
theorem Walk.reached (h : Walk t top seen) :
    ∀ q ∈ seen, Readable t q ∧ ∃ n, Chain t (fun _ => True) n top q := by
  induction h with
  | nil => exact fun _ h => by cases h
  | start readable =>
    intro q hq
    rw [List.mem_singleton.1 hq]
    exact ⟨readable, 0, .nil _⟩
  | snoc _ next ih =>
    intro q hq
    rcases List.mem_append.1 hq with hq | hq
    · exact ih q hq
    · cases List.mem_singleton.1 hq
      obtain ⟨earlier, p, later, rfl, first, -⟩ := next?_eq_some_iff.1 next
      obtain ⟨names, readable, -⟩ := firstNew?_eq_some first
      obtain ⟨-, n, chain⟩ := ih p (List.mem_append_right _ List.mem_cons_self)
      exact ⟨readable, n + 1, chain.snoc trivial names⟩

theorem next?_ne_nil (h : next? t seen = some q) : seen ≠ [] := by
  rintro rfl
  cases h

theorem Walk.begins (h : Walk t top seen) (any : seen ≠ []) : [top] <+: seen := by
  induction h with
  | nil => exact absurd rfl any
  | start => exact List.prefix_rfl
  | snoc _ next ih => exact (ih (next?_ne_nil next)).trans (List.prefix_append _ _)

theorem Chain.readable (h : Chain t via n p q) (readable : Readable t q) : Readable t p := by
  cases h with
  | nil => exact readable
  | cons _ names _ => exact names.readable

/-- A walk at its end has come to whatever a chain of reference lines leads to. -/
theorem CompleteWalk.mem_iff (h : CompleteWalk t top order) (rooted : Readable t top → top.Rooted) :
    q ∈ order ↔ Readable t q ∧ ∃ n, Chain t (fun _ => True) n top q := by
  have spelled : ∀ p ∈ order, p.Rooted := fun p hp => by
    obtain ⟨readable, n, chain⟩ := h.walk.reached p hp
    exact chain.rooted (rooted (chain.readable readable))
  refine ⟨h.walk.reached q, fun ⟨readable, n, chain⟩ => ?_⟩
  refine chain.mem_of_closed (fun first => ?_) (fun _ _ p hp _ _ r names readable => ?_)
    (Nat.le_refl n) readable
  · exact (h.walk.begins (h.start first)).subset List.mem_cons_self
  · have spent := firstNew?_eq_none_iff.1 (next?_eq_none_iff.1 h.ended p hp) r names readable
    obtain ⟨r', hr', same⟩ := List.contains_iff_exists_mem_beq.1 spent
    rwa [(names.rooted (spelled p hp)).eq_of_beq (spelled r' hr') same]

/-- After its start, each file of a walk is where the walk goes on from those before it. -/
theorem Walk.next?_eq (h : Walk t top order) {rest : List Path} (split : order = seen ++ q :: rest)
    (any : seen ≠ []) : next? t seen = some q := by
  induction h generalizing rest with
  | nil => simp at split
  | start =>
    obtain ⟨first, others, rfl⟩ := List.exists_cons_of_ne_nil any
    simp at split
  | @snoc before last walk next ih =>
    rcases List.eq_nil_or_concat' rest with rfl | ⟨rest, last', rfl⟩
    · obtain ⟨rfl, same⟩ := List.append_inj' split rfl
      rw [next, List.singleton_inj.1 same]
    · rw [← List.cons_append, ← List.append_assoc] at split
      exact ih (List.append_inj' split rfl).1

/-- A walk at its end goes on from every other walk. -/
theorem CompleteWalk.prefix_of_walk (h : CompleteWalk t top order) (walk : Walk t top seen) :
    seen <+: order := by
  induction walk with
  | nil => exact List.nil_prefix
  | start readable => exact h.walk.begins (h.start readable)
  | snoc _ next ih =>
    obtain ⟨rest, rfl⟩ := ih
    cases rest with
    | nil =>
      have ended := h.ended
      rw [List.append_nil, next] at ended
      cases ended
    | cons r rest =>
      rw [h.walk.next?_eq rfl (next?_ne_nil next)] at next
      cases next
      exact ⟨rest, by simp⟩

theorem CompleteWalk.unique (h : CompleteWalk t top order) (h' : CompleteWalk t top order') :
    order = order' :=
  (h'.prefix_of_walk h.walk).eq_of_length_le (h.prefix_of_walk h'.walk).length_le

end IslDocs.Inline
