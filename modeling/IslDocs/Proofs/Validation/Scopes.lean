import IslDocs.Validation.Check
import Mathlib.Data.List.Basic

/-! The scopes of components by position. A section lies under the component at position `i` if it
comes after it with no component in between, and the scope of that component is the list of these
sections. -/

namespace IslDocs.Check

variable {sections : List Section} {s r : Section} {i j : Nat}

/-- `s` is the section at `j`, which comes after position `i`, and no section after `i` up to and
including `j` is a component. -/
structure Under (sections : List Section) (i j : Nat) (s : Section) : Prop where
  lt : i < j
  found : sections[j]? = some s
  apart : ∀ k s', i < k → k ≤ j → sections[k]? = some s' → s'.kind ≠ .component

/-- The sections after position `i` up to the next component. -/
def following (sections : List Section) (i : Nat) : List Section :=
  (sections.drop (i + 1)).takeWhile (·.kind != .component)

/-- The components, each with its position. -/
def placed (sections : List Section) : List (Section × Nat) :=
  sections.zipIdx.filter (·.1.kind == .component)

theorem mem_placed : (s, i) ∈ placed sections ↔ sections[i]? = some s ∧ s.kind = .component := by
  rw [placed, List.mem_filter, List.mem_zipIdx_iff_getElem?, beq_iff_eq]

theorem exists_placed : placed sections ≠ [] ↔ ∃ s ∈ sections, s.kind = .component := by
  constructor
  · intro some
    obtain ⟨⟨s, i⟩, hs⟩ := List.exists_mem_of_ne_nil _ some
    obtain ⟨found, kind⟩ := mem_placed.1 hs
    exact ⟨s, List.mem_of_getElem? found, kind⟩
  · rintro ⟨s, hs, kind⟩
    obtain ⟨i, found⟩ := List.mem_iff_getElem?.1 hs
    exact List.ne_nil_of_mem (mem_placed.2 ⟨found, kind⟩)

/-- The induction goes over the sections from position `earlier.length` on. -/
theorem scopes_append (earlier rest : List Section) :
    scopes rest = ((rest.zipIdx earlier.length).filter (·.1.kind == .component)).map
      fun (c, i) => (c, following (earlier ++ rest) i) := by
  induction rest generalizing earlier with
  | nil => rfl
  | cons s rest ih =>
    have later := ih (earlier ++ [s])
    rw [List.length_append, List.length_singleton, List.append_assoc,
      List.singleton_append] at later
    have here : following (earlier ++ s :: rest) earlier.length =
        rest.takeWhile (·.kind != .component) := by
      simp [following, ← List.drop_drop]
    rw [scopes, List.zipIdx_cons, List.filter_cons]
    split
    · simp only [List.map_cons, later, here]
    · exact later

/-- Each component has the sections that follow it as its scope. -/
theorem scopes_eq (sections : List Section) :
    scopes sections = (placed sections).map fun (c, i) => (c, following sections i) :=
  scopes_append [] sections

theorem getElem?_takeWhile_iff {α : Type} {p : α → Bool} {l : List α} {a : α} {m : Nat} :
    (l.takeWhile p)[m]? = some a ↔
      l[m]? = some a ∧ ∀ k ≤ m, ∀ b, l[k]? = some b → p b = true := by
  induction l generalizing m with
  | nil => simp
  | cons first rest ih =>
    rw [List.takeWhile_cons]
    cases holds : p first with
    | false =>
      simp only [Bool.false_eq_true, ↓reduceIte, List.getElem?_nil, reduceCtorEq, false_iff,
        not_and]
      intro _ all
      have := all 0 (Nat.zero_le _) first rfl
      simp [holds] at this
    | true =>
      cases m with
      | zero => simp +contextual [holds]
      | succ m =>
        simp only [↓reduceIte, List.getElem?_cons_succ, ih, and_congr_right_iff]
        intro _
        constructor
        · intro all k hk b hb
          cases k with
          | zero => simp_all
          | succ k => exact all k (by omega) b (by simpa using hb)
        · intro all k hk b hb
          exact all (k + 1) (by omega) b (by simpa using hb)

theorem getElem?_following {m : Nat} :
    (following sections i)[m]? = some s ↔ Under sections i (i + 1 + m) s := by
  rw [following, getElem?_takeWhile_iff, List.getElem?_drop]
  constructor
  · rintro ⟨found, apart⟩
    refine ⟨by omega, found, fun k s' after upTo hk => ?_⟩
    have hk' : (sections.drop (i + 1))[k - (i + 1)]? = some s' := by
      rw [List.getElem?_drop, show i + 1 + (k - (i + 1)) = k by omega]
      exact hk
    simpa using apart (k - (i + 1)) (by omega) s' hk'
  · rintro ⟨-, found, apart⟩
    refine ⟨found, fun k hk s' hs' => ?_⟩
    rw [List.getElem?_drop] at hs'
    simpa using apart (i + 1 + k) s' (by omega) (by omega) hs'

theorem Under.getElem?_following (under : Under sections i j s) :
    (following sections i)[j - (i + 1)]? = some s := by
  have := under.lt
  rw [Check.getElem?_following, show i + 1 + (j - (i + 1)) = j by omega]
  exact under

theorem mem_following : s ∈ following sections i ↔ ∃ j, Under sections i j s := by
  rw [List.mem_iff_getElem?]
  constructor
  · rintro ⟨m, found⟩
    exact ⟨_, getElem?_following.1 found⟩
  · rintro ⟨j, under⟩
    exact ⟨_, under.getElem?_following⟩

end IslDocs.Check
