import IslDocs.Proofs.Validation.Rules
import IslDocs.Proofs.Validation.Scopes
import Mathlib.Data.List.Forall2

/-! The scopes of components as a partition. Each section that stands behind a component and is not
one itself is in the scope of the component nearest before it and in no other, and the sections in
front of all components are in none. So the two rules about emojis, one checked scope by scope and
the other up to the first component, share the document between them: gone through in this order,
it is gone through once. -/

namespace IslDocs.Check

variable {sections : List Section} {s c : Section} {i i' j : Nat}

/-! ### The nearest component -/

def ComponentAt (sections : List Section) (i : Nat) : Prop :=
  ∃ c, sections[i]? = some c ∧ c.kind = .component

instance (sections : List Section) (i : Nat) : Decidable (ComponentAt sections i) :=
  decidable_of_iff ((sections[i]?).any (·.kind == .component) = true) (by
    simp only [ComponentAt, Option.any_eq_true, beq_iff_eq])

/-- The component at `i` comes before position `j`, and no other one in between. -/
structure Nearest (sections : List Section) (i j : Nat) : Prop where
  lt : i < j
  component : ComponentAt sections i
  apart : ∀ k, i < k → k < j → ¬ ComponentAt sections k

/-- The section at `j` stands in the scope of the component at `i`. -/
def InScope (sections : List Section) (i j : Nat) : Prop :=
  ComponentAt sections i ∧ ∃ m < (following sections i).length, j = i + 1 + m

theorem componentAt_of_getElem? (found : sections[j]? = some s) :
    ComponentAt sections j ↔ s.kind = .component := by
  simp [ComponentAt, found]

theorem Nearest.unique (h : Nearest sections i j) (h' : Nearest sections i' j) :
    i = i' := by
  rcases Nat.lt_trichotomy i i' with lt | same | lt
  · exact absurd h'.component (h.apart i' lt h'.lt)
  · exact same
  · exact absurd h.component (h'.apart i lt h.lt)

theorem nearest_succ_of_component (h : ComponentAt sections j) :
    Nearest sections i (j + 1) ↔ i = j := by
  have self : Nearest sections j (j + 1) :=
    ⟨Nat.lt_succ_self j, h, fun k after before => absurd before (by omega)⟩
  constructor
  · intro nearest
    exact nearest.unique self
  · rintro rfl
    exact self

theorem nearest_succ_of_not (h : ¬ ComponentAt sections j) :
    Nearest sections i (j + 1) ↔ Nearest sections i j := by
  constructor
  · intro nearest
    have other : i ≠ j := fun same => h (same ▸ nearest.component)
    have := nearest.lt
    exact ⟨by omega, nearest.component, fun k after before => nearest.apart k after (by omega)⟩
  · intro nearest
    refine ⟨Nat.lt_succ_of_lt nearest.lt, nearest.component, fun k after before => ?_⟩
    rcases Nat.lt_succ_iff_lt_or_eq.1 before with before | rfl
    · exact nearest.apart k after before
    · exact h

theorem inScope_iff : InScope sections i j ↔
    j < sections.length ∧ ¬ ComponentAt sections j ∧ Nearest sections i j := by
  constructor
  · rintro ⟨component, m, hm, rfl⟩
    have under := getElem?_following.1 (List.getElem?_eq_getElem hm)
    refine ⟨(List.getElem?_eq_some_iff.1 under.found).1, ?_, under.lt, component, ?_⟩
    · rintro ⟨c, found, kind⟩
      exact under.apart _ c under.lt (Nat.le_refl _) found kind
    · rintro k after before ⟨c, found, kind⟩
      exact under.apart k c after (Nat.le_of_lt before) found kind
  · rintro ⟨inside, plain, nearest⟩
    obtain ⟨s, found⟩ : ∃ s, sections[j]? = some s := ⟨_, List.getElem?_eq_getElem inside⟩
    have under : Under sections i j s := by
      refine ⟨nearest.lt, found, fun k s' after upTo found' kind => ?_⟩
      rcases Nat.lt_or_eq_of_le upTo with before | rfl
      · exact nearest.apart k after before ⟨s', found', kind⟩
      · exact plain ⟨s', found', kind⟩
    have := nearest.lt
    exact ⟨nearest.component, _, (List.getElem?_eq_some_iff.1 under.getElem?_following).1, by omega⟩

/-- The last component of a list. -/
def lastComponent? (sections : List Section) : Option Section :=
  (sections.filter (·.kind == .component)).getLast?

theorem lastComponent?_concat (earlier : List Section) (s : Section) :
    lastComponent? (earlier ++ [s]) =
      if s.kind = .component then some s else lastComponent? earlier := by
  by_cases h : s.kind = .component <;> simp [lastComponent?, h]

theorem lastComponent?_take_eq_some_iff :
    lastComponent? (sections.take j) = some c ↔
      ∃ i, Nearest sections i j ∧ sections[i]? = some c := by
  induction j with
  | zero =>
    have none : ∀ i, ¬ Nearest sections i 0 := fun i nearest => Nat.not_lt_zero i nearest.lt
    simp [lastComponent?, none]
  | succ j ih =>
    rw [List.take_add_one]
    by_cases component : ComponentAt sections j
    · obtain ⟨s, found, kind⟩ := id component
      rw [found, Option.toList_some, lastComponent?_concat, if_pos kind]
      simp only [nearest_succ_of_component component, exists_eq_left, found]
    · simp only [nearest_succ_of_not component, ← ih]
      cases found : sections[j]? with
      | none => simp
      | some s =>
        rw [componentAt_of_getElem? found] at component
        rw [Option.toList_some, lastComponent?_concat, if_neg component]

theorem exists_nearest_iff : (∃ i, Nearest sections i j) ↔ ∃ k < j, ComponentAt sections k := by
  constructor
  · rintro ⟨i, nearest⟩
    exact ⟨i, nearest.lt, nearest.component⟩
  · rintro ⟨k, lt, component⟩
    induction j with
    | zero => cases lt
    | succ j ih =>
      by_cases here : ComponentAt sections j
      · exact ⟨j, (nearest_succ_of_component here).2 rfl⟩
      · have other : k ≠ j := fun same => here (same ▸ component)
        obtain ⟨i, nearest⟩ := ih (by omega)
        exact ⟨i, (nearest_succ_of_not here).2 nearest⟩

theorem lastComponent?_take_eq_none_iff :
    lastComponent? (sections.take j) = none ↔ ∀ k < j, ¬ ComponentAt sections k := by
  have some_iff : (∃ c, lastComponent? (sections.take j) = some c) ↔
      ∃ k < j, ComponentAt sections k := by
    rw [← exists_nearest_iff]
    simp only [lastComponent?_take_eq_some_iff]
    constructor
    · rintro ⟨c, i, nearest, -⟩
      exact ⟨i, nearest⟩
    · rintro ⟨i, nearest⟩
      obtain ⟨c, found, -⟩ := nearest.component
      exact ⟨c, i, nearest, found⟩
  rw [Option.eq_none_iff_forall_ne_some, ← not_exists, some_iff]
  simp only [not_exists, not_and]

/-! ### Scope by scope and section by section -/

/-- The induction goes over the sections from position `earlier.length` on; those up to the next
component stand in the scope of the last one before, if there is one. -/
theorem flatMap_scopes_append {β : Type} (f : Option Section → Section → List β)
    (earlier rest : List Section) :
    (rest.takeWhile (·.kind != .component)).flatMap (f (lastComponent? earlier)) ++
      ((scopes rest).flatMap fun (c, scope) => scope.flatMap (f (some c))) =
    (rest.zipIdx earlier.length).flatMap fun (s, j) =>
      if s.kind = .component then [] else f (lastComponent? ((earlier ++ rest).take j)) s := by
  induction rest generalizing earlier with
  | nil => rfl
  | cons s rest ih =>
    have later := ih (earlier ++ [s])
    rw [List.length_append, List.length_singleton, List.append_assoc, List.singleton_append,
      lastComponent?_concat] at later
    rw [List.zipIdx_cons, List.flatMap_cons, ← later]
    simp only [List.take_left, scopes]
    by_cases component : s.kind = .component <;> simp [component]

/-- Going through the sections before the first component and then through all scopes in turn is
going through the document. -/
theorem flatMap_scopes {β : Type} (f : Option Section → Section → List β)
    (sections : List Section) :
    (sections.takeWhile (·.kind != .component)).flatMap (f none) ++
      ((scopes sections).flatMap fun (c, scope) => scope.flatMap (f (some c))) =
    sections.zipIdx.flatMap fun (s, j) =>
      if s.kind = .component then [] else f (lastComponent? (sections.take j)) s :=
  flatMap_scopes_append f [] sections

/-! ### Where the rules apply -/

theorem forall₂_filter_flatMap {α β : Type} {R : α → β → Prop} {p : α → Bool} {f : α → List β}
    {as : List α} (none : ∀ a ∈ as, p a = false → f a = [])
    (one : ∀ a ∈ as, p a = true → ∃ b, f a = [b] ∧ R a b) :
    List.Forall₂ R (as.filter p) (as.flatMap f) := by
  induction as with
  | nil => exact .nil
  | cons a rest ih =>
    have later := ih (fun a' h' => none a' (List.mem_cons_of_mem _ h'))
      (fun a' h' => one a' (List.mem_cons_of_mem _ h'))
    rw [List.filter_cons, List.flatMap_cons]
    split
    · next holds =>
      obtain ⟨b, single, related⟩ := one a List.mem_cons_self holds
      rw [single]
      exact .cons related later
    · next fails =>
      rw [none a List.mem_cons_self (by simpa using fails)]
      exact later

/-- The title begins with an emoji that is none of the markers. -/
def HasUnknownEmoji (s : Section) : Prop := ∃ glyph, s.emoji = some (.other glyph)

def HasMarker (s : Section) : Prop := ∃ marker, s.emoji = some (.marker marker)

instance (s : Section) : Decidable (HasUnknownEmoji s) :=
  match found : s.emoji with
  | some (.other glyph) => .isTrue ⟨glyph, found⟩
  | some (.marker _) => .isFalse fun ⟨_, other⟩ => by simp [found] at other
  | none => .isFalse fun ⟨_, other⟩ => by simp [found] at other

instance (s : Section) : Decidable (HasMarker s) :=
  match found : s.emoji with
  | some (.marker marker) => .isTrue ⟨marker, found⟩
  | some (.other _) => .isFalse fun ⟨_, other⟩ => by simp [found] at other
  | none => .isFalse fun ⟨_, other⟩ => by simp [found] at other

theorem emoji_eq_singleton {glyph : Text} (level : s.level = 3)
    (found : s.emoji = some (.other glyph)) (c : Section) :
    emoji c s = [.report (.unknownEmoji glyph) (componentPlace c) s.line] := by
  simp [emoji, found, level]

theorem emoji_eq_nil (h : s.level = 3 → ¬ HasUnknownEmoji s) (c : Section) : emoji c s = [] := by
  rw [emoji]
  split
  · next glyph found => rw [if_neg fun level => h (beq_iff_eq.1 level) ⟨glyph, found⟩]
  · rfl

theorem orphan_eq_singleton {marker : Marker} (level : s.level = 3)
    (found : s.emoji = some (.marker marker)) :
    orphan s = [.report (.orphanedMarker marker) s.title s.line] := by
  simp [orphan, found, level]

theorem orphan_eq_nil (h : s.level = 3 → ¬ HasMarker s) : orphan s = [] := by
  rw [orphan]
  split
  · next marker found => rw [if_neg fun level => h (beq_iff_eq.1 level) ⟨marker, found⟩]
  · rfl

theorem emojis_eq (sections : List Section) :
    ((scopes sections).flatMap fun (c, scope) => scope.flatMap (emoji c)) =
      sections.zipIdx.flatMap fun (s, j) => if s.kind = .component then [] else
        (lastComponent? (sections.take j)).elim [] (emoji · s) := by
  rw [← flatMap_scopes fun owner s => owner.elim [] (emoji · s)]
  simp

theorem orphans_eq (sections : List Section) : orphans sections =
    sections.zipIdx.flatMap fun (s, j) => if s.kind = .component then [] else
      if lastComponent? (sections.take j) = none then orphan s else [] := by
  rw [← flatMap_scopes fun owner s => if owner = none then orphan s else []]
  simp [orphans]

theorem forall₂_emojis (sections : List Section) :
    List.Forall₂ (fun (s, j) d => ∃ i c glyph, InScope sections i j ∧ sections[i]? = some c ∧
        s.emoji = some (.other glyph) ∧
        d = .report (.unknownEmoji glyph) (componentPlace c) s.line)
      (sections.zipIdx.filter fun (s, j) => s.level = 3 ∧ HasUnknownEmoji s ∧
        s.kind ≠ .component ∧ ∃ k < j, ComponentAt sections k)
      ((validate sections).warnings.filter (·.rule == .sectionEmoji)) := by
  rw [← ofRule, ofRule_warnings_sectionEmoji, emojis_eq]
  refine forall₂_filter_flatMap ?none ?one
  case none =>
    rintro ⟨s, j⟩ - other
    have other := of_decide_eq_false other
    dsimp only
    split
    · rfl
    · next plain =>
      cases before : lastComponent? (sections.take j) with
      | none => rfl
      | some c =>
        obtain ⟨i, nearest, -⟩ := lastComponent?_take_eq_some_iff.1 before
        exact emoji_eq_nil (fun level unknown =>
          other ⟨level, unknown, plain, i, nearest.lt, nearest.component⟩) c
  case one =>
    rintro ⟨s, j⟩ hs holds
    obtain ⟨level, ⟨glyph, found⟩, plain, earlier⟩ := of_decide_eq_true holds
    have listed := List.mem_zipIdx_iff_getElem?.1 hs
    obtain ⟨i, nearest⟩ := exists_nearest_iff.2 earlier
    obtain ⟨c, at', -⟩ := nearest.component
    have before := lastComponent?_take_eq_some_iff.2 ⟨i, nearest, at'⟩
    have scope : InScope sections i j := inScope_iff.2
      ⟨(List.getElem?_eq_some_iff.1 listed).1, fun component =>
        plain ((componentAt_of_getElem? listed).1 component), nearest⟩
    refine ⟨_, ?_, i, c, glyph, scope, at', found, rfl⟩
    simp only [if_neg plain, before, Option.elim_some, emoji_eq_singleton level found]

theorem forall₂_orphans (sections : List Section) :
    List.Forall₂ (fun (s, _) d => ∃ marker, s.emoji = some (.marker marker) ∧
        d = .report (.orphanedMarker marker) s.title s.line)
      (sections.zipIdx.filter fun (s, j) => s.level = 3 ∧ HasMarker s ∧
        s.kind ≠ .component ∧ ∀ k < j, ¬ ComponentAt sections k)
      ((validate sections).warnings.filter (·.rule == .enclosingComponent)) := by
  rw [← ofRule, ofRule_warnings_enclosingComponent, orphans_eq]
  refine forall₂_filter_flatMap ?none ?one
  case none =>
    rintro ⟨s, j⟩ - other
    have other := of_decide_eq_false other
    dsimp only
    split
    · rfl
    · next plain =>
      split
      · next first =>
        exact orphan_eq_nil fun level marker =>
          other ⟨level, marker, plain, lastComponent?_take_eq_none_iff.1 first⟩
      · rfl
  case one =>
    rintro ⟨s, j⟩ - holds
    obtain ⟨level, ⟨marker, found⟩, plain, first⟩ := of_decide_eq_true holds
    refine ⟨_, ?_, marker, found, rfl⟩
    simp only [if_neg plain, if_pos (lastComponent?_take_eq_none_iff.2 first),
      orphan_eq_singleton level found]

/-- Sections behind the first component are in one scope each, that of the nearest component before
them, and all others in none. In the order of the document, the first of the two rules warns once
of each section of level 3 with an unknown emoji that is in a scope, and the second once of each
with a marker that no component comes before; no other list of the report has either. -/
theorem scopes_partition (sections : List Section) :
    let report := validate sections
    scopes sections = (placed sections).map (fun (c, i) => (c, following sections i)) ∧
    (∀ j < sections.length, ¬ ComponentAt sections j → (∃ k < j, ComponentAt sections k) →
      ∃ i, Nearest sections i j ∧ ∀ i', InScope sections i' j ↔ i' = i) ∧
    (∀ j, (ComponentAt sections j ∨ ∀ k < j, ¬ ComponentAt sections k) →
      ∀ i, ¬ InScope sections i j) ∧
    List.Forall₂ (fun (s, j) d => ∃ i c glyph, InScope sections i j ∧ sections[i]? = some c ∧
        s.emoji = some (.other glyph) ∧
        d = .report (.unknownEmoji glyph) (componentPlace c) s.line)
      (sections.zipIdx.filter fun (s, j) => s.level = 3 ∧ HasUnknownEmoji s ∧
        s.kind ≠ .component ∧ ∃ k < j, ComponentAt sections k)
      (report.warnings.filter (·.rule == .sectionEmoji)) ∧
    List.Forall₂ (fun (s, _) d => ∃ marker, s.emoji = some (.marker marker) ∧
        d = .report (.orphanedMarker marker) s.title s.line)
      (sections.zipIdx.filter fun (s, j) => s.level = 3 ∧ HasMarker s ∧
        s.kind ≠ .component ∧ ∀ k < j, ¬ ComponentAt sections k)
      (report.warnings.filter (·.rule == .enclosingComponent)) ∧
    ∀ d ∈ report.errors ++ report.info, d.rule ≠ .sectionEmoji ∧ d.rule ≠ .enclosingComponent := by
  intro report
  refine ⟨scopes_eq sections, fun j inside plain earlier => ?_, fun j outside i scope => ?_,
    forall₂_emojis sections, forall₂_orphans sections, fun d hd => ?_⟩
  · obtain ⟨i, nearest⟩ := exists_nearest_iff.2 earlier
    refine ⟨i, nearest, fun i' => ⟨fun scope => ?_, ?_⟩⟩
    · exact (inScope_iff.1 scope).2.2.unique nearest
    · rintro rfl
      exact inScope_iff.2 ⟨inside, plain, nearest⟩
  · obtain ⟨-, plain, nearest⟩ := inScope_iff.1 scope
    rcases outside with component | first
    · exact plain component
    · exact first i nearest.lt nearest.component
  · rcases List.mem_append.1 hd with error | info
    · have severity := rule_severity_of_mem_filter error
      constructor <;> rintro same <;> simp [same, Rule.severity] at severity
    · have severity := rule_severity_of_mem_filter info
      constructor <;> rintro same <;> simp [same, Rule.severity] at severity

end IslDocs.Check
