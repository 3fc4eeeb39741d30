import IslDocs.Proofs.Text.Occurrence
import IslDocs.Proofs.Validation.Rules
import IslDocs.Proofs.Validation.Scopes
import Mathlib.Data.List.Forall2

/-! The errors of a report. Five rules make errors, and they come in one order: the project header,
the components or the roles of each, and the contracts of capabilities. A document is valid exactly
if it breaks none of the five. -/

namespace IslDocs

open Text (HasWord)

namespace Check

variable {sections : List Section} {c r s : Section} {i : Nat}

/-! ### The rules -/

/-- The first role section under the component at `i`. -/
def FirstRole (sections : List Section) (i : Nat) (r : Section) : Prop :=
  ∃ j, Under sections i j r ∧ r.kind = .role ∧
    ∀ k s, k < j → Under sections i k s → s.kind ≠ .role

def NamesNature (r : Section) : Prop :=
  HasWord (r.title ++ ' ' :: r.content) "Presentation".toList ∨
    HasWord (r.title ++ ' ' :: r.content) "Backend".toList

def HasContract (s : Section) : Prop := "**Contract**:".toList <:+: s.content

instance (s : Section) : Decidable (HasContract s) := inferInstanceAs (Decidable (_ <:+: _))

/-- The errors about the role of the component `c` at position `i`. -/
inductive RoleErrors (sections : List Section) (c : Section) (i : Nat) : List Diagnostic → Prop
  | missing (none : ∀ j s, Under sections i j s → s.kind ≠ .role) :
    RoleErrors sections c i [.report .noRole (componentPlace c) c.line]
  | unclear (r : Section) (first : FirstRole sections i r) (unnamed : ¬ NamesNature r) :
    RoleErrors sections c i [.report .unclearRole (componentPlace c ++ " > Role".toList) r.line]
  | clear (r : Section) (first : FirstRole sections i r) (named : NamesNature r) :
    RoleErrors sections c i []

/-! ### What each check contributes -/

def errorsOf (ds : List Diagnostic) : List Diagnostic := ds.filter (·.severity == .error)

@[simp] theorem errorsOf_append (ds ds' : List Diagnostic) :
    errorsOf (ds ++ ds') = errorsOf ds ++ errorsOf ds' := List.filter_append ..

theorem errorsOf_flatMap {α : Type} (as : List α) (f : α → List Diagnostic) :
    errorsOf (as.flatMap f) = as.flatMap fun a => errorsOf (f a) := List.filter_flatMap

theorem Follows.errorsOf_eq_nil {rules : List Rule} {ds : List Diagnostic} (h : Follows rules ds)
    (lower : ∀ r ∈ rules, r.severity ≠ .error) : errorsOf ds = [] := by
  refine List.filter_eq_nil_iff.2 fun d hd error => ?_
  obtain ⟨listed, severity⟩ := h d hd
  exact lower d.rule listed (severity ▸ beq_iff_eq.1 error)

theorem Follows.errorsOf_eq_self {rules : List Rule} {ds : List Diagnostic} (h : Follows rules ds)
    (errors : ∀ r ∈ rules, r.severity = .error) : errorsOf ds = ds := by
  refine List.filter_eq_self.2 fun d hd => ?_
  obtain ⟨listed, severity⟩ := h d hd
  rw [severity, errors d.rule listed]
  rfl

theorem errorsOf_project (sections : List Section) : errorsOf (project sections) =
    if ∃ s ∈ sections, s.kind = .project then [] else [.report .noProject projectPlace none] := by
  rw [project]
  split
  · next none =>
    have absent : ¬ ∃ s ∈ sections, s.kind = .project := by simpa using none
    rw [if_neg absent]
    rfl
  · next s found =>
    have kind : s.kind = .project := by simpa using List.find?_some found
    rw [(follows_projectOf s).errorsOf_eq_nil (by decide),
      if_pos ⟨s, List.mem_of_find?_eq_some found, kind⟩]

/-- Of the checks of a component, only the one of its role makes errors. -/
theorem errorsOf_component (c : Section) (scope : List Section) :
    errorsOf (component c scope) = role c scope := by
  simp [component, (follows_role c scope).errorsOf_eq_self (by decide),
    (follows_behaviours c scope).errorsOf_eq_nil (by decide),
    (follows_flatMap (follows_emoji c)).errorsOf_eq_nil (by decide)]

/-- Of the checks of a capability, only the one of its contract makes errors. -/
theorem errorsOf_capability (known : List Text) (s : Section) :
    errorsOf (capability known s) =
      if HasContract s then []
      else [.report .noContract ("Capability: ".toList ++ s.title) s.line] := by
  obtain ⟨signature, flow, split, hs, hf⟩ := exists_capability known s
  simp only [split, errorsOf_append]
  rw [(follows_missingContract s).errorsOf_eq_self (by decide), hs.errorsOf_eq_nil (by decide),
    hf.errorsOf_eq_nil (by decide), (follows_weakConstraint s).errorsOf_eq_nil (by decide),
    (follows_undefinedEntities known s).errorsOf_eq_nil (by decide)]
  have contract : Text.contains Field.contract s.content = true ↔ HasContract s :=
    Text.contains_iff_infix
  simp only [missingContract, contract, List.append_nil]

/-! ### Roles by position -/

theorem find?_role_eq_none :
    (following sections i).find? (·.kind == .role) = none ↔
      ∀ j s, Under sections i j s → s.kind ≠ .role := by
  simp only [List.find?_eq_none, mem_following, beq_iff_eq]
  exact ⟨fun none j s under => none s ⟨j, under⟩, fun none s ⟨j, under⟩ => none j s under⟩

theorem find?_role_eq_some :
    (following sections i).find? (·.kind == .role) = some r ↔ FirstRole sections i r := by
  rw [List.find?_eq_some_iff_getElem, beq_iff_eq]
  constructor
  · rintro ⟨kind, m, hm, rfl, first⟩
    refine ⟨i + 1 + m, getElem?_following.1 (List.getElem?_eq_getElem hm), kind, ?_⟩
    intro k s before under role
    have := under.lt
    obtain ⟨hk, found⟩ := List.getElem?_eq_some_iff.1 under.getElem?_following
    have other := first (k - (i + 1)) (by omega)
    rw [found, role] at other
    cases other
  · rintro ⟨j, under, kind, first⟩
    have := under.lt
    obtain ⟨hj, found⟩ := List.getElem?_eq_some_iff.1 under.getElem?_following
    refine ⟨kind, j - (i + 1), hj, found, fun k hk => ?_⟩
    have at' := getElem?_following.1 (List.getElem?_eq_getElem (Nat.lt_trans hk hj))
    have other := first (i + 1 + k) _ (by omega) at'
    simpa using other

theorem namesNature_iff : namesNature r = true ↔ NamesNature r := by
  simp only [namesNature, NamesNature, Bool.or_eq_true, Text.containsWord_iff]

theorem roleErrors_role (sections : List Section) (c : Section) (i : Nat) :
    RoleErrors sections c i (role c (following sections i)) := by
  rw [role]
  split
  · next none => exact .missing (find?_role_eq_none.1 none)
  · next r found =>
    have first := find?_role_eq_some.1 found
    split
    · next named => exact .clear r first (namesNature_iff.1 named)
    · next unnamed => exact .unclear r first fun named => unnamed (namesNature_iff.2 named)

theorem errorsOf_components (sections : List Section) : errorsOf (components sections) =
    if ∃ s ∈ sections, s.kind = .component then
      (placed sections).flatMap fun (c, i) => role c (following sections i)
    else [.report .noComponents "Components".toList none] := by
  rw [components, scopes_eq]
  split
  · next none =>
    rw [List.map_eq_nil_iff] at none
    rw [if_neg fun some => exists_placed.2 some none]
    rfl
  · next some =>
    have some : placed sections ≠ [] := fun none => some (List.map_eq_nil_iff.2 none)
    rw [if_pos (exists_placed.1 some), errorsOf_flatMap, List.flatMap_map]
    simp only [errorsOf_component]

/-- The check of the role under a component makes the errors that its position asks for. -/
theorem roleErrors_placed (sections : List Section) :
    List.Forall₂ (fun (c, i) found => RoleErrors sections c i found) (placed sections)
      ((placed sections).map fun (c, i) => role c (following sections i)) := by
  rw [List.forall₂_map_right_iff, List.forall₂_same]
  exact fun (c, i) _ => roleErrors_role sections c i

theorem RoleErrors.eq_nil_iff {found : List Diagnostic} (h : RoleErrors sections c i found) :
    found = [] ↔ ∃ r, FirstRole sections i r ∧ NamesNature r := by
  cases h with
  | missing none =>
    refine iff_of_false (List.cons_ne_nil _ _) ?_
    rintro ⟨r, ⟨j, under, kind, -⟩, -⟩
    exact none j r under kind
  | unclear r first unnamed =>
    refine iff_of_false (List.cons_ne_nil _ _) ?_
    rintro ⟨r', first', named⟩
    have same : some r = some r' := by
      rw [← find?_role_eq_some.2 first, find?_role_eq_some.2 first']
    exact unnamed (Option.some.inj same ▸ named)
  | clear r first named => exact iff_of_true rfl ⟨r, first, named⟩

theorem flatMap_unless {α β : Type} (p : α → Prop) [DecidablePred p] (f : α → β) (as : List α) :
    (as.flatMap fun a => if p a then [] else [f a]) = (as.filter fun a => ¬ p a).map f := by
  induction as with
  | nil => rfl
  | cons a rest ih => by_cases h : p a <;> simp [h, ih]

theorem errorsOf_capabilities (sections : List Section) : errorsOf (capabilities sections) =
    (sections.filter fun s => s.kind = .capability ∧ ¬ HasContract s).map fun s =>
      .report .noContract ("Capability: ".toList ++ s.title) s.line := by
  rw [capabilities, errorsOf_flatMap]
  simp only [errorsOf_capability]
  rw [flatMap_unless, List.filter_filter]
  refine congrArg _ (List.filter_congr fun s _ => ?_)
  rw [Bool.decide_and, Bool.and_comm, Bool.beq_eq_decide_eq]

theorem errorsOf_all (sections : List Section) : errorsOf (all sections) =
    errorsOf (project sections) ++ errorsOf (components sections) ++
      errorsOf (capabilities sections) := by
  simp only [all, errorsOf_append]
  rw [(follows_domain sections).errorsOf_eq_nil (by decide),
    (follows_orphans sections).errorsOf_eq_nil (by decide)]
  simp

/-! ### Documents without errors -/

theorem errorsOf_project_eq_nil :
    errorsOf (project sections) = [] ↔ ∃ s ∈ sections, s.kind = .project := by
  rw [errorsOf_project]
  split
  · next some => exact iff_of_true rfl some
  · next none => exact iff_of_false (List.cons_ne_nil _ _) none

theorem errorsOf_components_eq_nil : errorsOf (components sections) = [] ↔
    (∃ s ∈ sections, s.kind = .component) ∧
      ∀ i c, sections[i]? = some c → c.kind = .component →
        ∃ r, FirstRole sections i r ∧ NamesNature r := by
  rw [errorsOf_components]
  split
  · next some =>
    rw [and_iff_right some, List.flatMap_eq_nil_iff]
    constructor
    · intro none i c found kind
      exact (roleErrors_role sections c i).eq_nil_iff.1 (none (c, i) (mem_placed.2 ⟨found, kind⟩))
    · rintro named ⟨c, i⟩ hc
      obtain ⟨found, kind⟩ := mem_placed.1 hc
      exact (roleErrors_role sections c i).eq_nil_iff.2 (named i c found kind)
  · next none => exact iff_of_false (List.cons_ne_nil _ _) fun some => none some.1

theorem errorsOf_capabilities_eq_nil : errorsOf (capabilities sections) = [] ↔
    ∀ s ∈ sections, s.kind = .capability → HasContract s := by
  rw [errorsOf_capabilities, List.map_eq_nil_iff, List.filter_eq_nil_iff]
  simp only [decide_eq_true_eq, not_and, not_not]

end Check

open Check

/-- The errors of a report: whether there is a project header, then, for each component in order,
whether it has a role that names its nature, or that there is no component, and then the
capabilities without a contract in order. A document is valid exactly if all of this is right. -/
theorem errors_validate (sections : List Section) :
    let report := validate sections
    (∃ roles : List (List Diagnostic),
      List.Forall₂ (fun (c, i) found => RoleErrors sections c i found)
        (sections.zipIdx.filter (·.1.kind == .component)) roles ∧
      report.errors =
        (if ∃ s ∈ sections, s.kind = .project then []
          else [.report .noProject "Project".toList none]) ++
        (if ∃ s ∈ sections, s.kind = .component then roles.flatten
          else [.report .noComponents "Components".toList none]) ++
        (sections.filter fun s =>
          s.kind = .capability ∧ ¬ "**Contract**:".toList <:+: s.content).map fun s =>
            .report .noContract ("Capability: ".toList ++ s.title) s.line) ∧
    (report.isValid = true ↔
      (∃ s ∈ sections, s.kind = .project) ∧ (∃ s ∈ sections, s.kind = .component) ∧
      (∀ i c, sections[i]? = some c → c.kind = .component →
        ∃ r, FirstRole sections i r ∧ NamesNature r) ∧
      ∀ s ∈ sections, s.kind = .capability → "**Contract**:".toList <:+: s.content) := by
  intro report
  have errors : report.errors = errorsOf (project sections) ++ errorsOf (components sections) ++
      errorsOf (capabilities sections) := errorsOf_all sections
  refine ⟨⟨_, roleErrors_placed sections, ?_⟩, ?_⟩
  · rw [errors, errorsOf_project, errorsOf_components, errorsOf_capabilities, List.flatMap_def]
    rfl
  · simp only [Report.isValid, List.isEmpty_iff, errors, List.append_eq_nil_iff,
      errorsOf_project_eq_nil, errorsOf_components_eq_nil, errorsOf_capabilities_eq_nil, and_assoc]
    rfl

end IslDocs
