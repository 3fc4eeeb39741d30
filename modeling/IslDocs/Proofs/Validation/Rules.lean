import IslDocs.Validation.Report
import Mathlib.Data.List.Basic

/-! The diagnostics of one rule. Each check makes diagnostics of its own rules only, at the severity
of the rule, so the warnings of a rule are found among those of the check that knows it. -/

namespace IslDocs.Check

variable {r : Rule} {rules rules' : List Rule} {ds ds' : List Diagnostic} {s : Section}
variable {sections : List Section}

/-! ### The rules of a check -/

/-- The diagnostics are of these rules, each at the severity of its rule. -/
def Follows (rules : List Rule) (ds : List Diagnostic) : Prop :=
  ∀ d ∈ ds, d.rule ∈ rules ∧ d.severity = d.rule.severity

theorem Follows.mono (h : Follows rules ds) (sub : rules ⊆ rules') : Follows rules' ds :=
  fun d hd => ⟨sub (h d hd).1, (h d hd).2⟩

@[simp] theorem follows_nil : Follows rules [] := List.forall_mem_nil _

@[simp] theorem follows_append :
    Follows rules (ds ++ ds') ↔ Follows rules ds ∧ Follows rules ds' := List.forall_mem_append

@[simp] theorem follows_report {issue : Issue} {place : Text} {line : Option Nat} :
    Follows rules [.report issue place line] ↔ issue.rule ∈ rules := by
  simp [Follows, Diagnostic.report, Diagnostic.rule]

theorem follows_flatMap {α : Type} {as : List α} {f : α → List Diagnostic}
    (h : ∀ a, Follows rules (f a)) : Follows rules (as.flatMap f) := by
  intro d hd
  obtain ⟨a, -, ha⟩ := List.mem_flatMap.1 hd
  exact h a d ha

theorem follows_projectOf (s : Section) :
    Follows [.projectTitle, .projectDescription] (projectOf s) := by
  rw [projectOf, follows_append]
  constructor <;> split <;> simp

theorem follows_project (sections : List Section) :
    Follows [.projectHeader, .projectTitle, .projectDescription] (project sections) := by
  rw [project]
  split
  · simp
  · exact (follows_projectOf _).mono (by decide)

theorem follows_entity (s : Section) : Follows [.entityIdentity, .entityProperties] (entity s) := by
  rw [entity, follows_append]
  constructor <;> split <;> simp

theorem follows_domain (sections : List Section) :
    Follows [.domainConcepts, .entityIdentity, .entityProperties, .entitySummary]
      (domain sections) := by
  rw [domain]
  split
  · rw [follows_append, follows_report]
    exact ⟨follows_flatMap fun s => (follows_entity s).mono (by decide), by simp⟩
  · simp

theorem follows_role (c : Section) (scope : List Section) :
    Follows [.componentRole, .roleNature] (role c scope) := by
  rw [role]
  split
  · simp
  · split <;> simp

theorem follows_behaviours (c : Section) (scope : List Section) :
    Follows [.componentCapabilities] (behaviours c scope) := by
  rw [behaviours]
  split <;> simp

theorem follows_emoji (c s : Section) : Follows [.sectionEmoji] (emoji c s) := by
  rw [emoji]
  split
  · split <;> simp
  · exact follows_nil

theorem follows_component (c : Section) (scope : List Section) :
    Follows [.componentRole, .roleNature, .componentCapabilities, .sectionEmoji]
      (component c scope) := by
  rw [component, follows_append, follows_append]
  exact ⟨⟨(follows_role c scope).mono (by decide), (follows_behaviours c scope).mono (by decide)⟩,
    follows_flatMap fun s => (follows_emoji c s).mono (by decide)⟩

theorem follows_components (sections : List Section) :
    Follows [.components, .componentRole, .roleNature, .componentCapabilities, .sectionEmoji]
      (components sections) := by
  rw [components]
  split
  · simp
  · exact follows_flatMap fun (c, scope) => (follows_component c scope).mono (by decide)

theorem follows_orphan (s : Section) : Follows [.enclosingComponent] (orphan s) := by
  rw [orphan]
  split
  · split <;> simp
  · exact follows_nil

theorem follows_orphans (sections : List Section) :
    Follows [.enclosingComponent] (orphans sections) := follows_flatMap follows_orphan

/-! ### Capabilities -/

/-- The diagnostic about a capability without contract. -/
def missingContract (s : Section) : List Diagnostic :=
  if Text.contains Field.contract s.content then []
  else [.report .noContract ("Capability: ".toList ++ s.title) s.line]

/-- The diagnostic about a constraint without keyword. -/
def weakConstraint (s : Section) : List Diagnostic :=
  match Field.text? s.content Field.constraintName with
  | some text =>
    if Keyword.occursIn text then []
    else [.report .weakConstraint ("Capability: ".toList ++ s.title) s.line]
  | none => []

/-- The diagnostics about names that are not declared. -/
def undefinedEntities (known : List Text) (s : Section) : List Diagnostic :=
  (Entity.undefined known s.content).map fun name =>
    .report (.undefinedEntity name) ("Capability: ".toList ++ s.title) s.line

theorem follows_missingContract (s : Section) : Follows [.contract] (missingContract s) := by
  rw [missingContract]
  split <;> simp

theorem follows_weakConstraint (s : Section) : Follows [.constraintKeyword] (weakConstraint s) := by
  rw [weakConstraint]
  split
  · split <;> simp
  · exact follows_nil

theorem follows_undefinedEntities (known : List Text) (s : Section) :
    Follows [.undefinedEntity] (undefinedEntities known s) := by
  intro d hd
  obtain ⟨name, -, rfl⟩ := List.mem_map.1 hd
  simp [Diagnostic.report, Diagnostic.rule]

/-- The checks of a capability, each with its rule. -/
theorem exists_capability (known : List Text) (s : Section) : ∃ signature flow,
    capability known s = missingContract s ++ signature ++ weakConstraint s ++ flow ++
      undefinedEntities known s ∧
    Follows [.signature] signature ∧ Follows [.testScenarios] flow := by
  refine ⟨_, _, rfl, ?_, ?_⟩
  · split <;> simp
  · split <;> simp

/-- The rules about capabilities. -/
def capabilityRules : List Rule :=
  [.contract, .signature, .constraintKeyword, .testScenarios, .undefinedEntity]

theorem follows_capability (known : List Text) (s : Section) :
    Follows capabilityRules (capability known s) := by
  obtain ⟨signature, flow, split, hs, hf⟩ := exists_capability known s
  simp only [split, follows_append]
  exact ⟨⟨⟨⟨(follows_missingContract s).mono (by decide), hs.mono (by decide)⟩,
    (follows_weakConstraint s).mono (by decide)⟩, hf.mono (by decide)⟩,
    (follows_undefinedEntities known s).mono (by decide)⟩

theorem follows_capabilities (sections : List Section) :
    Follows capabilityRules (capabilities sections) := follows_flatMap (follows_capability _)

theorem follows_all (sections : List Section) : Follows Rule.all (all sections) := by
  simp only [all, follows_append]
  exact ⟨⟨⟨⟨(follows_project sections).mono (by decide), (follows_domain sections).mono (by decide)⟩,
    (follows_components sections).mono (by decide)⟩,
    (follows_capabilities sections).mono (by decide)⟩,
    (follows_orphans sections).mono (by decide)⟩

theorem rule_severity_of_mem_filter {severity : Severity} {d : Diagnostic}
    (h : d ∈ (all sections).filter (·.severity == severity)) : d.rule.severity = severity := by
  obtain ⟨found, same⟩ := List.mem_filter.1 h
  rw [← (follows_all sections d found).2, beq_iff_eq.1 same]

/-! ### The diagnostics of a rule -/

def ofRule (r : Rule) (ds : List Diagnostic) : List Diagnostic := ds.filter (·.rule == r)

@[simp] theorem ofRule_append (r : Rule) (ds ds' : List Diagnostic) :
    ofRule r (ds ++ ds') = ofRule r ds ++ ofRule r ds' := List.filter_append ..

@[simp] theorem ofRule_flatMap {α : Type} (r : Rule) (as : List α) (f : α → List Diagnostic) :
    ofRule r (as.flatMap f) = as.flatMap fun a => ofRule r (f a) := List.filter_flatMap

theorem Follows.ofRule_eq_nil (h : Follows rules ds) (other : r ∉ rules) : ofRule r ds = [] := by
  refine List.filter_eq_nil_iff.2 fun d hd => ?_
  rw [beq_iff_eq]
  rintro rfl
  exact other (h d hd).1

theorem Follows.ofRule_eq_self (h : Follows [r] ds) : ofRule r ds = ds :=
  List.filter_eq_self.2 fun d hd => by simpa using (h d hd).1

theorem ofRule_constraintKeyword (known : List Text) (s : Section) :
    ofRule .constraintKeyword (capability known s) = weakConstraint s := by
  obtain ⟨signature, flow, split, hs, hf⟩ := exists_capability known s
  simp only [split, ofRule_append]
  rw [(follows_missingContract s).ofRule_eq_nil (by decide), hs.ofRule_eq_nil (by decide),
    hf.ofRule_eq_nil (by decide), (follows_weakConstraint s).ofRule_eq_self,
    (follows_undefinedEntities known s).ofRule_eq_nil (by decide)]
  simp

theorem ofRule_undefinedEntity (known : List Text) (s : Section) :
    ofRule .undefinedEntity (capability known s) = undefinedEntities known s := by
  obtain ⟨signature, flow, split, hs, hf⟩ := exists_capability known s
  simp only [split, ofRule_append]
  rw [(follows_missingContract s).ofRule_eq_nil (by decide), hs.ofRule_eq_nil (by decide),
    hf.ofRule_eq_nil (by decide), (follows_weakConstraint s).ofRule_eq_nil (by decide),
    (follows_undefinedEntities known s).ofRule_eq_self]
  simp

theorem ofRule_warnings (sections : List Section) (h : r.severity = .warning) :
    ofRule r (validate sections).warnings = ofRule r (all sections) := by
  rw [ofRule, validate, List.filter_filter]
  refine List.filter_congr fun d hd => ?_
  have severity := (follows_all sections d hd).2
  by_cases same : d.rule = r
  · simp [same, severity, h]
  · simp [same]

theorem ofRule_warnings_append (sections : List Section) (h : r.severity = .warning) :
    ofRule r (validate sections).warnings = ofRule r (project sections) ++
      ofRule r (domain sections) ++ ofRule r (components sections) ++
      ofRule r (capabilities sections) ++ ofRule r (orphans sections) := by
  simp [ofRule_warnings sections h, all]

/-- The warnings of a rule about capabilities come capability by capability. -/
theorem ofRule_warnings_capability (sections : List Section) (h : r.severity = .warning)
    (hr : r ∈ capabilityRules) : ofRule r (validate sections).warnings =
      (sections.filter (·.kind == .capability)).flatMap fun s =>
        ofRule r (capability (Entity.registered sections) s) := by
  have apart : r ∉ Rule.all.filter (· ∉ capabilityRules) := by simp [hr]
  rw [ofRule_warnings_append sections h,
    ((follows_project sections).mono (by decide)).ofRule_eq_nil apart,
    ((follows_domain sections).mono (by decide)).ofRule_eq_nil apart,
    ((follows_components sections).mono (by decide)).ofRule_eq_nil apart,
    ((follows_orphans sections).mono (by decide)).ofRule_eq_nil apart, capabilities,
    ofRule_flatMap]
  simp

/-! ### Emojis inside and outside components -/

theorem ofRule_component (c : Section) (scope : List Section) :
    ofRule .sectionEmoji (component c scope) = scope.flatMap (emoji c) := by
  simp only [component, ofRule_append]
  rw [(follows_role c scope).ofRule_eq_nil (by decide),
    (follows_behaviours c scope).ofRule_eq_nil (by decide),
    (follows_flatMap (follows_emoji c)).ofRule_eq_self]
  rfl

theorem ofRule_components (sections : List Section) : ofRule .sectionEmoji (components sections) =
    (scopes sections).flatMap fun (c, scope) => scope.flatMap (emoji c) := by
  rw [components]
  split
  · next none =>
    rw [none]
    rfl
  · rw [ofRule_flatMap]
    simp only [ofRule_component]

theorem ofRule_warnings_sectionEmoji (sections : List Section) :
    ofRule .sectionEmoji (validate sections).warnings =
      (scopes sections).flatMap fun (c, scope) => scope.flatMap (emoji c) := by
  rw [ofRule_warnings_append sections rfl,
    (follows_project sections).ofRule_eq_nil (by decide),
    (follows_domain sections).ofRule_eq_nil (by decide),
    (follows_capabilities sections).ofRule_eq_nil (by decide),
    (follows_orphans sections).ofRule_eq_nil (by decide), ofRule_components]
  simp

theorem ofRule_warnings_enclosingComponent (sections : List Section) :
    ofRule .enclosingComponent (validate sections).warnings = orphans sections := by
  rw [ofRule_warnings_append sections rfl,
    (follows_project sections).ofRule_eq_nil (by decide),
    (follows_domain sections).ofRule_eq_nil (by decide),
    (follows_components sections).ofRule_eq_nil (by decide),
    (follows_capabilities sections).ofRule_eq_nil (by decide),
    (follows_orphans sections).ofRule_eq_self]
  simp

end IslDocs.Check
