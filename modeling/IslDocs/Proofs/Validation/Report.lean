import IslDocs.Proofs.Section.Extent
import IslDocs.Proofs.Validation.Rules
import IslDocs.Proofs.Validation.Scopes

/-! The shape of a report. A check reports that something is missing from the document, which has no
line, or something about a section, at the line of its heading; how serious it is depends on the
rule alone, as the rule table has it. A strict report holds the same diagnostics, the warnings among
its errors. -/

namespace IslDocs

variable {sections : List Section} {s c : Section} {scope : List Section} {d : Diagnostic}

namespace Rule

/-- The codes of the rules as the rule table lists them, each with its severity. -/
def table : List (Text × Text) :=
  [("ISL-001", "error"), ("ISL-002", "warning"), ("ISL-003", "warning"), ("ISL-010", "warning"),
   ("ISL-011", "warning"), ("ISL-012", "warning"), ("ISL-INFO", "info"), ("ISL-020", "error"),
   ("ISL-021", "error"), ("ISL-022", "error"), ("ISL-023", "warning"), ("ISL-024", "warning"),
   ("ISL-030", "error"), ("ISL-031", "info"), ("ISL-032", "warning"), ("ISL-033", "warning"),
   ("ISL-034", "warning"), ("ISL-040", "warning")].map fun (code, severity) =>
    (code.toList, severity.toList)

theorem map_all_eq_table : all.map (fun r => (r.code, r.severity.label)) = table := by decide

theorem mem_table (r : Rule) : (r.code, r.severity.label) ∈ table := by
  rw [← map_all_eq_table]
  exact List.mem_map_of_mem (mem_all r)

/-- Whether a breach of the rule has a line, since it is about a section that there is. -/
def isLocated : Rule → Bool
  | .projectHeader | .domainConcepts | .components | .entitySummary => false
  | _ => true

theorem isLocated_eq_false_iff (r : Rule) : r.isLocated = false ↔
    r.code ∈ ["ISL-001", "ISL-010", "ISL-020", "ISL-INFO"].map String.toList := by
  cases r <;> decide

end Rule

namespace Check

/-! ### Where a diagnostic comes from -/

/-- A diagnostic about the document as a whole, or about a section at the line of that section. -/
inductive Sourced (sections : List Section) : Diagnostic → Prop
  | whole {issue : Issue} {place : Text} (h : issue.rule.isLocated = false) :
    Sourced sections (.report issue place none)
  | about {issue : Issue} {place : Text} {s : Section} (hs : s ∈ sections)
    (h : issue.rule.isLocated = true) : Sourced sections (.report issue place s.line)

theorem Sourced.line_eq_none_iff (h : Sourced sections d) :
    d.line = none ↔ d.rule.isLocated = false := by
  cases h with
  | whole h => exact iff_of_true rfl h
  | about hs h => exact iff_of_false (Option.some_ne_none _) (Bool.not_eq_false _ ▸ h)

theorem Sourced.exists_line {n : Nat} (h : Sourced sections d) (line : d.line = some n) :
    ∃ s ∈ sections, s.line = n := by
  cases h with
  | whole h => cases line
  | @about _ _ s hs h => exact ⟨s, hs, Option.some.inj line⟩

theorem Sourced.of_mem_whole {issue : Issue} {place : Text}
    (hd : d ∈ [Diagnostic.report issue place none]) (h : issue.rule.isLocated = false) :
    Sourced sections d := by
  rw [List.mem_singleton.1 hd]
  exact .whole h

theorem Sourced.of_mem_about {issue : Issue} {place : Text} (hs : s ∈ sections)
    (hd : d ∈ [Diagnostic.report issue place s.line]) (h : issue.rule.isLocated = true) :
    Sourced sections d := by
  rw [List.mem_singleton.1 hd]
  exact .about hs h

theorem sourced_project (hd : d ∈ project sections) : Sourced sections d := by
  rw [project] at hd
  split at hd
  · exact .of_mem_whole hd rfl
  · next s found =>
    have hs := List.mem_of_find?_eq_some found
    simp only [projectOf, List.mem_append, List.mem_ite_nil_left, List.mem_ite_nil_right,
      List.mem_singleton] at hd
    rcases hd with ⟨-, rfl⟩ | ⟨-, rfl⟩ <;> exact .about hs rfl

theorem sourced_entity (hs : s ∈ sections) (hd : d ∈ entity s) : Sourced sections d := by
  simp only [entity, List.mem_append, List.mem_ite_nil_left, List.mem_singleton] at hd
  rcases hd with ⟨-, rfl⟩ | ⟨-, rfl⟩ <;> exact .about hs rfl

theorem declarations_subset (sections : List Section) : Entity.declarations sections ⊆ sections :=
  (List.filter_sublist.trans ((List.takeWhile_sublist _).trans
    ((List.drop_sublist _ _).trans (List.dropWhile_sublist _)))).subset

theorem sourced_domain (hd : d ∈ domain sections) : Sourced sections d := by
  rw [domain] at hd
  split at hd
  · rcases List.mem_append.1 hd with hd | hd
    · obtain ⟨s, hs, hd⟩ := List.mem_flatMap.1 hd
      exact sourced_entity (declarations_subset sections hs) hd
    · exact .of_mem_whole hd rfl
  · exact .of_mem_whole hd rfl

theorem sourced_role (hc : c ∈ sections) (hscope : scope ⊆ sections) (hd : d ∈ role c scope) :
    Sourced sections d := by
  rw [role] at hd
  split at hd
  · exact .of_mem_about hc hd rfl
  · next r found =>
    obtain ⟨-, hd⟩ := List.mem_ite_nil_left.1 hd
    exact .of_mem_about (hscope (List.mem_of_find?_eq_some found)) hd rfl

theorem sourced_emoji (hs : s ∈ sections) (hd : d ∈ emoji c s) : Sourced sections d := by
  rw [emoji] at hd
  split at hd
  · obtain ⟨-, hd⟩ := List.mem_ite_nil_right.1 hd
    exact .of_mem_about hs hd rfl
  · cases hd

theorem sourced_component (hc : c ∈ sections) (hscope : scope ⊆ sections)
    (hd : d ∈ component c scope) : Sourced sections d := by
  rw [component, List.mem_append, List.mem_append] at hd
  rcases hd with (hd | hd) | hd
  · exact sourced_role hc hscope hd
  · obtain ⟨-, hd⟩ := List.mem_ite_nil_left.1 hd
    exact .of_mem_about hc hd rfl
  · obtain ⟨s, hs, hd⟩ := List.mem_flatMap.1 hd
    exact sourced_emoji (hscope hs) hd

theorem following_subset (sections : List Section) (i : Nat) : following sections i ⊆ sections :=
  ((List.takeWhile_sublist _).trans (List.drop_sublist _ _)).subset

theorem sourced_components (hd : d ∈ components sections) : Sourced sections d := by
  rw [components, scopes_eq] at hd
  split at hd
  · exact .of_mem_whole hd rfl
  · obtain ⟨⟨c, scope⟩, found, hd⟩ := List.mem_flatMap.1 hd
    obtain ⟨⟨c, i⟩, hc, rfl, rfl⟩ := List.mem_map.1 found
    exact sourced_component (List.mem_of_getElem? (mem_placed.1 hc).1) (following_subset _ i) hd

theorem sourced_weakConstraint (hs : s ∈ sections) (hd : d ∈ weakConstraint s) :
    Sourced sections d := by
  rw [weakConstraint] at hd
  split at hd
  · obtain ⟨-, hd⟩ := List.mem_ite_nil_left.1 hd
    exact .of_mem_about hs hd rfl
  · cases hd

theorem sourced_capability {known : List Text} (hs : s ∈ sections) (hd : d ∈ capability known s) :
    Sourced sections d := by
  simp only [capability, List.mem_append, List.mem_ite_nil_left, List.mem_ite_nil_right,
    List.mem_singleton] at hd
  rcases hd with (((⟨-, rfl⟩ | ⟨-, rfl⟩) | hd) | ⟨-, rfl⟩) | hd
  · exact .about hs rfl
  · exact .about hs rfl
  · exact sourced_weakConstraint hs hd
  · exact .about hs rfl
  · obtain ⟨name, -, rfl⟩ := List.mem_map.1 hd
    exact .about hs rfl

theorem sourced_orphan (hs : s ∈ sections) (hd : d ∈ orphan s) : Sourced sections d := by
  rw [orphan] at hd
  split at hd
  · obtain ⟨-, hd⟩ := List.mem_ite_nil_right.1 hd
    exact .of_mem_about hs hd rfl
  · cases hd

theorem sourced_all (hd : d ∈ all sections) : Sourced sections d := by
  simp only [all, List.mem_append] at hd
  rcases hd with (((hd | hd) | hd) | hd) | hd
  · exact sourced_project hd
  · exact sourced_domain hd
  · exact sourced_components hd
  · obtain ⟨s, hs, hd⟩ := List.mem_flatMap.1 hd
    exact sourced_capability (List.mem_of_mem_filter hs) hd
  · obtain ⟨s, hs, hd⟩ := List.mem_flatMap.1 hd
    exact sourced_orphan ((List.takeWhile_sublist _).subset hs) hd

end Check

open Check

namespace Report

def diagnostics (r : Report) : List Diagnostic := r.errors ++ r.warnings ++ r.info

/-- The diagnostics stand in the list of their severity, which is the one that the table has for
their rule, and have the line of a section of the document, or none if something is missing. -/
structure WellFormed (sections : List Section) (r : Report) : Prop where
  errors : ∀ d ∈ r.errors, d.severity = .error
  warnings : ∀ d ∈ r.warnings, d.severity = .warning
  info : ∀ d ∈ r.info, d.severity = .info
  listed : ∀ d ∈ r.diagnostics, (d.rule.code, d.severity.label) ∈ Rule.table
  unlocated : ∀ d ∈ r.diagnostics, d.line = none ↔
    d.rule.code ∈ ["ISL-001", "ISL-010", "ISL-020", "ISL-INFO"].map String.toList
  located : ∀ d ∈ r.diagnostics, ∀ n, d.line = some n → ∃ s ∈ sections, s.line = n

theorem diagnostics_validate (h : d ∈ (validate sections).diagnostics) : d ∈ all sections := by
  rw [diagnostics, List.mem_append, List.mem_append] at h
  rcases h with (h | h) | h <;> exact List.mem_of_mem_filter h

theorem wellFormed_validate (sections : List Section) :
    WellFormed sections (validate sections) where
  errors _ hd := beq_iff_eq.1 (List.mem_filter.1 hd).2
  warnings _ hd := beq_iff_eq.1 (List.mem_filter.1 hd).2
  info _ hd := beq_iff_eq.1 (List.mem_filter.1 hd).2
  listed d hd := by
    rw [(follows_all sections d (diagnostics_validate hd)).2]
    exact Rule.mem_table d.rule
  unlocated d hd := by
    rw [(sourced_all (diagnostics_validate hd)).line_eq_none_iff, Rule.isLocated_eq_false_iff]
  located _ hd _ := (sourced_all (diagnostics_validate hd)).exists_line

/-- The line of a diagnostic on a parsed document is that of a heading. -/
theorem exists_heading {document : Text} {n : Nat}
    (h : d ∈ (validate (Section.parse document)).diagnostics) (at' : d.line = some n) :
    ∃ line, 0 < n ∧ (Text.dropMark document).lines[n - 1]? = some line ∧
      Heading.isHeading line = true := by
  obtain ⟨s, hs, rfl⟩ := (wellFormed_validate _).located d h n at'
  obtain ⟨line, heading, found, positive, opens, -⟩ := Section.eq_ofHeading_of_mem hs
  exact ⟨line, positive, found, Heading.isHeading_iff.2 ⟨heading, opens⟩⟩

@[simp] theorem strict_strict (r : Report) : r.strict.strict = r.strict := by
  simp [strict]

theorem isValid_strict (r : Report) :
    r.strict.isValid = true ↔ r.errors = [] ∧ r.warnings = [] := by
  simp [isValid, strict]

end Report

/-- Every report is well formed, and the lines of a report on a parsed document are those of
headings. A strict report has the errors and then the warnings as errors and no warnings; only a
report without either is valid then, and it was valid before. -/
theorem reports_wellFormed :
    Rule.all.map (fun r => (r.code, r.severity.label)) = Rule.table ∧
    (∀ sections, (validate sections).WellFormed sections) ∧
    (∀ document, ∀ d ∈ (validate (Section.parse document)).diagnostics, ∀ n, d.line = some n →
      ∃ line, 0 < n ∧ (Text.dropMark document).lines[n - 1]? = some line ∧
        Heading.isHeading line = true) ∧
    (∀ sections, ∀ d ∈ (validate sections).strict.errors, d.severity = .error) ∧
    ∀ r : Report,
      r.strict.errors = r.errors ++ r.warnings.map (fun d => { d with severity := .error }) ∧
      r.strict.warnings = [] ∧ r.strict.info = r.info ∧ r.strict.stats = r.stats ∧
      (r.strict.isValid = true ↔ r.errors = [] ∧ r.warnings = []) ∧
      r.strict.strict = r.strict ∧ (r.strict.isValid = true → r.isValid = true) := by
  refine ⟨Rule.map_all_eq_table, Report.wellFormed_validate, fun document d hd n at' =>
    Report.exists_heading hd at', fun sections d hd => ?_, fun r => ⟨rfl, rfl, rfl, rfl,
    r.isValid_strict, r.strict_strict, fun valid => ?_⟩⟩
  · rcases List.mem_append.1 hd with hd | hd
    · exact (Report.wellFormed_validate sections).errors d hd
    · obtain ⟨warning, -, rfl⟩ := List.mem_map.1 hd
      rfl
  · rw [Report.isValid, (r.isValid_strict.1 valid).1]
    rfl

end IslDocs
