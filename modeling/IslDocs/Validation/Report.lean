import IslDocs.Validation.Check

/-! The report of a validation: the diagnostics by severity and the counts of a document. A strict
report counts every warning as an error. -/

namespace IslDocs

structure Stats where
  capabilities : Nat
  components : Nat
  /-- Sections with a constraint field. -/
  constraints : Nat
  /-- Registered entities. -/
  domainConcepts : Nat
  /-- Sections with a test-scenario field. -/
  testScenarios : Nat
  deriving DecidableEq

def Stats.of (sections : List Section) : Stats where
  capabilities := sections.countP (·.kind == .capability)
  components := sections.countP (·.kind == .component)
  constraints := sections.countP fun s => Field.isPresent s.content Field.constraintName
  domainConcepts := (Entity.registered sections).length
  testScenarios := sections.countP fun s => Field.isPresent s.content Field.testScenariosName

structure Report where
  errors : List Diagnostic
  info : List Diagnostic
  stats : Stats
  warnings : List Diagnostic
  deriving DecidableEq

namespace Report

def isValid (r : Report) : Bool := r.errors.isEmpty

def promote (d : Diagnostic) : Diagnostic := { d with severity := .error }

def strict (r : Report) : Report :=
  { r with errors := r.errors ++ r.warnings.map promote, warnings := [] }

end Report

def validate (sections : List Section) : Report :=
  let found := Check.all sections
  { errors := found.filter (·.severity == .error)
    info := found.filter (·.severity == .info)
    stats := Stats.of sections
    warnings := found.filter (·.severity == .warning) }

end IslDocs
