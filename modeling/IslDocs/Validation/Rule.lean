import IslDocs.Text.Basic

/-! The eighteen rules of validation, with the stable code each is known by, its severity and what
it asks for. -/

namespace IslDocs

inductive Severity where
  | error | info | warning
  deriving DecidableEq

def Severity.label : Severity → Text
  | .error => "error".toList
  | .info => "info".toList
  | .warning => "warning".toList

inductive Rule where
  | projectHeader | projectTitle | projectDescription
  | domainConcepts | entityIdentity | entityProperties | entitySummary
  | components | componentRole | roleNature | componentCapabilities | sectionEmoji
  | contract | signature | testScenarios | constraintKeyword | undefinedEntity
  | enclosingComponent
  deriving DecidableEq

namespace Rule

/-- In the order of the rule table. -/
def all : List Rule :=
  [.projectHeader, .projectTitle, .projectDescription,
   .domainConcepts, .entityIdentity, .entityProperties, .entitySummary,
   .components, .componentRole, .roleNature, .componentCapabilities, .sectionEmoji,
   .contract, .signature, .testScenarios, .constraintKeyword, .undefinedEntity,
   .enclosingComponent]

def code : Rule → Text
  | .projectHeader => "ISL-001".toList
  | .projectTitle => "ISL-002".toList
  | .projectDescription => "ISL-003".toList
  | .domainConcepts => "ISL-010".toList
  | .entityIdentity => "ISL-011".toList
  | .entityProperties => "ISL-012".toList
  | .entitySummary => "ISL-INFO".toList
  | .components => "ISL-020".toList
  | .componentRole => "ISL-021".toList
  | .roleNature => "ISL-022".toList
  | .componentCapabilities => "ISL-023".toList
  | .sectionEmoji => "ISL-024".toList
  | .contract => "ISL-030".toList
  | .signature => "ISL-031".toList
  | .testScenarios => "ISL-032".toList
  | .constraintKeyword => "ISL-033".toList
  | .undefinedEntity => "ISL-034".toList
  | .enclosingComponent => "ISL-040".toList

def severity : Rule → Severity
  | .projectHeader | .components | .componentRole | .roleNature | .contract => .error
  | .entitySummary | .signature => .info
  | .projectTitle | .projectDescription | .domainConcepts | .entityIdentity | .entityProperties
  | .componentCapabilities | .sectionEmoji | .testScenarios | .constraintKeyword
  | .undefinedEntity | .enclosingComponent => .warning

def meaning : Rule → Text
  | .projectHeader => "Missing project header (# Project: Name)".toList
  | .projectTitle => "Project title does not follow \"Project: Name\"".toList
  | .projectDescription => "Project description shorter than 20 characters".toList
  | .domainConcepts => "No Domain Concepts section".toList
  | .entityIdentity => "Domain entity without an Identity field".toList
  | .entityProperties => "Domain entity without a Properties field".toList
  | .entitySummary => "Summary of registered domain entities".toList
  | .components => "No components defined".toList
  | .componentRole => "Component without a Role section".toList
  | .roleNature => "Role is neither Presentation nor Backend".toList
  | .componentCapabilities => "Component without a capabilities section".toList
  | .sectionEmoji => "Unrecognized section emoji".toList
  | .contract => "Capability without a Contract".toList
  | .signature => "Capability without a Signature".toList
  | .testScenarios => "Flow without Test Scenarios".toList
  | .constraintKeyword => "Constraint without an RFC 2119 keyword".toList
  | .undefinedEntity => "Signature references an undefined domain entity".toList
  | .enclosingComponent => "Semantic section outside any component".toList

theorem mem_all (r : Rule) : r ∈ all := by cases r <;> decide

end Rule
end IslDocs
