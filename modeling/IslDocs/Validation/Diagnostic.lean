import IslDocs.Section.Marker
import IslDocs.Validation.Keyword
import IslDocs.Validation.Rule

/-! What validation may find wrong with a document or worth saying about it, and the diagnostic that
reports it: where it was found and how serious it is. -/

namespace IslDocs

inductive Issue where
  | noProject
  | unusualProjectTitle
  | shortDescription
  | noDomainConcepts
  | noIdentity (entity : Text)
  | noProperties (entity : Text)
  | entitiesFound (names : List Text)
  | noComponents
  | noRole
  | unclearRole
  | noCapabilities
  | unknownEmoji (glyph : Text)
  | noContract
  | noSignature
  | flowWithoutTests
  | weakConstraint
  | undefinedEntity (name : Text)
  | orphanedMarker (marker : Marker)
  deriving DecidableEq

namespace Issue

@[simp] def rule : Issue → Rule
  | noProject => .projectHeader
  | unusualProjectTitle => .projectTitle
  | shortDescription => .projectDescription
  | noDomainConcepts => .domainConcepts
  | noIdentity _ => .entityIdentity
  | noProperties _ => .entityProperties
  | entitiesFound _ => .entitySummary
  | noComponents => .components
  | noRole => .componentRole
  | unclearRole => .roleNature
  | noCapabilities => .componentCapabilities
  | unknownEmoji _ => .sectionEmoji
  | noContract => .contract
  | noSignature => .signature
  | flowWithoutTests => .testScenarios
  | weakConstraint => .constraintKeyword
  | undefinedEntity _ => .undefinedEntity
  | orphanedMarker _ => .enclosingComponent

def markerGlyphs : Text := [' '].intercalate (Marker.all.map Marker.glyph)

def commaSeparated (parts : List Text) : Text := [',', ' '].intercalate parts

def message : Issue → Text
  | noProject => "Missing project header (# Project: Name)".toList
  | unusualProjectTitle =>
    "Project header should follow format: \"# Project: YourProjectName\"".toList
  | shortDescription => "Project description is too short (should be at least 1-3 sentences)".toList
  | noDomainConcepts =>
    "Missing \"## Domain Concepts\" section. Domain entities should be defined.".toList
  | noIdentity entity => "Entity \"".toList ++ entity ++ "\" missing **Identity** field".toList
  | noProperties entity => "Entity \"".toList ++ entity ++ "\" missing **Properties** field".toList
  | entitiesFound names =>
    "Found ".toList ++ Text.ofNat names.length ++ " domain entities: ".toList ++
      commaSeparated names
  | noComponents => "No components found. At least one \"## Component: Name\" is required.".toList
  | noRole => "Missing required section: \"### Role: Presentation / Backend\"".toList
  | unclearRole => "Role must be either \"Presentation\" or \"Backend\"".toList
  | noCapabilities =>
    ("No \"### ⚡ Capabilities / Methods\" section found. " ++
      "Components should define behaviors.").toList
  | unknownEmoji glyph =>
    "Invalid emoji \"".toList ++ glyph ++ "\". Valid emojis: ".toList ++ markerGlyphs
  | noContract => "Missing required field: **Contract**".toList
  | noSignature => "Missing recommended field: **Signature** (input/output types)".toList
  | flowWithoutTests => "Complex capability with Flow should have Test Scenarios".toList
  | weakConstraint =>
    "Constraints should use RFC 2119 keywords (".toList ++ commaSeparated (Keyword.all.take 5) ++
      ", ...)".toList
  | undefinedEntity name =>
    "Reference to undefined domain entity: \"".toList ++ name ++
      "\". Define it in Domain Concepts.".toList
  | orphanedMarker marker =>
    "Section with semantic emoji ".toList ++ marker.glyph ++
      " outside of a Component context".toList

end Issue

structure Diagnostic where
  issue : Issue
  /-- The line of the heading it belongs to, unless it is about something missing. -/
  line : Option Nat
  /-- The path of section titles, such as `Component: Cart > Role`. -/
  place : Text
  severity : Severity
  deriving DecidableEq

namespace Diagnostic

/-- The diagnostic of an issue at the severity of its rule. -/
def report (issue : Issue) (place : Text) (line : Option Nat) : Diagnostic :=
  { issue, line, place, severity := issue.rule.severity }

def rule (d : Diagnostic) : Rule := d.issue.rule

def message (d : Diagnostic) : Text := d.issue.message

end Diagnostic
end IslDocs
