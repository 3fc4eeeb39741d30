import IslDocs.Validation.Diagnostic
import IslDocs.Validation.Entity
import IslDocs.Validation.Field

/-! The checks of validation, each from the sections of a document to the diagnostics it makes. All
of them always run, and `Check.all` lists their diagnostics in the order of the checks. -/

namespace IslDocs.Check

/-! ### Project -/

def minDescription : Nat := 20

def projectPlace : Text := "Project".toList

def projectOf (s : Section) : List Diagnostic :=
  (if Text.contains "Project:".toList s.title then []
    else [.report .unusualProjectTitle projectPlace s.line]) ++
  (if s.content.length < minDescription then [.report .shortDescription projectPlace s.line]
    else [])

def project (sections : List Section) : List Diagnostic :=
  match sections.find? (·.kind == .project) with
  | none => [.report .noProject projectPlace none]
  | some s => projectOf s

/-! ### Domain concepts -/

def domainPlace : Text := "Domain Concepts".toList

def entity (s : Section) : List Diagnostic :=
  let place := domainPlace ++ " > ".toList ++ s.title
  (if Text.contains Field.identity s.content then []
    else [.report (.noIdentity s.title) place s.line]) ++
  (if Text.contains Field.properties s.content then []
    else [.report (.noProperties s.title) place s.line])

def domain (sections : List Section) : List Diagnostic :=
  if sections.any (·.kind == .domain) then
    (Entity.declarations sections).flatMap entity ++
      [.report (.entitiesFound (Entity.registered sections)) domainPlace none]
  else [.report .noDomainConcepts domainPlace none]

/-! ### Components -/

/-- Every component with its scope, the sections up to the next component. -/
def scopes : List Section → List (Section × List Section)
  | [] => []
  | s :: rest =>
    if s.kind == .component then (s, rest.takeWhile (·.kind != .component)) :: scopes rest
    else scopes rest

def componentPlace (component : Section) : Text :=
  "Component: ".toList ++ Text.trim (Text.remove "Component:".toList component.title)

def namesNature (role : Section) : Bool :=
  let t := role.title ++ ' ' :: role.content
  Text.containsWord t "Presentation".toList || Text.containsWord t "Backend".toList

def role (component : Section) (scope : List Section) : List Diagnostic :=
  match scope.find? (·.kind == .role) with
  | none => [.report .noRole (componentPlace component) component.line]
  | some r =>
    if namesNature r then []
    else [.report .unclearRole (componentPlace component ++ " > Role".toList) r.line]

def behaviours (component : Section) (scope : List Section) : List Diagnostic :=
  if scope.any (·.kind == .capabilities) then []
  else [.report .noCapabilities (componentPlace component) component.line]

def emoji (component : Section) (s : Section) : List Diagnostic :=
  match s.emoji with
  | some (.other glyph) =>
    if s.level == 3 then [.report (.unknownEmoji glyph) (componentPlace component) s.line] else []
  | _ => []

def component (c : Section) (scope : List Section) : List Diagnostic :=
  role c scope ++ behaviours c scope ++ scope.flatMap (emoji c)

def components (sections : List Section) : List Diagnostic :=
  match scopes sections with
  | [] => [.report .noComponents "Components".toList none]
  | found => found.flatMap fun (c, scope) => component c scope

/-! ### Capabilities -/

/-- The diagnostics of one capability in a document that declares the entities `known`. -/
def capability (known : List Text) (s : Section) : List Diagnostic :=
  let place := "Capability: ".toList ++ s.title
  (if Text.contains Field.contract s.content then [] else [.report .noContract place s.line]) ++
  (if Text.contains Field.signature s.content then [] else [.report .noSignature place s.line]) ++
  (match Field.text? s.content Field.constraintName with
    | some text => if Keyword.occursIn text then [] else [.report .weakConstraint place s.line]
    | none => []) ++
  (if Field.isPresent s.content Field.flowName &&
      !Field.isPresent s.content Field.testScenariosName then
    [.report .flowWithoutTests place s.line] else []) ++
  (Entity.undefined known s.content).map fun name =>
    .report (.undefinedEntity name) place s.line

def capabilities (sections : List Section) : List Diagnostic :=
  (sections.filter (·.kind == .capability)).flatMap (capability (Entity.registered sections))

/-! ### Orphans -/

def orphan (s : Section) : List Diagnostic :=
  match s.emoji with
  | some (.marker m) => if s.level == 3 then [.report (.orphanedMarker m) s.title s.line] else []
  | _ => []

/-- Marker sections that come before every component. -/
def orphans (sections : List Section) : List Diagnostic :=
  (sections.takeWhile (·.kind != .component)).flatMap orphan

def all (sections : List Section) : List Diagnostic :=
  project sections ++ domain sections ++ components sections ++ capabilities sections ++
    orphans sections

end IslDocs.Check
