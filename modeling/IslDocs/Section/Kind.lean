import IslDocs.Section.Marker

/-! What a section is, as its level, its title and its emoji tell. -/

namespace IslDocs

inductive Kind where
  | project | domain | component | ordinary | role | subsection | capability
  | acceptance | appearance | capabilities | constraints | content | hints | tests | unknown
  deriving DecidableEq

def Marker.kind : Marker → Kind
  | .acceptance => .acceptance
  | .appearance => .appearance
  | .capabilities => .capabilities
  | .constraints => .constraints
  | .content => .content
  | .hints => .hints
  | .tests => .tests

namespace Kind

def ofLevelTwo (title : Text) : Kind :=
  if Text.contains "Domain Concepts".toList title then .domain
  else if Text.contains "Component:".toList title then .component
  else .ordinary

def ofLevelThree (title : Text) : Option Emoji → Kind
  | some (.marker m) => m.kind
  | some (.other _) => .subsection
  | none => if Text.contains "Role".toList title then .role else .subsection

def classify (level : Nat) (title : Text) (emoji : Option Emoji) : Kind :=
  match level with
  | 1 => .project
  | 2 => ofLevelTwo title
  | 3 => ofLevelThree title emoji
  | 4 => .capability
  | _ => .unknown

end Kind
end IslDocs
