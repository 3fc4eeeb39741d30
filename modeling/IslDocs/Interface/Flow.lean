import IslDocs.Section.Heading

/-! Flow blocks, the private part of a document. A block runs from its opening line up to, but not
including, the next separator, the next heading of level 2 or the next line with four number
signs. -/

namespace IslDocs.Flow

def opens (line : Text) : Bool :=
  let t := Text.trimStart line
  Text.startsWith "**Flow**:".toList t || Text.startsWith "**Flow:**".toList t

/-- Headings of level 3 stay inside the block. -/
def ends (line : Text) : Bool :=
  let t := Text.trimStart line
  Text.startsWith "---".toList t || Text.startsWith "####".toList t ||
    (Heading.ofLine? t).any (·.level == 2)

/-- The lines outside flow blocks; `inside` says whether a block is open before the first line. -/
def outsideFrom : (inside : Bool) → List Text → List Text
  | _, [] => []
  | inside, line :: rest =>
    if opens line || (inside && !ends line) then outsideFrom true rest
    else line :: outsideFrom false rest

def outside (lines : List Text) : List Text := outsideFrom false lines

/-- Line `k` lies in a block, if `stop` says which lines end one: some line up to it opens one and
no line after that ends it. -/
def Covers (stop : Text → Bool) (lines : List Text) (k : Nat) : Prop :=
  ∃ i ≤ k, (∃ line, lines[i]? = some line ∧ opens line = true) ∧
    ∀ m line, i < m → m ≤ k → lines[m]? = some line → stop line = false

end IslDocs.Flow
