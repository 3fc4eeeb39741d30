import IslDocs.Proofs.Section.Blocks
import IslDocs.Proofs.Section.Title

/-! Which lines of a document belong to a section: its heading line and the lines below it, down to
the next heading. From the first heading on each line belongs to one section, and a section is made
from the lines that belong to it. -/

namespace IslDocs.Section

open Heading (isHeading)
open Text (trim)

variable {document : Text} {blocks : List Block} {s s' : Section} {number : Nat}

/-- The lines below a section's heading, down to the next heading. -/
def bodyIn (lines : List Text) (s : Section) : List Text :=
  (lines.drop s.line).takeWhile (!isHeading ·)

/-- The line numbered `number` is the section's heading line or stands in its body. -/
def Holds (lines : List Text) (s : Section) (number : Nat) : Prop :=
  s.line ≤ number ∧ number ≤ s.line + (s.bodyIn lines).length

/-! ### Sections from their lines -/

theorem Block.takeWhile_body (b : Block) (blocks : List Block) :
    (b.body ++ blocks.flatMap Block.lines).takeWhile (!isHeading ·) = b.body := by
  have next : (blocks.flatMap Block.lines).takeWhile (!isHeading ·) = [] := by
    cases blocks with
    | nil => rfl
    | cons b' rest =>
      have opens : isHeading b'.first = true := Heading.isHeading_iff.2 ⟨_, b'.opens⟩
      simp [Block.lines, opens]
  rw [List.takeWhile_append_of_pos fun line hl => by simp [b.plain line hl], next, List.append_nil]

theorem Block.bodyIn_eq (passed : List Text) (b : Block) (blocks : List Block) :
    (ofHeading b.heading b.body (passed.length + 1)).bodyIn
      (passed ++ (b.lines ++ blocks.flatMap Block.lines)) = b.body := by
  have below : (passed ++ (b.lines ++ blocks.flatMap Block.lines)).drop (passed.length + 1) =
      b.body ++ blocks.flatMap Block.lines := by
    simp [Block.lines, List.drop_append]
  exact (congrArg _ below).trans (b.takeWhile_body blocks)

/-- A section is what its heading line makes of the lines below it. -/
theorem eq_ofHeading_of_mem (h : s ∈ parse document) :
    ∃ first heading, (Text.dropMark document).lines[s.line - 1]? = some first ∧ 0 < s.line ∧
      Heading.ofLine? first = some heading ∧ Heading.IsTitle heading.title ∧
      s = ofHeading heading (s.bodyIn (Text.dropMark document).lines) s.line := by
  obtain ⟨passed, b, blocks, rfl, split, feedless⟩ := exists_block_of_mem h
  rw [split, b.bodyIn_eq]
  exact ⟨b.first, b.heading, by simp [ofHeading, Block.lines], Nat.succ_pos _, b.opens,
    Heading.isTitle_of_ofLine? (feedless _ List.mem_cons_self) b.opens, rfl⟩

theorem eq_of_line_eq (h : s ∈ parse document) (h' : s' ∈ parse document)
    (same : s.line = s'.line) : s = s' := by
  obtain ⟨first, heading, here, -, opens, -, made⟩ := eq_ofHeading_of_mem h
  obtain ⟨first', heading', here', -, opens', -, made'⟩ := eq_ofHeading_of_mem h'
  rw [same, here', Option.some.injEq] at here
  rw [here, opens, Option.some.injEq] at opens'
  rw [made, made', bodyIn, bodyIn, same, opens']

theorem isTitle_title {heading : Heading} (h : Heading.IsTitle heading.title) (body : List Text)
    (line : Nat) : Heading.IsTitle (ofHeading heading body line).title := by
  change Heading.IsTitle (titleParts heading).2
  unfold titleParts
  split
  · exact Emoji.isTitle_split h
  · exact h

theorem emoji_eq_none {heading : Heading} (h : heading.level ≠ 3) (body : List Text) (line : Nat) :
    (ofHeading heading body line).emoji = none := by
  change (titleParts heading).1 = none
  rw [titleParts, if_neg h]

/-! ### Numbers of the heading lines -/

@[simp] theorem Block.map_line_sectionsFrom (number : Nat) (blocks : List Block) :
    (Block.sectionsFrom number blocks).map line = Block.startsFrom number blocks := by
  induction blocks generalizing number with
  | nil => rfl
  | cons b rest ih =>
    rw [Block.sectionsFrom, List.map_cons, ih]
    rfl

/-- The numbers of the lines that are headings, counted from one. -/
def headingNumbers (lines : List Text) : List Nat :=
  ((lines.zipIdx 1).filter fun (line, _) => isHeading line).map Prod.snd

theorem map_line_parse (document : Text) :
    (parse document).map line = headingNumbers (Text.dropMark document).lines := by
  obtain ⟨before, blocks, split, plain⟩ := exists_blocks (Text.dropMark document).lines
  simp [parse, split, ofLines_blocks plain, headingNumbers, List.zipIdx_append,
    filter_zipIdx_of_plain plain, filter_zipIdx_blocks, Nat.add_comm 1]

theorem pairwise_headingNumbers (lines : List Text) : (headingNumbers lines).Pairwise (· < ·) := by
  have all : ((lines.zipIdx 1).map Prod.snd).Pairwise (· < ·) := by
    rw [List.zipIdx_map_snd]
    exact List.pairwise_lt_range'
  exact all.sublist (List.filter_sublist.map Prod.snd)

@[simp] theorem length_headingNumbers (lines : List Text) :
    (headingNumbers lines).length = lines.countP isHeading := by
  have all : lines = (lines.zipIdx 1).map Prod.fst := by rw [List.zipIdx_map_fst]
  rw [headingNumbers, List.length_map, ← List.countP_eq_length_filter]
  conv_rhs => rw [all, List.countP_map]
  rfl

/-! ### The section of a line -/

theorem not_lt_of_holds (h : s' ∈ parse document)
    (holds : s.Holds (Text.dropMark document).lines number) (le : s'.line ≤ number) :
    ¬ s.line < s'.line := by
  intro lt
  -- Then the heading line of `s'` would stand in the body of `s`, which has no headings.
  obtain ⟨first, heading, here, -, opens, -⟩ := eq_ofHeading_of_mem h
  have inside : s'.line - 1 - s.line < (s.bodyIn (Text.dropMark document).lines).length := by
    have := holds.2
    omega
  have body_prefix : s.bodyIn (Text.dropMark document).lines <+:
      (Text.dropMark document).lines.drop s.line := List.takeWhile_prefix _
  have number_eq : s.line + (s'.line - 1 - s.line) = s'.line - 1 := by omega
  have found : (s.bodyIn (Text.dropMark document).lines)[s'.line - 1 - s.line]? = some first := by
    simp [List.getElem?_eq_getElem inside, body_prefix.getElem inside, ← List.getElem?_eq_getElem,
      number_eq, here]
  have plain := List.mem_takeWhile_imp (List.mem_of_getElem? found)
  simp [isHeading, opens] at plain

theorem Block.exists_split {start : Nat} (above : start < number)
    (below : number ≤ start + (blocks.flatMap Block.lines).length) :
    ∃ earlier b later, blocks = earlier ++ b :: later ∧
      start + (earlier.flatMap Block.lines).length < number ∧
      number ≤ start + (earlier.flatMap Block.lines).length + b.lines.length := by
  induction blocks generalizing start with
  | nil =>
    simp at below
    omega
  | cons b rest ih =>
    rw [List.flatMap_cons, List.length_append] at below
    by_cases first : number ≤ start + b.lines.length
    · exact ⟨[], b, rest, rfl, by simpa using above, by simpa using first⟩
    · obtain ⟨earlier, b', later, rfl, after, upTo⟩ :=
        @ih (start + b.lines.length) (by omega) (by omega)
      refine ⟨b :: earlier, b', later, rfl, ?_, ?_⟩ <;>
        rw [List.flatMap_cons, List.length_append] <;> omega

theorem Block.sectionsFrom_append (number : Nat) (earlier later : List Block) :
    Block.sectionsFrom number (earlier ++ later) = Block.sectionsFrom number earlier ++
      Block.sectionsFrom (number + (earlier.flatMap Block.lines).length) later := by
  induction earlier generalizing number with
  | nil => rfl
  | cons b rest ih =>
    simp [Block.sectionsFrom, ih, Nat.add_assoc]

theorem exists_holds (le : number ≤ (Text.dropMark document).lines.length)
    (heading : ((Text.dropMark document).lines.take number).any isHeading = true) :
    ∃ s ∈ parse document, s.Holds (Text.dropMark document).lines number := by
  obtain ⟨before, blocks, split, plain⟩ := exists_blocks (Text.dropMark document).lines
  have above : before.length < number := by
    by_contra few
    rw [split, List.take_append_of_le_length (by omega), List.any_eq_true] at heading
    obtain ⟨line, hl, opens⟩ := heading
    simp [plain line (List.mem_of_mem_take hl)] at opens
  rw [split, List.length_append] at le
  obtain ⟨earlier, b, later, rfl, after, upTo⟩ := Block.exists_split above le
  refine ⟨ofHeading b.heading b.body ((before ++ earlier.flatMap Block.lines).length + 1), ?_, ?_⟩
  · rw [parse, split, ofLines_blocks plain, Block.sectionsFrom_append, List.length_append,
      Nat.add_right_comm]
    exact List.mem_append_right _ List.mem_cons_self
  · have cut : (Text.dropMark document).lines =
        (before ++ earlier.flatMap Block.lines) ++ (b.lines ++ later.flatMap Block.lines) := by
      simp [split]
    rw [Holds, cut, b.bodyIn_eq]
    simp [ofHeading, Block.lines] at after upTo ⊢
    omega

/-- The sections are those that one pass over the lines finds. They stand in the order of their
heading lines, and each line from the first heading on belongs to exactly one of them. -/
theorem parse_one_pass (document : Text) :
    let lines := (Text.dropMark document).lines
    parse document = scan document ∧
    (parse document).length = lines.countP isHeading ∧
    (parse document).map line = headingNumbers lines ∧
    ((parse document).map line).Pairwise (· < ·) ∧
    (∀ number ≤ lines.length, (lines.take number).any isHeading = true ↔
      ∃! s, s ∈ parse document ∧ s.Holds lines number) ∧
    ∀ s ∈ parse document,
      (∃ first heading, lines[s.line - 1]? = some first ∧ Heading.ofLine? first = some heading ∧
        s = ofHeading heading (s.bodyIn lines) s.line) ∧
      s.title ≠ [] ∧ trim s.title = s.title ∧ 1 ≤ s.level ∧ s.level ≤ 4 ∧
      (s.emoji ≠ none → s.level = 3) := by
  intro lines
  have numbers : (parse document).map line = headingNumbers lines := map_line_parse document
  refine ⟨(scan_eq_parse document).symm, ?_, numbers, ?_, fun number le => ⟨fun heading => ?_, ?_⟩,
    fun s hs => ?_⟩
  · rw [← length_headingNumbers, ← numbers, List.length_map]
  · rw [numbers]
    exact pairwise_headingNumbers lines
  · obtain ⟨s, hs, holds⟩ := exists_holds le heading
    refine ⟨s, ⟨hs, holds⟩, fun s' ⟨hs', holds'⟩ => eq_of_line_eq hs' hs ?_⟩
    exact Nat.le_antisymm (Nat.not_lt.1 (not_lt_of_holds hs' holds holds'.1))
      (Nat.not_lt.1 (not_lt_of_holds hs holds' holds.1))
  · rintro ⟨s, ⟨hs, holds⟩, -⟩
    obtain ⟨first, heading, here, some_line, opens, -⟩ := eq_ofHeading_of_mem hs
    have early : s.line - 1 < number := by
      have := holds.1
      omega
    refine List.any_eq_true.2 ⟨first, ?_, Heading.isHeading_iff.2 ⟨heading, opens⟩⟩
    exact List.mem_of_getElem? ((List.getElem?_take_of_lt early).trans here)
  · obtain ⟨first, heading, here, -, opens, title, made⟩ := eq_ofHeading_of_mem hs
    have made_title := isTitle_title title (s.bodyIn lines) s.line
    obtain ⟨-, -, some_sign, few, -⟩ := Heading.ofLine?_eq_some_iff.1 opens
    rw [← made] at made_title
    have level : s.level = heading.level := by rw [made]; rfl
    refine ⟨⟨first, heading, here, opens, made⟩, made_title.filled,
      Text.trim_eq_self made_title.start made_title.done, ?_, ?_, fun emoji => ?_⟩
    · exact level ▸ some_sign
    · exact level ▸ few
    · by_contra other
      exact emoji (made ▸ emoji_eq_none (level ▸ other) _ _)

end IslDocs.Section
