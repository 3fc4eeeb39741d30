import IslDocs.Proofs.Section.Blocks
import Mathlib.Data.List.Chain

/-! Where the content of a section begins and ends. Its lines are those below the heading, without
blank ones at either end, so it is over before the next heading, and only its first line can look
like a heading: the white space before that line is trimmed off with the blank lines. -/

namespace IslDocs.Section

open Heading (isHeading)
open Text (isBlank trim trimStart trimEnd unlines lines)

variable {body : List Text} {line : Text} {blocks : List Block}

/-- Trimmed lines begin with the first line that is not blank, without the white space before it.
What comes after that in them are other lines, but for white space at their ends. -/
theorem exists_lines_trim (feedless : ∀ l ∈ body, '\n' ∉ l)
    (found : body.find? (!isBlank ·) = some line) :
    ∃ first rest, lines (trim (unlines body)) = first :: rest ∧
      trimEnd first = trimEnd (trimStart line) ∧
      rest.length < body.length ∧ ∀ l ∈ rest, ∃ l' ∈ body, trimEnd l = trimEnd l' := by
  obtain ⟨filled, blank, more, rfl, before⟩ := List.find?_eq_some_iff_append.1 found
  have filled : isBlank line = false := by simpa using filled
  have start : trimStart (unlines (blank ++ line :: more)) = unlines (trimStart line :: more) :=
    Text.trimStart_unlines (fun b hb => by simpa using before b hb) filled
  have feedless' : ∀ l ∈ trimStart line :: more, '\n' ∉ l := by
    intro l hl inside
    rcases List.mem_cons.1 hl with rfl | hl
    · exact feedless line (by simp) ((Text.trimStart_sublist line).subset inside)
    · exact feedless l (by simp [hl]) inside
  have kept := Text.lines_trimEnd_unlines feedless'
  rw [← start, ← trim] at kept
  cases cut : lines (trim (unlines (blank ++ line :: more))) with
  | nil =>
    rw [Text.lines_eq_nil_iff, Text.trim_eq_nil_iff, Text.isBlank_unlines] at cut
    simp [filled] at cut
  | cons first rest =>
    simp only [cut, List.map_cons, List.cons_prefix_cons] at kept
    obtain ⟨same, kept⟩ := kept
    refine ⟨first, rest, rfl, same, ?_, fun l hl => ?_⟩
    · have short := kept.length_le
      simp at short ⊢
      omega
    · obtain ⟨l', hl', same'⟩ := List.mem_map.1 (kept.subset (List.mem_map_of_mem hl))
      exact ⟨l', by simp [hl'], same'.symm⟩

theorem lines_trim_of_blank (h : body.find? (!isBlank ·) = none) :
    lines (trim (unlines body)) = [] := by
  rw [Text.lines_eq_nil_iff, Text.trim_eq_nil_iff, Text.isBlank_unlines, List.all_eq_true]
  simpa using h

theorem length_lines_trim (feedless : ∀ l ∈ body, '\n' ∉ l) :
    (lines (trim (unlines body))).length ≤ body.length := by
  cases found : body.find? (!isBlank ·) with
  | none => simp [lines_trim_of_blank found]
  | some line =>
    obtain ⟨first, rest, cut, -, short, -⟩ := exists_lines_trim feedless found
    rw [cut]
    exact short

/-- The first line after a block that is not blank is the next heading. -/
theorem isHeading_of_find?_blocks
    (found : (blocks.flatMap Block.lines).find? (!isBlank ·) = some line) :
    isHeading line = true := by
  cases blocks with
  | nil => cases found
  | cons b rest =>
    have filled : (!isBlank b.first) = true := by simp [Heading.isBlank_of_ofLine? b.opens]
    rw [List.flatMap_cons, Block.lines, List.cons_append, List.find?_cons_of_pos (by exact filled),
      Option.some.injEq] at found
    exact found ▸ Heading.isHeading_iff.2 ⟨_, b.opens⟩

/-- The headings in a section's content, read off the lines below its own heading. -/
theorem Block.headings_in_content (b : Block) (feedless : ∀ l ∈ b.body, '\n' ∉ l)
    (blocks : List Block) :
    let content := Text.lines (trim (unlines b.body))
    (∀ line ∈ content.tail, isHeading line = false) ∧
    ((∃ line ∈ content, isHeading line = true) ↔
      ∃ line, (b.body ++ blocks.flatMap Block.lines).find? (!isBlank ·) = some line ∧
        isHeading line = false ∧ isHeading (trimStart line) = true) := by
  intro content
  cases found : b.body.find? (!isBlank ·) with
  | none =>
    have empty : content = [] := lines_trim_of_blank found
    rw [List.find?_append, found, Option.none_or, empty]
    refine ⟨by simp, ⟨by simp, ?_⟩⟩
    rintro ⟨line, next, plain, -⟩
    rw [isHeading_of_find?_blocks next] at plain
    cases plain
  | some line =>
    obtain ⟨first, rest, cut, same, -, others⟩ := exists_lines_trim feedless found
    have plain : ∀ l ∈ rest, isHeading l = false := fun l hl => by
      obtain ⟨l', hl', same'⟩ := others l hl
      rw [Heading.isHeading_eq_of_trimEnd_eq same', b.plain l' hl']
    have below : isHeading line = false := b.plain line (List.mem_of_find?_eq_some found)
    have cut : content = first :: rest := cut
    rw [List.find?_append, found, Option.some_or, cut]
    refine ⟨plain, ?_⟩
    simp [Heading.isHeading_eq_of_trimEnd_eq same, below]
    exact fun l hl heading => by simp [plain l hl] at heading

theorem Block.isChain_sectionsFrom (feedless : ∀ b ∈ blocks, ∀ l ∈ b.body, '\n' ∉ l)
    (number : Nat) :
    (Block.sectionsFrom number blocks).IsChain fun s next =>
      s.line + s.content.lines.length < next.line := by
  induction blocks generalizing number with
  | nil => exact List.isChain_nil
  | cons b rest ih =>
    have later := ih (fun b' h' => feedless b' (List.mem_cons_of_mem _ h'))
      (number + b.lines.length)
    have short := length_lines_trim (feedless b List.mem_cons_self)
    cases rest with
    | nil => exact List.isChain_singleton _
    | cons next more =>
      refine List.isChain_cons_cons.2 ⟨?_, later⟩
      simp [ofHeading, Block.lines]
      omega

/-- No line of a section's content but the first is a heading, and the first is one just if it is
the white space before it that keeps the first line below the section's heading, blank lines apart,
from being one. A section's content is over before the next heading. -/
theorem parse_bounds_contents (document : Text) :
    (∀ s ∈ parse document,
      (∀ line ∈ s.content.lines.tail, isHeading line = false) ∧
      ((∃ line ∈ s.content.lines, isHeading line = true) ↔
        ∃ line, ((Text.dropMark document).lines.drop s.line).find? (!isBlank ·) = some line ∧
          isHeading line = false ∧ isHeading (trimStart line) = true)) ∧
    (parse document).IsChain fun s next => s.line + s.content.lines.length < next.line := by
  constructor
  · intro s hs
    obtain ⟨passed, b, blocks, rfl, split, feedless⟩ := exists_block_of_mem hs
    have below : (Text.dropMark document).lines.drop (passed.length + 1) =
        b.body ++ blocks.flatMap Block.lines := by
      simp [split, Block.lines, List.drop_append]
    have headings := b.headings_in_content (List.forall_mem_of_forall_mem_cons feedless) blocks
    rw [← below] at headings
    exact headings
  · obtain ⟨before, blocks, -, parsed, feedless⟩ := exists_blocks_document document
    rw [parsed]
    exact Block.isChain_sectionsFrom (fun b hb l hl =>
      feedless b hb l (List.mem_cons_of_mem _ hl)) _

theorem indented_heading_in_content :
    ¬ ∀ s ∈ parse "# A\n  # B\n# C\n".toList, ∀ line ∈ s.content.lines, isHeading line = false := by
  decide

end IslDocs.Section
