import IslDocs.Proofs.Section.Blocks
import IslDocs.Proofs.Section.Title
import Mathlib.Data.List.Forall2

/-! Sections written out and parsed again. What a section is comes back from its heading line, since
the emoji and the title that are put together in it are split as they were. Its content comes back
from the lines it is made of, unless white space was trimmed off in front of a heading. -/

namespace IslDocs.Section

open Heading (isHeading)
open Text (trim trimEnd dropReturn unlines)

variable {s : Section} {sections : List Section} {blocks : List Block} {t : Text}

/-- The line that a section's heading is written as. -/
def headLine (s : Section) : Text :=
  List.replicate s.level '#' ++ ' ' :: Emoji.before s.emoji s.title

/-- A section as text, its heading line and its content. -/
def written (s : Section) : Text := s.headLine ++ '\n' :: s.content ++ ['\n']

/-- The text that sections make, without what stood before the first of them. -/
def reconstruction (sections : List Section) : Text := sections.flatMap written

/-- What kind of section it is and what it is called. -/
def shape (s : Section) : Nat × Kind × Text × Option Emoji := (s.level, s.kind, s.title, s.emoji)

/-! ### Content as lines -/

theorem isHeading_pieces (h : ∀ line ∈ t.lines, isHeading line = false) :
    ∀ line ∈ (t.splitOn '\n').map dropReturn, isHeading line = false := by
  intro line hl
  obtain ⟨piece, hp, rfl⟩ := List.mem_map.1 hl
  rw [Heading.isHeading_dropReturn]
  rcases Text.mem_linesOfPieces hp with rfl | listed | listed
  · rfl
  · exact h piece listed
  · rw [← Heading.isHeading_dropReturn, h _ listed]

/-- No line of a trimmed text ends with a carriage return, unless one stands before a line feed. -/
theorem dropReturn_piece (done : trimEnd t = t) (h : ¬ ['\r', '\n'] <:+: t) {piece : Text}
    (hp : piece ∈ t.splitOn '\n') : dropReturn piece = piece := by
  refine if_neg fun last => ?_
  obtain ⟨rest, rfl⟩ := List.getLast?_eq_some_iff.1 last
  have found := Text.mem_unlines hp
  rw [unlines, List.intercalate_splitOn] at found
  rcases found with ending | inside
  · have space := Text.trimEnd_eq_self_iff.1 (Text.trimEnd_of_suffix ending done) '\r' last
    cases space
  · refine h (List.IsInfix.trans ⟨rest, [], ?_⟩ inside)
    simp

theorem trim_unlines_pieces (trimmed : trim t = t) (h : ¬ ['\r', '\n'] <:+: t) :
    trim (unlines ((t.splitOn '\n').map dropReturn)) = t := by
  have done : trimEnd t = t := by rw [← trimmed, Text.trimEnd_trim]
  have same : (t.splitOn '\n').map dropReturn = t.splitOn '\n' :=
    (List.map_congr_left fun _ hp => dropReturn_piece done h hp).trans (List.map_id _)
  rw [same, unlines, List.intercalate_splitOn, trimmed]

/-! ### Sections as blocks -/

/-- A block that gives back a section, wherever it stands. -/
structure Block.Restores (b : Block) (s : Section) : Prop where
  level : b.heading.level = s.level
  parts : titleParts b.heading = (s.emoji, s.title)
  kind : s.kind = Kind.classify s.level s.title s.emoji
  content : ¬ ['\r', '\n'] <:+: s.content → trim (unlines b.body) = s.content

theorem lines_written_append (feedless : '\n' ∉ s.headLine) (t : Text) :
    Text.lines (s.written ++ t) =
      dropReturn s.headLine :: (s.content.splitOn '\n').map dropReturn ++ t.lines := by
  have split : s.written ++ t = (s.headLine ++ '\n' :: s.content) ++ '\n' :: t := by simp [written]
  simp [split, Text.lines_append_feed, List.splitOn_eq_singleton feedless]

@[simp] theorem titleParts_before (heading : Heading) :
    titleParts ⟨heading.level, Emoji.before (titleParts heading).1 (titleParts heading).2⟩ =
      titleParts heading := by
  unfold titleParts
  split
  · exact Emoji.split_before heading.title
  · rfl

theorem isTitle_titleParts {heading : Heading} (h : Heading.IsTitle heading.title) :
    Heading.IsTitle (Emoji.before (titleParts heading).1 (titleParts heading).2) := by
  unfold titleParts
  split
  · exact Emoji.isTitle_before h
  · exact h

/-- A section whose content has no heading in it comes back as a block. -/
theorem Block.exists_restores (b : Block) (feedless : '\n' ∉ b.first) (number : Nat)
    (plain : ∀ line ∈ (ofHeading b.heading b.body number).content.lines, isHeading line = false) :
    let s := ofHeading b.heading b.body number
    ∃ b' : Block, b'.Restores s ∧ ∀ t, Text.lines (s.written ++ t) = b'.lines ++ t.lines := by
  intro s
  have title := isTitle_titleParts (Heading.isTitle_of_ofLine? feedless b.opens)
  obtain ⟨-, -, some_sign, few, -⟩ := Heading.ofLine?_eq_some_iff.1 b.opens
  have opens := title.ofLine?_eq some_sign few
  have single : '\n' ∉ s.headLine := by
    intro inside
    rcases List.mem_append.1 inside with inside | inside
    · cases List.eq_of_mem_replicate inside
    · rcases List.mem_cons.1 inside with inside | inside
      · cases inside
      · exact title.feedless inside
  refine ⟨⟨dropReturn s.headLine, ⟨s.level, Emoji.before s.emoji s.title⟩,
    (s.content.splitOn '\n').map dropReturn, ?_, isHeading_pieces plain⟩, ⟨rfl, ?_, rfl, ?_⟩, ?_⟩
  · rw [Heading.ofLine?_dropReturn]
    exact opens
  · exact titleParts_before b.heading
  · exact trim_unlines_pieces (Text.trim_trim _)
  · exact lines_written_append single

theorem exists_blocks_reconstruction
    (h : ∀ s ∈ sections, ∃ b : Block, b.Restores s ∧
      ∀ t, Text.lines (s.written ++ t) = b.lines ++ t.lines) :
    ∃ blocks, List.Forall₂ Block.Restores blocks sections ∧
      (reconstruction sections).lines = blocks.flatMap Block.lines := by
  induction sections with
  | nil => exact ⟨[], .nil, Text.lines_eq_nil_iff.2 rfl⟩
  | cons s rest ih =>
    obtain ⟨b, restores, written⟩ := h s List.mem_cons_self
    obtain ⟨blocks, all, lines⟩ := ih fun s' h' => h s' (List.mem_cons_of_mem _ h')
    refine ⟨b :: blocks, .cons restores all, ?_⟩
    simp [reconstruction, written, ← lines]

theorem Block.Restores.shape_eq {b : Block} (h : b.Restores s) (number : Nat) :
    (ofHeading b.heading b.body number).shape = s.shape := by
  simp [shape, ofHeading, h.level, h.parts, h.kind]

theorem Block.sectionsFrom_restores (h : List.Forall₂ Block.Restores blocks sections)
    (number : Nat) :
    (Block.sectionsFrom number blocks).map shape = sections.map shape ∧
      ((∀ s ∈ sections, ¬ ['\r', '\n'] <:+: s.content) →
        (Block.sectionsFrom number blocks).map content = sections.map content) := by
  induction h generalizing number with
  | nil => exact ⟨rfl, fun _ => rfl⟩
  | @cons b s blocks sections restores _ ih =>
    obtain ⟨shapes, contents⟩ := ih (number + b.lines.length)
    refine ⟨?_, fun clear => ?_⟩
    · simp [Block.sectionsFrom, restores.shape_eq, shapes]
    · have first := restores.content (clear s List.mem_cons_self)
      have later := contents fun s' h' => clear s' (List.mem_cons_of_mem _ h')
      rw [Block.sectionsFrom, List.map_cons, later, List.map_cons]
      exact congrArg (· :: _) first

theorem level_pos {document : Text} (h : s ∈ parse document) : 0 < s.level := by
  obtain ⟨passed, b, blocks, rfl, -⟩ := exists_block_of_mem h
  obtain ⟨-, -, some_sign, -⟩ := Heading.ofLine?_eq_some_iff.1 b.opens
  exact some_sign

/-- What is written begins with a number sign, so no mark can be taken off it. -/
theorem dropMark_reconstruction (h : ∀ s ∈ sections, 0 < s.level) :
    Text.dropMark (reconstruction sections) = reconstruction sections := by
  cases sections with
  | nil => rfl
  | cons s rest =>
    obtain ⟨more, level⟩ := Nat.exists_eq_succ_of_ne_zero (Nat.ne_of_gt (h s List.mem_cons_self))
    simp [reconstruction, written, headLine, level, List.replicate_succ, Text.dropMark]

/-- Sections written out and parsed again have the same shapes, if no heading is left in their
contents, and the same contents too where no carriage return stands before a line feed. -/
theorem parse_reconstruction (document : Text)
    (plain : ∀ s ∈ parse document, ∀ line ∈ s.content.lines, isHeading line = false) :
    (parse (reconstruction (parse document))).map shape = (parse document).map shape ∧
      ((∀ s ∈ parse document, ¬ ['\r', '\n'] <:+: s.content) →
        (parse (reconstruction (parse document))).map content = (parse document).map content) := by
  have restored : ∀ s ∈ parse document, ∃ b : Block, b.Restores s ∧
      ∀ t, Text.lines (s.written ++ t) = b.lines ++ t.lines := by
    intro s hs
    obtain ⟨passed, b, blocks, rfl, -, feedless⟩ := exists_block_of_mem hs
    exact b.exists_restores (feedless _ List.mem_cons_self) _ (plain _ hs)
  obtain ⟨blocks, all, lines⟩ := exists_blocks_reconstruction restored
  have again : parse (reconstruction (parse document)) = Block.sectionsFrom 1 blocks := by
    have none_before : ∀ line ∈ ([] : List Text), isHeading line = false := by simp
    rw [parse, dropMark_reconstruction fun s => level_pos, lines]
    exact ofLines_blocks none_before blocks
  rw [again]
  exact Block.sectionsFrom_restores all 1

/-- The first section's body is indented, the second has a marker with a selector and no content,
and the third another emoji before a second one. -/
def glyphs : Text :=
  "\uFEFFintro\n#  A \r\n\n  one\r\n two\n### ⚡\uFE0F  Run\n### 🎨\uFE0F 🧪 \tx\nlast".toList

theorem glyphs_reconstructed :
    (∀ s ∈ parse glyphs, ∀ line ∈ s.content.lines, isHeading line = false) ∧
    (∀ s ∈ parse glyphs, ¬ ['\r', '\n'] <:+: s.content) ∧
    (parse glyphs).map shape =
      [(1, .project, "A".toList, none), (3, .capabilities, "Run".toList, some (.marker .capabilities)),
        (3, .subsection, "🧪 \tx".toList, some (.other "🎨\uFE0F".toList))] ∧
    (parse (reconstruction (parse glyphs))).map shape = (parse glyphs).map shape ∧
    (parse (reconstruction (parse glyphs))).map content = (parse glyphs).map content := by
  have plain : ∀ s ∈ parse glyphs, ∀ line ∈ s.content.lines, isHeading line = false := by
    decide +kernel
  have clear : ∀ s ∈ parse glyphs, ¬ ['\r', '\n'] <:+: s.content := by decide +kernel
  obtain ⟨shapes, contents⟩ := parse_reconstruction glyphs plain
  exact ⟨plain, clear, by decide +kernel, shapes, contents clear⟩

end IslDocs.Section
