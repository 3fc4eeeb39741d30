import IslDocs.Section.Outline
import IslDocs.Section.Scan
import IslDocs.Proofs.Section.Heading

/-! The lines of a document as blocks, each a heading line and the lines down to the next one. Both
ways to find the sections of a document turn its blocks into sections, one by one. -/

namespace IslDocs.Section

open Heading (isHeading)

/-- A heading line with the lines below it that are not headings. -/
structure Block where
  first : Text
  heading : Heading
  body : List Text
  opens : Heading.ofLine? first = some heading
  plain : ∀ line ∈ body, isHeading line = false

namespace Block

def lines (b : Block) : List Text := b.first :: b.body

/-- The sections of blocks, the first of which begins on line `number`. -/
def sectionsFrom : (number : Nat) → List Block → List Section
  | _, [] => []
  | number, b :: rest =>
    ofHeading b.heading b.body number :: sectionsFrom (number + b.lines.length) rest

/-- The positions of the heading lines of blocks, the first of which begins at `start`. -/
def startsFrom : (start : Nat) → List Block → List Nat
  | _, [] => []
  | start, b :: rest => start :: startsFrom (start + b.lines.length) rest

end Block

variable {before lines body : List Text} {blocks : List Block} {s : Section} {line : Text}
  {heading : Heading} {number start : Nat}

theorem exists_blocks (lines : List Text) : ∃ before, ∃ blocks : List Block,
    lines = before ++ blocks.flatMap Block.lines ∧ ∀ line ∈ before, isHeading line = false := by
  induction lines with
  | nil => exact ⟨[], [], rfl, by simp⟩
  | cons line rest ih =>
    obtain ⟨before, blocks, rfl, plain⟩ := ih
    cases found : Heading.ofLine? line with
    | none =>
      refine ⟨line :: before, blocks, rfl, ?_⟩
      simpa [Heading.isHeading_eq_false_iff, found] using plain
    | some heading => exact ⟨[], ⟨line, heading, before, found, plain⟩ :: blocks, rfl, by simp⟩

/-! ### Sections cut out between headings -/

theorem filter_zipIdx_of_plain (h : ∀ line ∈ body, isHeading line = false) (start : Nat) :
    (body.zipIdx start).filter (fun (line, _) => isHeading line) = [] := by
  refine List.filter_eq_nil_iff.2 fun ⟨line, k⟩ hl => ?_
  simp [h line (List.fst_mem_of_mem_zipIdx hl)]

theorem filter_zipIdx_blocks (blocks : List Block) (start : Nat) :
    (((blocks.flatMap Block.lines).zipIdx start).filter
      (fun (line, _) => isHeading line)).map Prod.snd = Block.startsFrom start blocks := by
  induction blocks generalizing start with
  | nil => rfl
  | cons b rest ih =>
    have opens : isHeading b.first = true := Heading.isHeading_iff.2 ⟨_, b.opens⟩
    have next : start + 1 + b.body.length = start + b.lines.length := by
      simp [Block.lines]
      omega
    rw [List.flatMap_cons, Block.lines, List.cons_append, List.zipIdx_cons, List.zipIdx_append,
      List.filter_cons_of_pos (by exact opens), List.filter_append, filter_zipIdx_of_plain b.plain,
      List.nil_append, List.map_cons, next, ih]
    rfl

theorem headingPositions_blocks (h : ∀ line ∈ before, isHeading line = false)
    (blocks : List Block) :
    headingPositions (before ++ blocks.flatMap Block.lines) =
      Block.startsFrom before.length blocks := by
  simp [headingPositions, List.zipIdx_append, filter_zipIdx_of_plain h, filter_zipIdx_blocks]

theorem between?_block (passed : List Text) (b : Block) (rest : List Text) :
    between? (passed ++ (b.lines ++ rest)) passed.length (passed.length + b.lines.length) =
      some (ofHeading b.heading b.body (passed.length + 1)) := by
  have found : (passed ++ (b.lines ++ rest))[passed.length]? = some b.first := by
    simp [Block.lines]
  have below : (passed ++ (b.lines ++ rest)).drop (passed.length + 1) = b.body ++ rest := by
    simp [Block.lines, List.drop_append]
  have long : passed.length + b.lines.length - (passed.length + 1) = b.body.length := by
    simp [Block.lines]
    omega
  simp [between?, found, below, long, b.opens]

/-- Each section reaches from its heading to the next, and the last to the end. -/
theorem filterMap_between? (passed : List Text) (blocks : List Block) :
    let lines := passed ++ blocks.flatMap Block.lines
    let starts := Block.startsFrom passed.length blocks
    (starts.zip (starts.drop 1 ++ [lines.length])).filterMap
      (fun (start, stop) => between? lines start stop) =
      Block.sectionsFrom (passed.length + 1) blocks := by
  induction blocks generalizing passed with
  | nil => rfl
  | cons b rest ih =>
    intro lines starts
    have first := between?_block passed b (rest.flatMap Block.lines)
    have later := ih (passed ++ b.lines)
    have split : lines = passed ++ b.lines ++ rest.flatMap Block.lines := by simp [lines]
    rw [← List.append_assoc, ← split] at first
    rw [← split, List.length_append] at later
    cases rest with
    | nil =>
      have stop : lines.length = passed.length + b.lines.length := by simp [split]
      rw [← stop] at first
      simp [starts, Block.startsFrom, Block.sectionsFrom, first]
    | cons next more =>
      simp only [starts, Block.startsFrom, List.drop_one, List.tail_cons, List.cons_append,
        List.zip_cons_cons, Block.sectionsFrom] at later ⊢
      simp [first, later, Nat.add_right_comm _ 1]

theorem ofLines_blocks (h : ∀ line ∈ before, isHeading line = false) (blocks : List Block) :
    ofLines (before ++ blocks.flatMap Block.lines) =
      Block.sectionsFrom (before.length + 1) blocks := by
  rw [ofLines, headingPositions_blocks h]
  exact filterMap_between? before blocks

theorem Block.mem_sectionsFrom {number : Nat} (h : s ∈ Block.sectionsFrom number blocks) :
    ∃ earlier b later, blocks = earlier ++ b :: later ∧
      s = ofHeading b.heading b.body (number + (earlier.flatMap Block.lines).length) := by
  induction blocks generalizing number with
  | nil => cases h
  | cons b rest ih =>
    rcases List.mem_cons.1 h with rfl | h
    · exact ⟨[], b, rest, rfl, rfl⟩
    · obtain ⟨earlier, b', later, rfl, rfl⟩ := ih h
      exact ⟨b :: earlier, b', later, rfl, by simp [Nat.add_assoc]⟩

/-- A document as blocks, after lines that belong to no section. -/
theorem exists_blocks_document (document : Text) : ∃ before, ∃ blocks : List Block,
    (Text.dropMark document).lines = before ++ blocks.flatMap Block.lines ∧
      parse document = Block.sectionsFrom (before.length + 1) blocks ∧
      ∀ b ∈ blocks, ∀ line ∈ b.lines, '\n' ∉ line := by
  obtain ⟨before, blocks, split, plain⟩ := exists_blocks (Text.dropMark document).lines
  refine ⟨before, blocks, split, by rw [parse, split, ofLines_blocks plain], fun b hb line hl => ?_⟩
  have listed : line ∈ (Text.dropMark document).lines := by
    rw [split]
    exact List.mem_append_right _ (List.mem_flatMap.2 ⟨b, hb, hl⟩)
  exact Text.feed_notMem_of_mem_lines listed

theorem exists_block_of_mem {document : Text} (h : s ∈ parse document) :
    ∃ passed, ∃ b : Block, ∃ blocks : List Block,
      s = ofHeading b.heading b.body (passed.length + 1) ∧
      (Text.dropMark document).lines = passed ++ (b.lines ++ blocks.flatMap Block.lines) ∧
      ∀ line ∈ b.lines, '\n' ∉ line := by
  obtain ⟨before, blocks, split, parsed, feedless⟩ := exists_blocks_document document
  rw [parsed] at h
  obtain ⟨earlier, b, later, rfl, rfl⟩ := Block.mem_sectionsFrom h
  refine ⟨before ++ earlier.flatMap Block.lines, b, later, ?_, by simp [split],
    feedless b (by simp)⟩
  rw [List.length_append, Nat.add_right_comm]

/-! ### Sections found in one pass -/

theorem scanFrom_plain (h : ∀ line ∈ body, isHeading line = false) (rest : List Text)
    (opened : Option Open) (number : Nat) :
    scanFrom opened number (body ++ rest) =
      scanFrom (opened.map fun o => { o with body := body.reverse ++ o.body })
        (number + body.length) rest := by
  induction body generalizing opened number with
  | nil => cases opened <;> rfl
  | cons line more ih =>
    have none := Heading.isHeading_eq_false_iff.1 (h line List.mem_cons_self)
    rw [List.cons_append, scanFrom, none, ih fun line' h' => h line' (List.mem_cons_of_mem _ h')]
    cases opened <;> simp [Nat.add_assoc, Nat.add_comm 1]

theorem scanFrom_blocks (opened : Option Open) (number : Nat) (blocks : List Block) :
    scanFrom opened number (blocks.flatMap Block.lines) =
      (opened.map Open.close).toList ++ Block.sectionsFrom number blocks := by
  induction blocks generalizing opened number with
  | nil => simp [scanFrom, Block.sectionsFrom]
  | cons b rest ih =>
    have next : number + 1 + b.body.length = number + b.lines.length := by
      simp [Block.lines]
      omega
    rw [List.flatMap_cons, Block.lines, List.cons_append, scanFrom, b.opens]
    simp only []
    rw [scanFrom_plain b.plain, ih, next, Block.sectionsFrom]
    simp [Open.close]

/-- The pass and the outline find the same sections. -/
theorem scan_eq_parse (document : Text) : scan document = parse document := by
  obtain ⟨before, blocks, split, plain⟩ := exists_blocks (Text.dropMark document).lines
  simp [scan, parse, split, ofLines_blocks plain, scanFrom_plain plain, scanFrom_blocks,
    Nat.add_comm]

end IslDocs.Section
