import IslDocs.Interface.Projection
import IslDocs.Proofs.Interface.Flow
import IslDocs.Proofs.Text.BlankLines
import IslDocs.Proofs.Text.Trim

/-! The interface of a document line by line. Collapsing blank lines keeps every line that is not
empty, so two interfaces are the same text only if their lines are. What shows of a flow block are
the implementation paths in it, and where headings should end a block, lines that merely begin like
one. -/

namespace IslDocs

variable {line path : Text}

/-! ### Implementation paths -/

namespace Text

theorem sublist_of_after? {p t rest : Text} (h : after? p t = some rest) : rest.Sublist t := by
  rw [← List.isPrefixOf?_eq_some_iff_append_eq.1 h]
  exact List.sublist_append_right p rest

end Text

open scoped List in
theorem Reference.sublist_of_implementation? (h : Reference.implementation? line = some path) :
    path.Sublist line := by
  simp only [Reference.implementation?, Option.bind_eq_bind, Option.bind_eq_some_iff,
    Option.ite_none_left_eq_some] at h
  obtain ⟨rest, opened, value, named, -, found⟩ := h
  obtain rfl := Option.some.inj found
  calc Text.trim (trimBackticks (Text.trim value))
    _ <+ trimBackticks (Text.trim value) := Text.trim_sublist _
    _ <+ (Text.trim value).dropWhile (· == '\x60') := Text.dropEndWhile_sublist _ _
    _ <+ Text.trim value := List.dropWhile_sublist _
    _ <+ value := Text.trim_sublist _
    _ <+ Text.trimStart rest := Text.sublist_of_after? named
    _ <+ rest := List.dropWhile_sublist _
    _ <+ Text.trimStart line := Text.sublist_of_after? opened
    _ <+ line := List.dropWhile_sublist _

namespace Interface

/-- The implementation paths that a document declares, in order. -/
def paths (content : Text) : List Text :=
  (Text.dropMark content).lines.filterMap Reference.implementation?

/-- The lines in front of a document in its interface. -/
def leading (name content : Text) : List Text := header name :: (paths content).map pathLine

theorem project_eq (name content : Text) : project name content =
    Text.collapse (Text.unlines (leading name content ++
      Flow.uncovered Flow.ends (Text.dropMark content).lines)) := by
  rw [← Flow.outside_eq]
  rfl

theorem feed_notMem_of_mem_paths {content : Text} (h : path ∈ paths content) : '\n' ∉ path := by
  obtain ⟨line, listed, found⟩ := List.mem_filterMap.1 h
  exact fun inside => Text.feed_notMem_of_mem_lines listed
    ((Reference.sublist_of_implementation? found).subset inside)

theorem feed_notMem_pathLine (h : '\n' ∉ path) : '\n' ∉ pathLine path := by
  unfold pathLine
  simp [h]

theorem feed_notMem_header {name : Text} (h : '\n' ∉ name) : '\n' ∉ header name := by
  unfold header
  simp [h]

theorem pathLine_injective : Function.Injective pathLine := fun _ _ same =>
  List.append_cancel_left (List.append_cancel_right same)

/-! ### What shows of a document -/

variable {name content content' : Text} {lines lines' : List Text}

theorem feed_notMem_of_mem_leading (h : '\n' ∉ name) (hl : line ∈ leading name content) :
    '\n' ∉ line := by
  rcases List.mem_cons.1 hl with rfl | hl
  · exact feed_notMem_header h
  · obtain ⟨path, declared, rfl⟩ := List.mem_map.1 hl
    exact feed_notMem_pathLine (feed_notMem_of_mem_paths declared)

/-- Interfaces that are the same text have the same lines. -/
theorem filledLines_eq_of_collapse_eq
    (h : Text.collapse (Text.unlines (leading name content ++ lines)) =
      Text.collapse (Text.unlines (leading name content' ++ lines'))) :
    ((paths content).map pathLine ++ lines).flatMap Text.filledLines =
      ((paths content').map pathLine ++ lines').flatMap Text.filledLines := by
  have same := congrArg Text.filledLines h
  simp only [Text.filledLines_collapse, Text.filledLines_unlines, leading, List.cons_append,
    List.flatMap_cons] at same
  exact List.append_cancel_left same

/-- The lines of an interface are its header, its implementation paths and the lines of the document
outside flow blocks. If blocks are to end at headings of level 2 and 4 and not at all lines with
four number signs, this is still so exactly if no line in such a block begins with these signs. -/
theorem project_suppresses_blocks (name content : Text) (h : '\n' ∉ name) :
    let lines := (Text.dropMark content).lines
    (∀ line ∈ leading name content ++ lines, '\n' ∉ line) ∧
    project name content =
      Text.collapse (Text.unlines (leading name content ++ Flow.uncovered Flow.ends lines)) ∧
    (project name content = Text.collapse
        (Text.unlines (leading name content ++ Flow.uncovered Flow.endsByHeading lines)) ↔
      ∀ k line, lines[k]? = some line → Flow.Covers Flow.endsByHeading lines k →
        Flow.hasFourSigns line = false) := by
  intro lines
  have clean : ∀ line ∈ lines, '\n' ∉ line := fun _ => Text.feed_notMem_of_mem_lines
  have filled : ∀ stop, (Flow.uncovered stop lines).flatMap Text.filledLines =
      (Flow.uncovered stop lines).filter (!·.isEmpty) := fun stop => by
    rw [← Text.filledLines_unlines]
    exact Text.filledLines_unlines_of_lines fun line hl => clean line (Flow.mem_of_mem_uncovered hl)
  refine ⟨fun line hl => ?_, project_eq name content, fun same => ?_, fun unsigned => ?_⟩
  · rcases List.mem_append.1 hl with hl | hl
    · exact feed_notMem_of_mem_leading h hl
    · exact clean line hl
  · rw [project_eq] at same
    have lines := filledLines_eq_of_collapse_eq same
    rw [List.flatMap_append, List.flatMap_append, List.append_cancel_left_eq, filled,
      filled] at lines
    exact Flow.unsigned_of_filter_eq lines
  · rw [project_eq, Flow.Unsigned.uncovered_eq unsigned]

/-- The interface has the lines that lie in no block, of which none opens one, and with them all
lines that end one. Cut at its line feeds it has no others, apart from empty ones. -/
theorem project_keeps_uncovered (name content : Text) (h : '\n' ∉ name) :
    let lines := (Text.dropMark content).lines
    let kept := Flow.uncovered Flow.ends lines
    let shown := header name :: (lines.filterMap Reference.implementation?).map pathLine ++ kept
    project name content = Text.collapse (Text.unlines shown) ∧
    Text.filledLines (project name content) = shown.filter (!·.isEmpty) ∧
    (∀ line ∈ kept, Flow.opens line = false) ∧
    ∀ k line, lines[k]? = some line → Flow.ends line = true → ¬ Flow.Covers Flow.ends lines k := by
  intro lines kept shown
  have clean : ∀ line ∈ shown, '\n' ∉ line := by
    intro line hl
    rcases List.mem_append.1 hl with hl | hl
    · exact feed_notMem_of_mem_leading h hl
    · exact Text.feed_notMem_of_mem_lines (Flow.mem_of_mem_uncovered hl)
  refine ⟨project_eq name content, ?_, fun _ => Flow.opens_of_mem_uncovered,
    fun k line => Flow.not_covers_of_ends⟩
  calc Text.filledLines (project name content)
    _ = Text.filledLines (Text.unlines shown) := by rw [project_eq, Text.filledLines_collapse]; rfl
    _ = shown.filter (!·.isEmpty) := Text.filledLines_unlines_of_lines clean

/-- A separator outside, a block opened again inside, one right behind another, and one at the end
of the document. -/
def blocks : Text := '\uFEFF' :: Text.unlines (["# A", "---", " **Flow**:", "1. Load",
  "**Flow:** go on", "### B", "**Implementation**: a.js", "---", "**Flow**:", "\t## C", "end",
  "**Flow**: x"].map String.toList)

theorem blocks_uncovered :
    Text.filledLines (project "a.md".toList blocks) =
        ["<!-- INTERFACE (REF) FOR: a.md -->", "<!-- IMPLEMENTATION PATH: a.js -->", "# A", "---",
          "---", "\t## C", "end"].map String.toList ∧
      Flow.Covers Flow.ends (Text.dropMark blocks).lines 8 ∧
      ¬ Flow.Covers Flow.ends (Text.dropMark blocks).lines 9 := by
  have clean : '\n' ∉ "a.md".toList := by decide
  obtain ⟨-, filled, -, ends⟩ := project_keeps_uncovered "a.md".toList blocks clean
  refine ⟨filled.trans (by decide +kernel), by decide +kernel, ends 9 "\t## C".toList ?_ ?_⟩
  · decide +kernel
  · decide +kernel

/-! ### A line that is no heading -/

/-- Two steps, the second under too many number signs for a heading. -/
def deepSteps : Text := "# A\n**Flow**:\n1. Load\n##### Later\n---\nend\n".toList

theorem deepSteps_suppressed :
    project "a.md".toList deepSteps = Text.collapse (Text.unlines (leading "a.md".toList deepSteps ++
      ["# A", "##### Later", "---", "end"].map String.toList)) := by
  have kept : Flow.uncovered Flow.ends (Text.dropMark deepSteps).lines =
      ["# A", "##### Later", "---", "end"].map String.toList := by decide +kernel
  rw [(project_suppresses_blocks "a.md".toList deepSteps (by decide)).2.1, kept]

/-- Up to the next heading or separator, the second step belongs to the block. -/
theorem deepSteps_shown :
    Flow.uncovered Flow.endsByHeading (Text.dropMark deepSteps).lines =
        ["# A", "---", "end"].map String.toList ∧
      project "a.md".toList deepSteps ≠ Text.collapse (Text.unlines
        (leading "a.md".toList deepSteps ++
          Flow.uncovered Flow.endsByHeading (Text.dropMark deepSteps).lines)) := by
  decide +kernel

/-! ### Two documents -/

theorem flatMap_filledLines_pathLine (content : Text) :
    ((paths content).map pathLine).flatMap Text.filledLines = (paths content).map pathLine := by
  have clean : ∀ line ∈ (paths content).map pathLine, '\n' ∉ line := fun line hl => by
    obtain ⟨path, declared, rfl⟩ := List.mem_map.1 hl
    exact feed_notMem_pathLine (feed_notMem_of_mem_paths declared)
  rw [← Text.filledLines_unlines, Text.filledLines_unlines_of_lines clean, List.filter_eq_self]
  intro line hl
  obtain ⟨path, -, rfl⟩ := List.mem_map.1 hl
  rfl

/-- No line in a flow block declares an implementation path. -/
def HidesNoPath (content : Text) : Prop :=
  ∀ k line, (Text.dropMark content).lines[k]? = some line →
    Flow.Covers Flow.ends (Text.dropMark content).lines k → Reference.implementation? line = none

theorem HidesNoPath.paths_eq (h : HidesNoPath content) : paths content =
    (Flow.uncovered Flow.ends (Text.dropMark content).lines).filterMap
      Reference.implementation? := by
  have all : (Text.dropMark content).lines = (Text.dropMark content).lines.zipIdx.map Prod.fst := by
    rw [List.zipIdx_map_fst]
  rw [paths, Flow.uncovered, List.filterMap_map, List.filterMap_filter]
  conv_lhs => rw [all, List.filterMap_map]
  refine List.filterMap_congr fun entry listed => ?_
  obtain ⟨line, k⟩ := entry
  by_cases covered : Flow.Covers Flow.ends (Text.dropMark content).lines k
  · simp [covered, h k line (List.mem_zipIdx_iff_getElem?.1 listed) covered]
  · simp [covered]

/-- Documents with the same lines outside flow blocks have the same interface exactly if they
declare the same implementation paths, those in flow blocks included; so they do if there are none in
flow blocks. -/
theorem project_eq_iff_paths (name content content' : Text)
    (same : Flow.uncovered Flow.ends (Text.dropMark content).lines =
      Flow.uncovered Flow.ends (Text.dropMark content').lines) :
    (project name content = project name content' ↔ paths content = paths content') ∧
      (HidesNoPath content → HidesNoPath content' →
        project name content = project name content') := by
  have iff : project name content = project name content' ↔ paths content = paths content' := by
    rw [project_eq, project_eq, same]
    constructor
    · intro shown
      have lines := filledLines_eq_of_collapse_eq shown
      simp only [List.flatMap_append, List.append_cancel_right_eq,
        flatMap_filledLines_pathLine] at lines
      exact pathLine_injective.list_map lines
    · intro declared
      rw [leading, declared, ← leading]
  refine ⟨iff, fun hides hides' => iff.2 ?_⟩
  rw [hides.paths_eq, hides'.paths_eq, same]

/-- A document with these lines in a flow block. -/
def withFlow (flow : String) : Text := ("# A\n**Flow**:\n" ++ flow ++ "---\nend").toList

theorem withFlow_suppressed :
    project "a.md".toList (withFlow "1. Load\n") =
      project "a.md".toList (withFlow "1. Store\n### Hints\n") := by
  refine (project_eq_iff_paths _ _ _ (by decide +kernel)).1.2 (by decide +kernel)

/-- An implementation path in a flow block is in the interface. -/
theorem withFlow_shown :
    Flow.uncovered Flow.ends (Text.dropMark (withFlow "1. Load\n")).lines =
        Flow.uncovered Flow.ends (Text.dropMark (withFlow "**Implementation**: a.js\n")).lines ∧
      project "a.md".toList (withFlow "1. Load\n") ≠
        project "a.md".toList (withFlow "**Implementation**: a.js\n") := by
  decide +kernel

end Interface
end IslDocs
