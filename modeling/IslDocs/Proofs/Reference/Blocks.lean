import IslDocs.Proofs.Reference.Feedless
import IslDocs.Proofs.Reference.Inlining
import IslDocs.Proofs.Text.BlankLines

/-! Blocks in an inlined text. What is inlined stands between an opening and a closing line, blocks
in blocks, so long as no file has such lines itself. Deleting the outermost blocks then leaves the
lines of the file at the top, and each of these blocks stands behind a reference line of that file.
Empty lines are of no account: they are added around blocks and collapsed at every level. -/

namespace IslDocs.Inline

open Text (filledLines)

variable {t : Tree} {maxDepth left depth : Nat} {p q : Path} {line first text target : Text}
  {lines outline outline' inner inside rest out : List Text} {seen seen' : List Path}
  {files : List (Path × Nat)}

/-! ### Nested blocks -/

def openingMark : Text := "<!-- START EXTERNAL CONTEXT".toList

/-- The line begins like one that opens a block. -/
def isOpening (line : Text) : Bool := Text.startsWith openingMark line

def isPlain (line : Text) : Bool := !isOpening line && line != closing

/-- Opening and closing lines are nested and matched. The outline has the first line of each
outermost block and all lines outside of blocks. -/
inductive Nested : (lines outline : List Text) → Prop where
  | nil : Nested [] []
  | line {line : Text} {lines outline : List Text} : isPlain line = true → Nested lines outline →
      Nested (line :: lines) (line :: outline)
  | block {first : Text} {inner inside lines outline : List Text} : isOpening first = true →
      Nested inner inside → Nested lines outline →
      Nested (first :: inner ++ closing :: lines) (first :: outline)

/-! ### The outline by counting -/

/-- The outline of lines that stand in `depth` blocks at first and in none at the end. -/
def outlineFrom : (depth : Nat) → List Text → Option (List Text)
  | 0, [] => some []
  | _ + 1, [] => none
  | 0, line :: rest =>
    if isOpening line then (outlineFrom 1 rest).map (line :: ·)
    else if line = closing then none
    else (outlineFrom 0 rest).map (line :: ·)
  | depth + 1, line :: rest =>
    if isOpening line then outlineFrom (depth + 2) rest
    else if line = closing then outlineFrom depth rest
    else outlineFrom (depth + 1) rest

theorem isPlain_iff : isPlain line = true ↔ isOpening line = false ∧ line ≠ closing := by
  simp [isPlain]

theorem line_cases (line : Text) :
    isOpening line = true ∨ line = closing ∨ isPlain line = true := by
  rw [isPlain_iff]
  cases isOpening line <;> simp [em]

section
variable (depth : Nat) (rest : List Text)

theorem outlineFrom_opening (h : isOpening line = true) :
    outlineFrom 0 (line :: rest) = (outlineFrom 1 rest).map (line :: ·) ∧
      outlineFrom (depth + 1) (line :: rest) = outlineFrom (depth + 2) rest := by
  simp [outlineFrom, h]

theorem outlineFrom_closing : outlineFrom 0 (closing :: rest) = none ∧
    outlineFrom (depth + 1) (closing :: rest) = outlineFrom depth rest := by
  have other : isOpening closing = false := by decide
  simp [outlineFrom, other]

theorem outlineFrom_plain (h : isPlain line = true) :
    outlineFrom 0 (line :: rest) = (outlineFrom 0 rest).map (line :: ·) ∧
      outlineFrom (depth + 1) (line :: rest) = outlineFrom (depth + 1) rest := by
  obtain ⟨opens, closes⟩ := isPlain_iff.1 h
  simp [outlineFrom, opens, closes]

end

/-- Nested lines leave the count as it was. -/
theorem Nested.outlineFrom_succ (h : Nested lines outline) (depth : Nat) (rest : List Text) :
    outlineFrom (depth + 1) (lines ++ rest) = outlineFrom (depth + 1) rest := by
  induction h generalizing depth rest with
  | nil => rfl
  | line plain _ ih => rw [List.cons_append, (outlineFrom_plain depth _ plain).2, ih]
  | block opens _ _ inner ih =>
    simp [(outlineFrom_opening depth _ opens).2, inner, (outlineFrom_closing _ _).2, ih]

theorem Nested.outlineFrom_zero (h : Nested lines outline) :
    outlineFrom 0 lines = some outline := by
  induction h with
  | nil => rfl
  | line plain _ ih => rw [(outlineFrom_plain 0 _ plain).1, ih, Option.map_some]
  | block opens inner _ _ ih =>
    simp [(outlineFrom_opening 0 _ opens).1, inner.outlineFrom_succ, (outlineFrom_closing _ _).2,
      ih]

/-- In a block, the lines up to the one that closes it are nested. -/
theorem exists_inner (h : outlineFrom (depth + 1) lines = some outline) :
    ∃ inner inside rest, lines = inner ++ closing :: rest ∧ Nested inner inside ∧
      outlineFrom depth rest = some outline := by
  induction size : lines.length using Nat.strongRecOn generalizing lines depth with
  | ind n shorter =>
    cases lines with
    | nil => cases h
    | cons line lines =>
      rw [List.length_cons] at size
      rcases line_cases line with opens | rfl | plain
      · rw [(outlineFrom_opening depth _ opens).2] at h
        -- A block of its own comes first; the block we are in is closed in what follows it.
        obtain ⟨inner, inside, rest, rfl, nested, h⟩ := shorter _ (by omega) h rfl
        rw [List.length_append, List.length_cons] at size
        obtain ⟨inner', inside', rest, rfl, nested', h⟩ := shorter _ (by omega) h rfl
        exact ⟨_, _, rest, by simp, .block opens nested nested', h⟩
      · rw [(outlineFrom_closing _ _).2] at h
        exact ⟨[], [], lines, rfl, .nil, h⟩
      · rw [(outlineFrom_plain depth _ plain).2] at h
        obtain ⟨inner, inside, rest, rfl, nested, h⟩ := shorter _ (by omega) h rfl
        exact ⟨_, _, rest, rfl, .line plain nested, h⟩

theorem nested_of_outlineFrom (h : outlineFrom 0 lines = some outline) : Nested lines outline := by
  induction size : lines.length using Nat.strongRecOn generalizing lines outline with
  | ind n shorter =>
    cases lines with
    | nil =>
      obtain rfl := Option.some.inj h
      exact .nil
    | cons line lines =>
      rw [List.length_cons] at size
      rcases line_cases line with opens | rfl | plain
      · rw [(outlineFrom_opening 0 _ opens).1] at h
        obtain ⟨outline, below, rfl⟩ := Option.map_eq_some_iff.1 h
        obtain ⟨inner, inside, rest, rfl, nested, after⟩ := exists_inner below
        rw [List.length_append, List.length_cons] at size
        exact Nested.block opens nested (shorter _ (by omega) after rfl)
      · rw [(outlineFrom_closing 0 _).1] at h
        cases h
      · rw [(outlineFrom_plain 0 _ plain).1] at h
        obtain ⟨outline, after, rfl⟩ := Option.map_eq_some_iff.1 h
        exact .line plain (shorter _ (by omega) after rfl)

theorem nested_iff : Nested lines outline ↔ outlineFrom 0 lines = some outline :=
  ⟨Nested.outlineFrom_zero, nested_of_outlineFrom⟩

theorem Nested.unique (h : Nested lines outline) (h' : Nested lines outline') :
    outline = outline' :=
  Option.some.inj ((nested_iff.1 h).symm.trans (nested_iff.1 h'))

/-- Empty lines may be left out. -/
theorem outlineFrom_filter (depth : Nat) (lines : List Text) :
    outlineFrom depth (lines.filter (!·.isEmpty)) =
      (outlineFrom depth lines).map (List.filter (!·.isEmpty)) := by
  induction lines generalizing depth with
  | nil => cases depth <;> rfl
  | cons line rest ih =>
    rcases eq_or_ne line [] with rfl | filled
    · have plain : isPlain [] = true := by decide
      rw [List.filter_cons_of_neg (by simp)]
      cases depth with
      | zero =>
        rw [(outlineFrom_plain 0 rest plain).1, ih, Option.map_map]
        rfl
      | succ depth => rw [(outlineFrom_plain depth rest plain).2, ih]
    · have keep : (line :: ·) ∘ List.filter (!·.isEmpty) =
          List.filter (fun line : Text => !line.isEmpty) ∘ (line :: ·) := by
        funext outline
        simp [filled]
      rw [List.filter_cons_of_pos (by simpa using filled)]
      rcases line_cases line with opens | rfl | plain
      · have steps := fun depth rest => outlineFrom_opening depth rest opens
        cases depth with
        | zero => simp [(steps 0 _).1, ih, keep]
        | succ depth => rw [(steps depth _).2, (steps depth _).2, ih]
      · cases depth with
        | zero => simp [(outlineFrom_closing 0 _).1]
        | succ depth => rw [(outlineFrom_closing _ _).2, (outlineFrom_closing _ _).2, ih]
      · have steps := fun depth rest => outlineFrom_plain depth rest plain
        cases depth with
        | zero => simp [(steps 0 _).1, ih, keep]
        | succ depth => rw [(steps depth _).2, (steps depth _).2, ih]

theorem exists_nested (h : Nested (lines.filter (!·.isEmpty)) outline) :
    ∃ whole, Nested lines whole ∧ whole.filter (!·.isEmpty) = outline := by
  rw [nested_iff, outlineFrom_filter] at h
  obtain ⟨whole, found, same⟩ := Option.map_eq_some_iff.1 h
  exact ⟨whole, nested_iff.2 found, same⟩

/-! ### What is put after a reference line -/

theorem nested_of_plain (h : ∀ line ∈ lines, isPlain line = true) : Nested lines lines := by
  induction lines with
  | nil => exact .nil
  | cons line rest ih =>
    exact .line (h line List.mem_cons_self) (ih fun line' h' => h line' (List.mem_cons_of_mem _ h'))

theorem isOpening_iff : isOpening line = true ↔ openingMark <+: line := List.isPrefixOf_iff_prefix

theorem isOpening_opening (target : Text) : isOpening (opening target) = true := by
  have start : "<!-- START EXTERNAL CONTEXT: ".toList = openingMark ++ ": ".toList := by
    decide +kernel
  unfold opening
  rw [isOpening_iff, start, List.append_assoc, List.append_assoc]
  exact List.prefix_append _ _

/-- The line begins otherwise than opening and closing lines. -/
theorem isPlain_of_prefix {start : Text} (h : start <+: line)
    (apart : ¬ start <+: openingMark ∧ ¬ openingMark <+: start ∧ ¬ start <+: closing) :
    isPlain line = true := by
  obtain ⟨shorter, longer, closes⟩ := apart
  refine isPlain_iff.2 ⟨Bool.eq_false_iff.2 fun opens => ?_, fun same => closes (same ▸ h)⟩
  exact (List.prefix_or_prefix_of_prefix h (isOpening_iff.1 opens)).elim shorter longer

theorem isPlain_depthNotice (maxDepth : Nat) (p : Path) :
    isPlain (depthNotice maxDepth p) = true := by
  have start : "<!-- Max recursion depth (".toList <+: depthNotice maxDepth p := by
    unfold depthNotice
    rw [List.append_assoc, List.append_assoc, List.append_assoc]
    exact List.prefix_append _ _
  exact isPlain_of_prefix start (by decide +kernel)

theorem isPlain_faultNotice (p : Path) (fault : Fault) : isPlain (faultNotice p fault) = true := by
  unfold faultNotice
  split
  · have start := List.prefix_append "[ERROR: File not found: ".toList (p.text ++ "]".toList)
    rw [← List.append_assoc] at start
    exact isPlain_of_prefix start (by decide +kernel)
  · have start := List.prefix_append "[ERROR: Could not read file ".toList
      (p.text ++ (": ".toList ++ (fault.message ++ "]".toList)))
    simp only [← List.append_assoc] at start
    exact isPlain_of_prefix start (by decide +kernel)

/-- A line of its own, or nothing. -/
theorem nested_of_isPlain (feedless : '\n' ∉ text) (plain : isPlain text = true) :
    Nested (filledLines text) (filledLines text) := by
  rw [Text.filledLines_of_line feedless]
  exact nested_of_plain fun line hl => List.mem_singleton.1 (List.mem_of_mem_filter hl) ▸ plain

theorem Withheld.nested (h : Withheld t maxDepth seen q left text) (hq : '\n' ∉ q.text) :
    ∃ outline, Nested (filledLines text) outline := by
  cases h with
  | cut =>
    exact ⟨_, nested_of_isPlain (feed_notMem_depthNotice maxDepth hq) (isPlain_depthNotice _ _)⟩
  | repeated => exact ⟨[], Text.filledLines_nil ▸ .nil⟩
  | fault _ stopped =>
    exact ⟨_, nested_of_isPlain (feed_notMem_faultNotice stopped hq) (isPlain_faultNotice _ _)⟩

/-- Without its byte-order mark, no file that can be read has a line that opens or closes a
block. -/
def Unmarked (t : Tree) : Prop := ∀ p content, t.readText p = .ok content →
  ∀ line ∈ (Text.dropMark content).lines, isOpening line = false ∧ line ≠ closing

/-- What a file holds has no line that opens or closes a block. -/
def holdsPlain : Node → Bool
  | .directory => true
  | .file bytes =>
    (Text.ofBytes? bytes).all fun content => (Text.dropMark content).lines.all isPlain

/-- What can be read stands in the tree. -/
theorem exists_entry (read : t.readText p = .ok text) :
    ∃ loc bytes, (loc, .file bytes) ∈ t.entries ∧ Text.ofBytes? bytes = some text := by
  obtain ⟨loc, bytes, -, held, decoded⟩ := Tree.readText_eq_ok_iff.1 read
  exact ⟨loc, bytes, Tree.mem_of_node? (Tree.content?_eq_some.1 held)
    (Tree.ne_nil_of_isDirectoryAt (Tree.isDirectoryAt_of_content? held)), decoded⟩

theorem unmarked_of_entries (h : ∀ entry ∈ t.entries, holdsPlain entry.2 = true) : Unmarked t := by
  intro p content read line hl
  obtain ⟨loc, bytes, listed, decoded⟩ := exists_entry read
  have plain := h _ listed
  simp only [holdsPlain, decoded, Option.all_some, List.all_eq_true] at plain
  exact isPlain_iff.1 (plain line hl)

theorem Unmarked.each (unmarked : Unmarked t) {content : Text} (read : t.readText p = .ok content) :
    ∀ line ∈ (Text.dropMark content).lines, '\n' ∉ line ∧ isPlain line = true := fun line hl =>
  ⟨Text.feed_notMem_of_mem_lines hl, isPlain_iff.2 (unmarked p content read line hl)⟩

/-- The lines of a file that are not empty, each reference line with the opening of its block. -/
def outlineOf (lines : List Text) : List Text :=
  (lines.filter (!·.isEmpty)).flatMap fun line =>
    line :: ((Reference.target? line).map opening).toList

theorem outlineOf_cons (filled : line ≠ []) (rest : List Text) : outlineOf (line :: rest) =
    line :: (((Reference.target? line).map opening).toList ++ outlineOf rest) := by
  rw [outlineOf, List.filter_cons_of_pos (by simpa using filled), List.flatMap_cons,
    List.cons_append]
  rfl

theorem filledLines_of_filled (clean : '\n' ∉ line) (filled : line ≠ []) :
    filledLines line = [line] := by
  rw [Text.filledLines_of_line clean, List.filter_cons_of_pos (by simpa using filled),
    List.filter_nil]

theorem flatMap_filledLines_block (clean : '\n' ∉ target) (text : Text) :
    (block target text).flatMap filledLines =
      opening target :: (filledLines text ++ [closing]) := by
  have filled : opening target ≠ [] := fun empty => by
    have opens := isOpening_opening target
    rw [empty] at opens
    cases opens
  have opens := filledLines_of_filled (feed_notMem_opening clean) filled
  have closes : filledLines closing = [closing] := by decide +kernel
  simp [block, opens, closes]

/-- Behind a reference line stands a block. -/
theorem nested_behind (found : Reference.target? line = some target) (clean : '\n' ∉ line)
    (plain : isPlain line = true) (inner : Nested (filledLines text) inside)
    (h : Nested (out.flatMap filledLines) (outlineOf rest)) :
    Nested ((line :: block target text ++ out).flatMap filledLines)
      (outlineOf (line :: rest)) := by
  have filled : line ≠ [] := by
    rintro rfl
    cases found
  have feedless : '\n' ∉ target := fun feed => clean (Reference.subset_of_target? found feed)
  rw [List.flatMap_append, List.flatMap_cons, filledLines_of_filled clean filled,
    flatMap_filledLines_block feedless, outlineOf_cons filled, found]
  simpa using Nested.line plain (.block (isOpening_opening target) inner h)

/-- The lines that are not empty are nested, with the outline that the file at `p` has. -/
theorem Inlines.nested (feedless : t.Feedless) (unmarked : Unmarked t)
    (h : Inlines t maxDepth left p lines seen out files seen') (hp : '\n' ∉ p.text)
    (each : ∀ line ∈ lines, '\n' ∉ line ∧ isPlain line = true) :
    Nested (out.flatMap filledLines) (outlineOf lines) := by
  induction h with
  | done => exact .nil
  | @line left p line lines seen out files seen' found _ ih =>
    obtain ⟨⟨clean, plain⟩, each⟩ := List.forall_mem_cons.1 each
    have rest := ih hp each
    rcases eq_or_ne line [] with rfl | filled
    · exact rest
    · rw [List.flatMap_cons, filledLines_of_filled clean filled, outlineOf_cons filled, found]
      exact .line plain rest
  | withheld found withheld _ ih =>
    obtain ⟨⟨clean, plain⟩, each⟩ := List.forall_mem_cons.1 each
    have target := fun feed => clean (Reference.subset_of_target? found feed)
    obtain ⟨inside, inner⟩ := withheld.nested (Path.feed_notMem_resolveAgainst hp target)
    exact nested_behind found clean plain inner (ih hp each)
  | inlined found _ _ read _ _ below ih =>
    obtain ⟨⟨clean, plain⟩, each⟩ := List.forall_mem_cons.1 each
    -- The file below was collapsed on its own, which does not change its lines.
    have inner := below (feedless.readable read) (unmarked.each read)
    rw [← Text.filledLines_unlines, ← Text.filledLines_collapse] at inner
    exact nested_behind found clean plain inner (ih hp each)

/-! ### The document at the top -/

theorem filter_isOpening_outlineOf (plain : ∀ line ∈ lines, isPlain line = true) :
    (outlineOf lines).filter isOpening = (lines.filterMap Reference.target?).map opening := by
  induction lines with
  | nil => rfl
  | cons line rest ih =>
    obtain ⟨plain, plains⟩ := List.forall_mem_cons.1 plain
    rcases eq_or_ne line [] with rfl | filled
    · exact ih plains
    · rw [outlineOf_cons filled, List.filter_cons_of_neg (by simp [(isPlain_iff.1 plain).1]),
        List.filter_append, ih plains]
      cases found : Reference.target? line with
      | none => rw [List.filterMap_cons_none found]; rfl
      | some target =>
        rw [List.filterMap_cons_some found]
        simp [isOpening_opening]

theorem filter_not_isOpening_outlineOf (plain : ∀ line ∈ lines, isPlain line = true) :
    (outlineOf lines).filter (!isOpening ·) = lines.filter (!·.isEmpty) := by
  induction lines with
  | nil => rfl
  | cons line rest ih =>
    obtain ⟨plain, plains⟩ := List.forall_mem_cons.1 plain
    rcases eq_or_ne line [] with rfl | filled
    · exact ih plains
    · rw [outlineOf_cons filled, List.filter_cons_of_pos (by simp [(isPlain_iff.1 plain).1]),
        List.filter_append, ih plains, List.filter_cons_of_pos (by simpa using filled)]
      cases Reference.target? line <;> simp [isOpening_opening]

/-- In the text of a document at the top, blocks are nested and matched, in one way only. The
outermost ones open with the targets of the document's reference lines, in order, each behind its
line, and without blocks and empty lines the lines are those of the document. -/
theorem uninlined_document (feedless : t.Feedless) (unmarked : Unmarked t) {content : Text}
    (read : t.readText p = .ok content) (maxDepth : Nat) (seen : List Path) :
    let top := (Text.dropMark content).lines
    ∃ outline, Nested ((atDepth t maxDepth (maxDepth + 1) p seen).1.splitOn '\n') outline ∧
      outline.filter isOpening = (top.filterMap Reference.target?).map opening ∧
      outline.filter (fun line => !isOpening line && !line.isEmpty) = top.filter (!·.isEmpty) ∧
      outline.filter (!·.isEmpty) = outlineOf top ∧
      ∀ other, Nested ((atDepth t maxDepth (maxDepth + 1) p seen).1.splitOn '\n') other →
        other = outline := by
  intro top
  have plain : ∀ line ∈ top, isPlain line = true := fun line hl =>
    (unmarked.each read line hl).2
  obtain ⟨out, files, seen', runs, same⟩ :=
    exists_inlines (t := t) (Nat.le_refl maxDepth) p (Text.dropMark content).lines (addSeen seen p)
  have text : (atDepth t maxDepth (maxDepth + 1) p seen).1 = Text.collapse (Text.unlines out) := by
    simp [atDepth, read, same]
  have filled := runs.nested feedless unmarked (feedless.readable read) (unmarked.each read)
  rw [← Text.filledLines_unlines, ← Text.filledLines_collapse, ← text] at filled
  obtain ⟨outline, nested, kept⟩ := exists_nested filled
  refine ⟨outline, nested, ?_, ?_, kept, fun _ other => other.unique nested⟩
  · rw [← filter_isOpening_outlineOf plain, ← kept, List.filter_filter]
    refine List.filter_congr fun line _ => ?_
    cases line with
    | nil => decide
    | cons c rest => simp
  · rw [← filter_not_isOpening_outlineOf plain, ← kept, List.filter_filter]

/-! ### A circle and a document that is missing -/

/-- Behind a byte-order mark, two references to one document and one to a missing document. -/
def loopedText : Text :=
  ("\uFEFF# A\n> **Reference**: [b](b.md)\n\n\nmiddle\n" ++
    "> **Reference**: [b](b.md)\n> **Reference**: [n](n.md)").toList

/-- The second document refers back to the first. -/
def looped : Tree where
  entries :=
    [(["a.md".toList], .file loopedText.bytes),
     (["b.md".toList], .file (Text.bytes "> **Reference**: [a](a.md)\n# B\n".toList))]
  workDir := []

theorem looped_uninlined : ∃ outline,
    Nested ((atDepth looped 3 4 ⟨"/a.md".toList⟩ []).1.splitOn '\n') outline ∧
      outline.filter isOpening = ["b.md", "b.md", "n.md"].map (opening ∘ String.toList) ∧
      outline.filter (fun line => !isOpening line && !line.isEmpty) =
        ["# A", "> **Reference**: [b](b.md)", "middle", "> **Reference**: [b](b.md)",
          "> **Reference**: [n](n.md)"].map String.toList := by
  have read : looped.readText ⟨"/a.md".toList⟩ = .ok loopedText := rfl
  have targets : ((Text.dropMark loopedText).lines.filterMap Reference.target?).map opening =
      ["b.md", "b.md", "n.md"].map (opening ∘ String.toList) := by decide +kernel
  have document : (Text.dropMark loopedText).lines.filter (!·.isEmpty) =
      ["# A", "> **Reference**: [b](b.md)", "middle", "> **Reference**: [b](b.md)",
        "> **Reference**: [n](n.md)"].map String.toList := by decide +kernel
  obtain ⟨outline, nested, opened, kept, -⟩ :=
    uninlined_document (by decide +kernel) (unmarked_of_entries (by decide +kernel)) read 3 []
  exact ⟨outline, nested, opened.trans targets, kept.trans document⟩

/-- The second document begins with a byte-order mark, and what stands behind it closes a block. -/
def masked : Tree where
  entries :=
    [(["a.md".toList], .file (Text.bytes "> **Reference**: [b](b.md)\n".toList)),
     (["b.md".toList], .file (Text.bytes "\uFEFF<!-- END EXTERNAL CONTEXT -->\n".toList))]
  workDir := []

/-- With the byte-order mark counted in, no line of a file opens or closes a block. But the mark is
dropped and the block of the second document is closed twice. -/
theorem masked_not_nested : masked.Feedless ∧
    (∀ p content, masked.readText p = .ok content →
      ∀ line ∈ content.lines, isOpening line = false ∧ line ≠ closing) ∧
    (∃ content, masked.readText ⟨"/a.md".toList⟩ = .ok content) ∧
    ¬ ∃ outline, Nested ((atDepth masked 1 2 ⟨"/a.md".toList⟩ []).1.splitOn '\n') outline := by
  refine ⟨by decide +kernel, fun p content read line hl => ?_,
    ⟨"> **Reference**: [b](b.md)\n".toList, by decide +kernel⟩, fun ⟨outline, nested⟩ => ?_⟩
  · obtain ⟨loc, bytes, listed, decoded⟩ := exists_entry read
    simp only [masked, List.mem_cons, Prod.mk.injEq, Node.file.injEq, List.not_mem_nil,
      or_false] at listed
    obtain ⟨-, rfl⟩ | ⟨-, rfl⟩ := listed
    all_goals
      rw [Text.ofBytes?_bytes] at decoded
      obtain rfl := Option.some.inj decoded
      exact isPlain_iff.1 (List.all_eq_true.1 (by decide +kernel) line hl)
  · have unmatched :
        outlineFrom 0 ((atDepth masked 1 2 ⟨"/a.md".toList⟩ []).1.splitOn '\n') = none := by
      decide +kernel
    rw [nested_iff, unmatched] at nested
    cases nested

end IslDocs.Inline
