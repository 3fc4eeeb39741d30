import IslDocs.Proofs.Section.Blocks

/-! Documents put together before a heading line. A heading closes the section that is open and does
not depend on what stands above it, so the two parts are parsed apart, and only the numbers of the
lines below go up. The line that the upper part ends in may lose a carriage return to the line end
behind it, or be empty: in both cases it changes by white space that is trimmed off. -/

namespace IslDocs.Section

open Heading (isHeading)

variable {t : Text} {rest : List Text}

/-- The section moved down by `count` lines. -/
def shift (count : Nat) (s : Section) : Section := { s with line := s.line + count }

def Open.shift (count : Nat) (o : Open) : Open := { o with line := o.line + count }

/-- The section with one more line in its body. -/
def Open.push (line : Text) (o : Open) : Open := { o with body := line :: o.body }

@[simp] theorem Open.close_push (line : Text) (o : Open) : (o.push line).close =
    { o.close with content := Text.trim (Text.unlines (o.body.reverse ++ [line])) } := by
  simp [Open.close, Open.push, ofHeading]

@[simp] theorem Open.close_push_nil (o : Open) : (o.push []).close = o.close := by
  rw [Open.close_push, Text.trim_unlines_concat_nil]
  rfl

@[simp] theorem Open.close_push_dropReturn (line : Text) (o : Open) :
    (o.push (Text.dropReturn line)).close = (o.push line).close := by
  simp [Text.trim_unlines_concat_congr (Text.trimEnd_dropReturn line)]

theorem scanFrom_shift (count : Nat) (opened : Option Open) (number : Nat) (lines : List Text) :
    scanFrom (opened.map (Open.shift count)) (number + count) lines =
      (scanFrom opened number lines).map (shift count) := by
  induction lines generalizing opened number with
  | nil => cases opened <;> rfl
  | cons line rest ih =>
    rw [scanFrom, scanFrom]
    cases Heading.ofLine? line with
    | none =>
      have same := ih (opened.map (Open.push line)) (number + 1)
      rw [Nat.add_right_comm]
      cases opened <;> exact same
    | some heading =>
      have same := ih (some ⟨heading, number, []⟩) (number + 1)
      rw [Nat.add_right_comm, List.map_append, ← same]
      cases opened <;> rfl

/-- A heading closes the open section, and the pass goes on from there as from the start. -/
theorem scanFrom_append (h : rest.head?.any isHeading = true) (opened : Option Open) (number : Nat)
    (lines : List Text) : scanFrom opened number (lines ++ rest) =
      scanFrom opened number lines ++ scanFrom none (number + lines.length) rest := by
  induction lines generalizing opened number with
  | nil =>
    cases rest with
    | nil => cases h
    | cons line more =>
      obtain ⟨heading, opens⟩ := Heading.isHeading_iff.1 h
      simp [scanFrom, opens]
  | cons line more ih =>
    rw [List.cons_append, scanFrom, scanFrom, List.length_cons, ← Nat.add_assoc,
      Nat.add_right_comm]
    cases Heading.ofLine? line with
    | none => exact ih _ _
    | some heading => simp only [ih, List.append_assoc]

/-- The pass may as well go over the pieces between line feeds. -/
theorem scanFrom_dropReturn (opened : Option Open) (number : Nat) (pieces : List Text) :
    scanFrom opened number (pieces.map Text.dropReturn) =
      scanFrom opened number (Text.linesOfPieces pieces) := by
  -- Only the last piece is not a line as it stands: it is left out or keeps its carriage return.
  fun_induction Text.linesOfPieces pieces generalizing opened number with
  | case1 => rfl
  | case2 last empty =>
    obtain rfl := List.isEmpty_iff.1 empty
    cases opened with
    | none => rfl
    | some o => exact congrArg (fun s => [s]) o.close_push_nil
  | case3 last filled =>
    simp only [List.map_singleton, scanFrom, Heading.ofLine?_dropReturn]
    cases Heading.ofLine? last with
    | none =>
      cases opened with
      | none => rfl
      | some o => exact congrArg (fun s => [s]) (o.close_push_dropReturn last)
    | some heading => rfl
  | case4 piece rest more ih =>
    rw [List.map_cons, scanFrom, scanFrom]
    cases Heading.ofLine? (Text.dropReturn piece) with
    | none => exact ih _ _
    | some heading => simp only [ih]

/-! ### Texts that begin with a heading -/

theorem head?_lines_any (t : Text) :
    t.lines.head?.any isHeading = (t.splitOn '\n').head?.any isHeading := by
  rw [Text.lines]
  fun_cases Text.linesOfPieces (t.splitOn '\n') with
  | case1 => rfl
  | case2 last empty =>
    obtain rfl := List.isEmpty_iff.1 empty
    rfl
  | case3 last filled => rfl
  | case4 piece rest more => exact Heading.isHeading_dropReturn piece

theorem dropMark_of_isHeading (h : t.lines.head?.any isHeading = true) : Text.dropMark t = t := by
  rw [head?_lines_any] at h
  fun_cases Text.dropMark t with
  | case1 rest =>
    obtain ⟨first, others, cut⟩ := List.exists_cons_of_ne_nil (List.splitOn_ne_nil '\n' rest)
    rw [List.splitOn_cons_eq_if_modifyHead, cut] at h
    cases h
  | case2 => rfl

/-- Put together before a heading line, two documents have the sections of the first and then those
of the second, moved down by the lines of the first. -/
theorem parse_append (s t : Text) (h : t.lines.head?.any isHeading = true) :
    parse (s ++ '\n' :: t) = parse s ++ (parse t).map (shift (1 + s.count '\n')) := by
  have above : (((Text.dropMark s).splitOn '\n').map Text.dropReturn).length =
      1 + s.count '\n' := by
    simp [Nat.add_comm]
  have below := scanFrom_shift (1 + s.count '\n') none 1 t.lines
  rw [Option.map_none] at below
  calc parse (s ++ '\n' :: t)
    _ = scanFrom none 1 (((Text.dropMark s).splitOn '\n').map Text.dropReturn ++ t.lines) := by
      rw [← scan_eq_parse, scan, Text.dropMark_append_feed, Text.lines_append_feed]
    _ = scan s ++ scanFrom none (1 + (1 + s.count '\n')) t.lines := by
      rw [scanFrom_append h, scanFrom_dropReturn, above]
      rfl
    _ = scan s ++ (scan t).map (shift (1 + s.count '\n')) := by
      rw [below, scan, scan, dropMark_of_isHeading h]
    _ = parse s ++ (parse t).map (shift (1 + s.count '\n')) := by
      rw [scan_eq_parse, scan_eq_parse]

/-- A body that ends in a carriage return of its own. -/
def unended : Text := "\uFEFFintro\n# A\n\n one \r\n##### two\r".toList

def ending : Text := "## B\r\n### ⚡ Run".toList

theorem unended_append_ending :
    ending.lines.head?.any isHeading = true ∧
    parse unended = [⟨"one \n##### two".toList, none, .project, 1, 2, ['A']⟩] ∧
    parse (unended ++ '\n' :: ending) = parse unended ++
      [⟨[], none, .ordinary, 2, 6, ['B']⟩,
        ⟨[], some (.marker .capabilities), .capabilities, 3, 7, "Run".toList⟩] := by
  have heading : ending.lines.head?.any isHeading = true := by decide
  have below : (parse ending).map (shift (1 + unended.count '\n')) =
      [⟨[], none, .ordinary, 2, 6, ['B']⟩,
        ⟨[], some (.marker .capabilities), .capabilities, 3, 7, "Run".toList⟩] := by
    decide +kernel
  refine ⟨heading, by decide +kernel, ?_⟩
  rw [← below]
  exact parse_append unended ending heading

end IslDocs.Section
