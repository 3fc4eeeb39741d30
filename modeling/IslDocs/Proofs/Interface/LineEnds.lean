import IslDocs.Proofs.Project.Lookups
import IslDocs.Proofs.Text.Lines
import IslDocs.Section.Outline
import IslDocs.Validation.Report

/-! Documents in other spellings: with carriage returns before their line feeds, or behind a
byte-order mark. Both are dropped where a document is cut into lines, and the sections, the
interface, the references and the implementation path are all read off the lines. -/

namespace IslDocs

namespace Text

variable {s t : Text}

/-! ### Spellings of a text -/

/-- The text with a carriage return before each line feed. -/
def withReturns (t : Text) : Text := t.flatMap fun c => if c = '\n' then ['\r', '\n'] else [c]

/-- The text with carriage returns in its line ends, or behind a byte-order mark, or both. -/
def respelled (returns mark : Bool) (t : Text) : Text :=
  (if mark then ['\uFEFF'] else []) ++ if returns then withReturns t else t

theorem withReturns_of_line (h : '\n' ∉ s) : withReturns s = s := by
  have each : ∀ c ∈ s, (if c = '\n' then ['\r', '\n'] else [c]) = [c] := by
    intro c hc
    rw [if_neg]
    rintro rfl
    exact h hc
  rw [withReturns, List.flatMap_congr each, List.flatMap_singleton']

theorem withReturns_append_feed (h : '\n' ∉ s) (t : Text) :
    withReturns (s ++ '\n' :: t) = (s ++ ['\r']) ++ '\n' :: withReturns t := by
  have line : withReturns s = s := withReturns_of_line h
  rw [withReturns, List.flatMap_append, ← withReturns, line]
  simp [withReturns]

theorem dropReturn_of_clean (h : '\r' ∉ s) : dropReturn s = s :=
  if_neg fun last => h (List.mem_of_getLast? last)

theorem lines_withReturns (clean : '\r' ∉ t) : (withReturns t).lines = t.lines := by
  induction t using induction_lines with
  | last t line => rw [withReturns_of_line line]
  | line s t line ih =>
    simp only [List.mem_append, List.mem_cons, not_or] at clean
    have line' : '\n' ∉ s ++ ['\r'] := by simp [line]
    rw [withReturns_append_feed line, lines_line line', lines_line line, ih clean.2.2,
      dropReturn_of_clean clean.1, dropReturn, List.getLast?_concat, if_pos rfl,
      List.dropLast_concat]

theorem dropMark_of_unmarked (h : t.head? ≠ some '\uFEFF') : dropMark t = t := by
  cases t with
  | nil => rfl
  | cons c rest => exact dropMark_cons (fun same => h (congrArg some same)) rest

theorem head?_withReturns (h : t.head? ≠ some '\uFEFF') :
    (withReturns t).head? ≠ some '\uFEFF' := by
  cases t with
  | nil => exact h
  | cons c rest =>
    rw [withReturns, List.flatMap_cons]
    split
    · simp
    · exact h

/-- However it is spelled, a text has the same lines behind its mark. -/
theorem lines_dropMark_respelled (clean : '\r' ∉ t) (unmarked : t.head? ≠ some '\uFEFF')
    (returns mark : Bool) : (dropMark (respelled returns mark t)).lines = (dropMark t).lines := by
  have bare : dropMark (respelled returns mark t) = if returns then withReturns t else t := by
    cases mark with
    | true => rfl
    | false =>
      cases returns with
      | true => exact dropMark_of_unmarked (head?_withReturns unmarked)
      | false => exact dropMark_of_unmarked unmarked
  rw [bare, dropMark_of_unmarked unmarked]
  split
  · exact lines_withReturns clean
  · rfl

end Text

/-! ### Targets in the order they are looked up -/

namespace BuildContext

/-- Answers as `f` does and writes the target down. -/
def noting (f : Text → Option Dependency) (target : Text) :
    StateM (List Text) (Option Dependency) := do
  modify (· ++ [target])
  return f target

theorem run_composeAsking (name content : Text) (f : Text → Option Dependency) :
    (composeAsking name content (noting f)).run [] =
      pure (compose name content f, targets content) := by
  have each (target : Text) (log : List Text) :
      (noting f target).run log = pure (f target, log ++ [target]) := rfl
  rw [composeAsking, StateT.run_bind, run_filterMapM_writing each, pure_bind,
    List.flatMap_singleton']
  rfl

end BuildContext

open BuildContext (targets noting composeAsking compose)

/-- A document without carriage returns and byte-order mark reads the same with either or both: it
has the same sections and so the same report, the same interface, the same references in the same
order and the same implementation path. -/
theorem respelled_reads_same {t : Text} (clean : '\r' ∉ t) (unmarked : t.head? ≠ some '\uFEFF')
    (returns mark : Bool) :
    let t' := Text.respelled returns mark t
    Section.parse t' = Section.parse t ∧
    validate (Section.parse t') = validate (Section.parse t) ∧
    (∀ name, Interface.project name t' = Interface.project name t) ∧
    (∀ name f,
      (composeAsking name t' (noting f)).run [] = pure (compose name t' f, targets t) ∧
      (composeAsking name t (noting f)).run [] = pure (compose name t f, targets t)) ∧
    ∀ name f, (compose name t' f).implementation = (compose name t f).implementation := by
  intro t'
  have lines : (Text.dropMark t').lines = (Text.dropMark t).lines :=
    Text.lines_dropMark_respelled clean unmarked returns mark
  have sections : Section.parse t' = Section.parse t := congrArg Section.ofLines lines
  have asked : targets t' = targets t := congrArg (List.filterMap Reference.target?) lines
  refine ⟨sections, congrArg validate sections, fun name => ?_, fun name f => ⟨?_, ?_⟩,
    fun name f => congrArg (List.findSome? Reference.implementation?) lines⟩
  · rw [Interface.project, Interface.project, lines]
  · rw [BuildContext.run_composeAsking, asked]
  · rw [BuildContext.run_composeAsking]

/-- A heading on the first line, a reference, an implementation path, a flow block and no line feed
at the end. -/
def everyForm : Text :=
  ("# A\n> **Reference**: [b](b.isl.md)\n**Implementation**: a.js\n### ⚡ Run\n**Flow**:\n" ++
    "1. Load\n---\nend").toList

theorem everyForm_reads_same :
    let spelled := ("\uFEFF# A\r\n> **Reference**: [b](b.isl.md)\r\n**Implementation**: a.js\r\n" ++
      "### ⚡ Run\r\n**Flow**:\r\n1. Load\r\n---\r\nend").toList
    spelled = Text.respelled true true everyForm ∧
      (Section.parse spelled).map (·.line) = [1, 4] ∧
      Section.parse spelled = Section.parse everyForm ∧
      (∀ name, Interface.project name spelled = Interface.project name everyForm) ∧
      (∀ name f, (composeAsking name spelled (noting f)).run [] =
        pure (compose name spelled f, ["b.isl.md".toList])) ∧
      ∀ name f, (compose name spelled f).implementation = some "a.js".toList := by
  intro spelled
  have same : spelled = Text.respelled true true everyForm := by decide +kernel
  have asked : targets everyForm = ["b.isl.md".toList] := by decide +kernel
  have declared : BuildContext.implementationPath? everyForm = some "a.js".toList := by
    decide +kernel
  obtain ⟨sections, -, interface, references, implementation⟩ :=
    respelled_reads_same (t := everyForm) (by decide) (by decide) true true
  rw [same]
  refine ⟨rfl, ?_, sections, interface, fun name f => ?_, fun name f => ?_⟩
  · rw [sections]
    decide +kernel
  · rw [(references name f).1, asked]
  · rw [implementation]
    exact declared

end IslDocs
