import IslDocs.Interface.Context
import IslDocs.Interface.Projection
import IslDocs.Proofs.Text.Spacing
import Mathlib.Data.List.Forall2

/-! Documents that differ in blank lines only. No reference or implementation line is empty, and an
empty line neither opens nor ends a flow block, so the documents have the same references and
implementation paths, and interfaces that may end in different blank lines. A build context, where
more lines follow each interface, is the same text. -/

namespace IslDocs

open Text (Tightens Equispaced)

variable {content content' : Text}

/-! ### Flow blocks -/

theorem Text.Tightens.outsideFrom {ls ls' : List Text} (h : Tightens ls ls') (inside : Bool) :
    Tightens (Flow.outsideFrom inside ls) (Flow.outsideFrom inside ls') := by
  have plain : Flow.opens [] = false ∧ Flow.ends [] = false := by decide
  induction h generalizing inside with
  | nil => exact .nil
  | line _ ih =>
    rw [Flow.outsideFrom, Flow.outsideFrom]
    split
    · exact ih true
    · exact (ih false).line
  | drop _ ih =>
    cases inside with
    | true => simpa [Flow.outsideFrom, plain] using ih true
    | false =>
      have shown := ih false
      simp only [Flow.outsideFrom, plain, Bool.false_or, Bool.false_and, Bool.false_eq_true,
        if_false] at shown ⊢
      exact .drop shown

/-! ### What is read off the lines -/

namespace BuildContext

@[simp] theorem targets_collapse (content : Text) :
    targets (Text.collapse content) = targets content := by
  rw [targets, targets, Text.dropMark_collapse]
  exact ((Text.tightens_lines_collapse _).filterMap_eq rfl).symm

@[simp] theorem implementationPath?_collapse (content : Text) :
    implementationPath? (Text.collapse content) = implementationPath? content := by
  rw [implementationPath?, implementationPath?, Text.dropMark_collapse, ← List.head?_filterMap,
    ← List.head?_filterMap, ← (Text.tightens_lines_collapse _).filterMap_eq rfl]

end BuildContext

open Interface in
theorem equispaced_project_collapse (name content : Text) :
    Equispaced (project name content) (project name (Text.collapse content)) := by
  have lines := Text.tightens_lines_collapse (Text.dropMark content)
  rw [project, project, Text.dropMark_collapse, projectionLines, projectionLines,
    ← lines.filterMap_eq rfl]
  exact (((lines.outsideFrom false).append_left _).equispaced (header name)).collapse

theorem equispaced_project (name : Text) (h : Text.collapse content = Text.collapse content') :
    Equispaced (Interface.project name content) (Interface.project name content') :=
  fun before after => by
    rw [equispaced_project_collapse, h, ← equispaced_project_collapse]

/-! ### Build contexts -/

/-- Interfaces with the same name that differ in blank lines only. -/
structure Dependency.Alike (d d' : Dependency) : Prop where
  name : d.name = d'.name
  text : Equispaced d.text d'.text

namespace BuildContext

theorem collapse_unlines_blocks {ds ds' : List Dependency}
    (alike : List.Forall₂ Dependency.Alike ds ds') (before after : List Text) :
    Text.collapse (Text.unlines (before ++ ds.flatMap block ++ after)) =
      Text.collapse (Text.unlines (before ++ ds'.flatMap block ++ after)) := by
  induction alike generalizing before with
  | nil => rfl
  | @cons d d' ds ds' same _ ih =>
    have first := same.text.collapse_unlines
      (before ++ [[], "<!-- START DEPENDENCY INTERFACE: ".toList ++ d.name ++ " -->".toList])
      "<!-- END DEPENDENCY INTERFACE -->".toList ([] :: (ds.flatMap block ++ after))
    have rest := ih (before ++ block d')
    simp only [List.flatMap_cons, block, List.append_assoc, List.cons_append, List.nil_append,
      ← same.name] at first rest ⊢
    rw [first, rest]

theorem compose_congr_of_collapse {lookup lookup' : Text → Option Dependency} (name : Text)
    (h : Text.collapse content = Text.collapse content')
    (alike : List.Forall₂ Dependency.Alike ((targets content).filterMap lookup)
      ((targets content).filterMap lookup')) :
    compose name content lookup = compose name content' lookup' := by
  have implementation : implementationPath? content = implementationPath? content' := by
    rw [← implementationPath?_collapse, h, implementationPath?_collapse]
  have references : targets content = targets content' := by
    rw [← targets_collapse, h, targets_collapse]
  have marks : Text.collapse (Text.dropMark content) = Text.collapse (Text.dropMark content') := by
    rw [← Text.dropMark_collapse, h, Text.dropMark_collapse]
  have last := Text.collapse_unlines_concat marks
    (header name (implementationPath? content) ++
      ((targets content).filterMap lookup').flatMap block ++
        [[], "<!-- SOURCE FILE TO IMPLEMENT -->".toList])
  rw [List.append_assoc] at last
  simp only [compose, assemble, textWith, ← references, ← implementation]
  exact congrArg (BuildContext.mk _)
    ((collapse_unlines_blocks alike _ _).trans (by simpa [source] using last))

end BuildContext
end IslDocs
