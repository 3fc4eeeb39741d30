import IslDocs.Section.Basic
import IslDocs.Proofs.Section.Heading

/-! Titles with an emoji before them, taken apart and put together again. A marker's emoji is put
back as the marker's own glyph, any other as it was, and in both cases it is taken off again. -/

namespace IslDocs

open Heading (IsTitle)
open Text (startsWithSpace isBlank trimStart trimEnd)

variable {glyph title rest : Text} {heading : Heading}

namespace Emoji

/-- A symbol, and the variation selector that may follow it. -/
def IsGlyph (glyph : Text) : Prop :=
  ∃ c, isSymbol c = true ∧ (glyph = [c] ∨ glyph = [c, Marker.variationSelector])

/-- A title with its emoji, if it has one, before it. -/
def before (emoji : Option Emoji) (title : Text) : Text :=
  (emoji.map fun e => e.glyph ++ [' ']).getD [] ++ title

theorem isGlyph_marker (m : Marker) : IsGlyph m.glyph := by
  cases m <;> exact ⟨_, by decide +kernel, Or.inl rfl⟩

theorem IsGlyph.feedless (h : IsGlyph glyph) : '\n' ∉ glyph := by
  obtain ⟨c, symbol, rfl | rfl⟩ := h
  · rintro (_ | ⟨_, ⟨⟩⟩)
    cases symbol
  · rintro (_ | ⟨_, _ | ⟨_, ⟨⟩⟩⟩)
    cases symbol

theorem IsGlyph.startsWithSpace_append (h : IsGlyph glyph) (rest : Text) :
    startsWithSpace (glyph ++ rest) = false := by
  have unspaced : ∀ c, isSymbol c = true → Text.isSpace c = false := fun c symbol => by
    simp only [isSymbol, Bool.and_eq_true, Bool.not_eq_true'] at symbol
    exact symbol.2
  obtain ⟨c, symbol, rfl | rfl⟩ := h
  · exact unspaced c symbol
  · exact unspaced c symbol

theorem isGlyph_of_cutSymbol? (found : cutSymbol? title = some (glyph, rest)) :
    title = glyph ++ rest ∧ IsGlyph glyph := by
  revert found
  fun_cases cutSymbol? title with
  | case1 => exact nofun
  | case2 => exact nofun
  | case3 c symbol d after selected =>
    rintro ⟨⟩
    exact ⟨rfl, c, by simpa using symbol, Or.inr (by rw [beq_iff_eq.1 selected])⟩
  | case4 c symbol =>
    rintro ⟨⟩
    exact ⟨rfl, c, by simpa using symbol, Or.inl rfl⟩
  | case5 c symbol =>
    rintro ⟨⟩
    exact ⟨rfl, c, by simpa using symbol, Or.inl rfl⟩

theorem IsGlyph.cutSymbol?_append (h : IsGlyph glyph) (title : Text) :
    cutSymbol? (glyph ++ ' ' :: title) = some (glyph, ' ' :: title) := by
  obtain ⟨c, symbol, rfl | rfl⟩ := h
  · have apart : (' ' == Marker.variationSelector) = false := by decide
    simp [cutSymbol?, symbol, apart]
  · simp [cutSymbol?, symbol]

/-- Writing an emoji out does not change what it is. -/
@[simp] theorem ofGlyph_glyph_ofGlyph (glyph : Text) :
    ofGlyph (ofGlyph glyph).glyph = ofGlyph glyph := by
  cases found : Marker.ofGlyph? glyph with
  | none => simp [ofGlyph, found, Emoji.glyph]
  | some m => simp [ofGlyph, found, Emoji.glyph]

theorem IsGlyph.ofGlyph (h : IsGlyph glyph) : IsGlyph (Emoji.ofGlyph glyph).glyph := by
  cases found : Marker.ofGlyph? glyph with
  | none => simpa [Emoji.ofGlyph, found, Emoji.glyph] using h
  | some m => simpa [Emoji.ofGlyph, found, Emoji.glyph] using isGlyph_marker m

theorem split_eq (title : Text) : split title = (none, title) ∨
    ∃ glyph rest, title = glyph ++ rest ∧ IsGlyph glyph ∧ isBlank rest = false ∧
      split title = (some (ofGlyph glyph), trimStart rest) := by
  cases cut : cutSymbol? title with
  | none => exact Or.inl (by rw [split, cut])
  | some parts =>
    obtain ⟨glyph, rest⟩ := parts
    obtain ⟨same, isGlyph⟩ := isGlyph_of_cutSymbol? cut
    cases apart : startsWithSpace rest && !isBlank rest with
    | false => exact Or.inl (by simp [split, cut, apart])
    | true =>
      have filled : isBlank rest = false := by simpa using (Bool.and_eq_true_iff.1 apart).2
      exact Or.inr ⟨glyph, rest, same, isGlyph, filled, by simp [split, cut, apart]⟩

theorem IsGlyph.split_append (h : IsGlyph glyph) (filled : isBlank title = false)
    (start : startsWithSpace title = false) :
    split (glyph ++ ' ' :: title) = (some (Emoji.ofGlyph glyph), title) := by
  have filled' : isBlank (' ' :: title) = false := filled
  have spaced : startsWithSpace (' ' :: title) = true := rfl
  have trimmed : trimStart (' ' :: title) = title := Text.trimStart_eq_self_iff.2 start
  simp [split, h.cutSymbol?_append, spaced, filled', trimmed]

/-- Put together again, a title and its emoji are split as they were. -/
@[simp] theorem split_before (title : Text) :
    split (before (split title).1 (split title).2) = split title := by
  rcases split_eq title with same | ⟨glyph, rest, -, isGlyph, filled, same⟩
  · rw [same]
    exact same
  · have filled' : isBlank (trimStart rest) = false := by rw [Text.isBlank_trimStart, filled]
    have again := isGlyph.ofGlyph.split_append filled' (Text.startsWithSpace_trimStart rest)
    rw [ofGlyph_glyph_ofGlyph] at again
    simpa [same, before] using again

theorem isTitle_split (h : IsTitle title) : IsTitle (split title).2 := by
  rcases split_eq title with same | ⟨glyph, rest, rfl, -, filled, same⟩
  · rw [same]
    exact h
  · have suffix : trimStart rest <:+ glyph ++ rest :=
      (List.dropWhile_suffix _).trans (List.suffix_append glyph rest)
    rw [same]
    refine ⟨?_, Text.startsWithSpace_trimStart rest, Text.trimEnd_of_suffix suffix h.done,
      fun inside => h.feedless (suffix.subset inside)⟩
    rw [Ne, Text.trimStart_eq_nil_iff, filled]
    exact Bool.false_ne_true

theorem isTitle_before (h : IsTitle title) : IsTitle (before (split title).1 (split title).2) := by
  have split_title := isTitle_split h
  rcases split_eq title with same | ⟨glyph, rest, -, isGlyph, -, same⟩
  · rw [same]
    exact h
  · rw [same] at split_title ⊢
    have put : before (some (ofGlyph glyph)) (trimStart rest) =
        (ofGlyph glyph).glyph ++ [' '] ++ trimStart rest := rfl
    rw [put]
    refine ⟨by simp, ?_, ?_, ?_⟩
    · rw [List.append_assoc, isGlyph.ofGlyph.startsWithSpace_append]
    · rw [Text.trimEnd_append_of_not_blank _ split_title.isBlank, split_title.done]
    · simp [isGlyph.ofGlyph.feedless, split_title.feedless]

end Emoji

end IslDocs
