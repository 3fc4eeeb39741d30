import IslDocs.Section.Heading
import IslDocs.Proofs.Text.Trim

/-! Heading lines by their parts. White space at the end of a line, a carriage return for one, has
no part in whether it is a heading and in which. -/

namespace IslDocs

open Text (startsWithSpace isBlank trim trimStart trimEnd dropReturn)

variable {line other rest space : Text} {heading : Heading} {level : Nat}

namespace Heading

theorem signs_append (h : startsWithSpace rest = true) (level : Nat) :
    (List.replicate level '#' ++ rest).takeWhile (· == '#') = List.replicate level '#' ∧
      (List.replicate level '#' ++ rest).dropWhile (· == '#') = rest := by
  have signs : ∀ c ∈ List.replicate level '#', (c == '#') = true := by simp
  have next : rest.takeWhile (· == '#') = [] ∧ rest.dropWhile (· == '#') = rest := by
    cases rest with
    | nil => simp
    | cons c more =>
      have other : c ≠ '#' := by
        rintro rfl
        cases h
      simp [other]
  rw [List.takeWhile_append_of_pos signs, List.dropWhile_append_of_pos signs, next.1, next.2,
    List.append_nil]
  exact ⟨rfl, rfl⟩

theorem ofLine?_eq_some_iff : ofLine? line = some heading ↔
    ∃ rest, line = List.replicate heading.level '#' ++ rest ∧ 0 < heading.level ∧
      heading.level ≤ maxLevel ∧ startsWithSpace rest = true ∧ isBlank rest = false ∧
      trim rest = heading.title := by
  obtain ⟨level, title⟩ := heading
  constructor
  · intro found
    simp only [ofLine?, Option.ite_none_left_eq_some, Option.some.injEq, mk.injEq, Bool.or_eq_true,
      beq_iff_eq, decide_eq_true_eq, Bool.not_eq_true', not_or, not_lt, Bool.not_eq_false,
      Bool.not_eq_true] at found
    obtain ⟨⟨⟨⟨some_sign, few⟩, spaced⟩, filled⟩, rfl, rfl⟩ := found
    have signs : line.takeWhile (· == '#') = List.replicate _ '#' :=
      List.eq_replicate_of_mem fun c hc => by simpa using List.mem_takeWhile_imp hc
    refine ⟨line.dropWhile (· == '#'), ?_, Nat.pos_of_ne_zero some_sign, few, spaced, filled, rfl⟩
    rw [← signs, List.takeWhile_append_dropWhile]
  · rintro ⟨rest, rfl, some_sign, few, spaced, filled, rfl⟩
    obtain ⟨signs, after⟩ := signs_append spaced level
    have some_sign : level ≠ 0 := Nat.ne_of_gt some_sign
    have few : ¬ maxLevel < level := Nat.not_lt.2 few
    simp [ofLine?, signs, after, some_sign, few, spaced, filled]

theorem isHeading_iff : isHeading line = true ↔ ∃ heading, ofLine? line = some heading :=
  Option.isSome_iff_exists

theorem isHeading_eq_false_iff : isHeading line = false ↔ ofLine? line = none :=
  Option.isSome_eq_false_iff.trans Option.isNone_iff_eq_none

theorem isBlank_of_ofLine? (found : ofLine? line = some heading) : isBlank line = false := by
  obtain ⟨rest, rfl, -, -, -, filled, -⟩ := ofLine?_eq_some_iff.1 found
  simp [filled]

/-! ### Titles -/

/-- What can be the title of a heading. -/
structure IsTitle (title : Text) : Prop where
  filled : title ≠ []
  start : startsWithSpace title = false
  done : trimEnd title = title
  feedless : '\n' ∉ title

theorem IsTitle.isBlank {title : Text} (h : IsTitle title) : isBlank title = false := by
  refine Bool.eq_false_iff.2 fun blank => h.filled ?_
  rw [← Text.trim_eq_self h.start h.done, Text.trim_eq_nil_iff, blank]

theorem isTitle_of_ofLine? (feedless : '\n' ∉ line) (found : ofLine? line = some heading) :
    IsTitle heading.title := by
  obtain ⟨rest, rfl, -, -, -, filled, same⟩ := ofLine?_eq_some_iff.1 found
  rw [← same]
  refine ⟨?_, Text.startsWithSpace_trim rest, Text.trimEnd_trim rest, fun inside => ?_⟩
  · rw [Ne, Text.trim_eq_nil_iff, filled]
    exact Bool.false_ne_true
  · exact feedless (List.mem_append_right _ ((Text.trim_sublist rest).subset inside))

theorem IsTitle.ofLine?_eq {title : Text} (h : IsTitle title) (some_sign : 0 < level)
    (few : level ≤ maxLevel) :
    ofLine? (List.replicate level '#' ++ ' ' :: title) = some ⟨level, title⟩ := by
  have spaced : startsWithSpace (' ' :: title) = true := rfl
  have filled : Text.isBlank (' ' :: title) = false := h.isBlank
  have trimmed : trim (' ' :: title) = title := Text.trim_eq_self h.start h.done
  exact ofLine?_eq_some_iff.2 ⟨_, rfl, some_sign, few, spaced, filled, trimmed⟩

/-! ### White space at the end -/

theorem ofLine?_append_of_blank (line : Text) (h : isBlank space = true) :
    ofLine? (line ++ space) = ofLine? line := by
  have unspaced : ∀ rest, isBlank rest = false →
      startsWithSpace (rest ++ space) = startsWithSpace rest := fun rest filled => by
    refine Text.startsWithSpace_append ?_ space
    rintro rfl
    cases filled
  have blank_append : ∀ rest, isBlank (rest ++ space) = isBlank rest := fun rest => by
    simp [h]
  refine Option.ext fun heading => ?_
  rw [ofLine?_eq_some_iff, ofLine?_eq_some_iff]
  constructor
  · rintro ⟨rest, split, some_sign, few, spaced, filled, same⟩
    rcases List.append_eq_append_iff.1 split with ⟨signs, -, rfl⟩ | ⟨rest, rfl, rfl⟩
    · simp [filled] at h
    · rw [blank_append] at filled
      rw [unspaced rest filled] at spaced
      rw [Text.trim_append_of_blank rest h] at same
      exact ⟨rest, rfl, some_sign, few, spaced, filled, same⟩
  · rintro ⟨rest, rfl, some_sign, few, spaced, filled, same⟩
    refine ⟨rest ++ space, List.append_assoc .., some_sign, few, ?_, ?_, ?_⟩
    · rw [unspaced rest filled, spaced]
    · rw [blank_append, filled]
    · rw [Text.trim_append_of_blank rest h, same]

@[simp] theorem ofLine?_trimEnd (line : Text) : ofLine? (trimEnd line) = ofLine? line := by
  obtain ⟨space, blank, split⟩ := Text.exists_trimEnd_append line
  rw [← ofLine?_append_of_blank (trimEnd line) blank, split]

theorem isHeading_eq_of_trimEnd_eq (h : trimEnd line = trimEnd other) :
    isHeading line = isHeading other := by
  simp [isHeading, ← ofLine?_trimEnd line, h]

@[simp] theorem isHeading_dropReturn (line : Text) : isHeading (dropReturn line) = isHeading line :=
  isHeading_eq_of_trimEnd_eq (Text.trimEnd_dropReturn line)

@[simp] theorem ofLine?_dropReturn (line : Text) : ofLine? (dropReturn line) = ofLine? line := by
  rw [← ofLine?_trimEnd, Text.trimEnd_dropReturn, ofLine?_trimEnd]

end Heading
end IslDocs
