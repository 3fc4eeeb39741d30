import IslDocs.Proofs.Text.Word
import IslDocs.Validation.Keyword

/-! The words that validation looks for. A text that is cut at everything that is not an identifier
character has a single word among its pieces exactly if the word occurs in it. The keywords of two
words begin with one of the others, which then occurs as well. -/

namespace IslDocs.Keyword

open Text (HasWord Unbordered isIdentifierChar)

variable {t k word : Text}

/-- Everything that validation looks for as a word. -/
def sought : List Text := all ++ ["Presentation".toList, "Backend".toList]

theorem identifier_of_mem_sought (h : word ∈ sought) (alone : ' ' ∉ word) :
    ∀ c ∈ word, isIdentifierChar c = true := by
  have each : ∀ word ∈ sought, ' ' ∉ word → word.all isIdentifierChar = true := by decide
  exact List.all_eq_true.1 (each word h alone)

theorem unbordered_of_mem_sought : ∀ word ∈ sought, Unbordered word ∧ word ≠ [] := by decide

theorem single_of_mem_all : ∀ k ∈ all, ∃ word ∈ single, word = k ∨ word ++ [' '] <+: k := by decide

theorem of_mem_single : ∀ k ∈ single, k ∈ all ∧ k ∈ sought ∧ ' ' ∉ k := by decide

theorem occursIn_iff : occursIn t = true ↔ ∃ k ∈ all, HasWord t k := by
  simp only [occursIn, List.any_eq_true, Text.containsWord_iff]

/-- A keyword of two words brings one of a single word with it. -/
theorem exists_hasWord_single : (∃ k ∈ all, HasWord t k) ↔ ∃ k ∈ single, HasWord t k := by
  constructor
  · rintro ⟨k, hk, found⟩
    obtain ⟨word, hw, rfl | ⟨more, rfl⟩⟩ := single_of_mem_all k hk
    · exact ⟨word, hw, found⟩
    · rw [List.append_assoc] at found
      exact ⟨word, hw, found.left (by decide +kernel)⟩
  · rintro ⟨k, hk, found⟩
    exact ⟨k, (of_mem_single k hk).1, found⟩

theorem containsWord_iff_mem_words (h : word ∈ sought) (alone : ' ' ∉ word) :
    Text.containsWord t word = true ↔ word ∈ Text.words t := by
  rw [Text.containsWord_iff, Text.mem_words_iff,
    and_iff_right (identifier_of_mem_sought h alone)]

/-- Looking for keywords is looking among the pieces between the characters that no identifier
has, and so are all other searches for one word. A search may go on behind every occurrence. -/
theorem occursIn_iff_mem_words (t : Text) :
    (occursIn t = true ↔ ∃ k ∈ single, k ∈ Text.words t) ∧
    occursIn t = single.any (Text.containsWord t) ∧
    ∀ word ∈ sought,
      (' ' ∉ word → (Text.containsWord t word = true ↔ word ∈ Text.words t)) ∧
      Text.containsWord t word = (Text.occurrences word t).any fun (before, after) =>
        Text.isBoundary before.getLast? && Text.isBoundary after.head? := by
  have pieces : occursIn t = true ↔ ∃ k ∈ single, Text.containsWord t k = true := by
    simp only [occursIn_iff, exists_hasWord_single, Text.containsWord_iff]
  refine ⟨?_, ?_, fun word h => ⟨containsWord_iff_mem_words h, ?_⟩⟩
  · rw [pieces]
    refine exists_congr fun k => and_congr_right fun hk => ?_
    obtain ⟨-, listed, alone⟩ := of_mem_single k hk
    exact containsWord_iff_mem_words listed alone
  · rw [Bool.eq_iff_iff, pieces, List.any_eq_true]
  · obtain ⟨apart, any⟩ := unbordered_of_mem_sought word h
    exact Text.containsWord_eq_any apart any t

/-- Keywords that are parts of identifiers do not count. -/
def clause : Text := "The MAYOR's SHALL_x and éMUST: it MUST NOTE, MAY2 MUST-NOT".toList

theorem must_mem_words_clause : "MUST".toList ∈ sought ∧ ' ' ∉ "MUST".toList ∧
    Text.containsWord clause "MUST".toList = true ∧ "MUST".toList ∈ Text.words clause := by
  have listed : "MUST".toList ∈ sought := by decide
  have alone : ' ' ∉ "MUST".toList := by decide
  have found : Text.containsWord clause "MUST".toList = true := by decide +kernel
  obtain ⟨-, -, each⟩ := occursIn_iff_mem_words clause
  exact ⟨listed, alone, found, ((each _ listed).1 alone).1 found⟩

end IslDocs.Keyword
