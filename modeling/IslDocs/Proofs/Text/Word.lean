import IslDocs.Proofs.Text.Occurrence
import IslDocs.Proofs.Text.Search

/-! Words of a text. A stretch of identifier characters occurs as a word exactly if it is one of the
pieces between the other characters. The search for a word may go on behind each occurrence, since
those it passes over stand in the middle of an identifier or do not exist. -/

namespace IslDocs.Text

variable {t word before after : Text} {c : Char}

@[simp] theorem isBoundary_some : isBoundary (some c) = true ↔ isIdentifierChar c = false := by
  simp [isBoundary]

/-! ### Pieces -/

theorem words_append_separator (h : isIdentifierChar c = false) (s t : Text) :
    words (s ++ c :: t) = words s ++ words t :=
  List.splitOnP_append_cons s t (by simp [h])

theorem words_of_identifier (h : ∀ c ∈ word, isIdentifierChar c = true) : words word = [word] :=
  List.splitOnP_eq_singleton fun c hc => by simp [h c hc]

theorem mem_words_of_hasWord (h : ∀ c ∈ word, isIdentifierChar c = true) (found : HasWord t word) :
    word ∈ words t := by
  obtain ⟨before, after, rfl, left, right⟩ := found
  -- A separator on either side ends the piece.
  have tail : word ∈ words (word ++ after) := by
    cases after with
    | nil => simp [words_of_identifier h]
    | cons c rest =>
      rw [words_append_separator (isBoundary_some.1 right), words_of_identifier h]
      simp
  rcases List.eq_nil_or_concat' before with rfl | ⟨rest, c, rfl⟩
  · exact tail
  · rw [List.getLast?_concat] at left
    simp [words_append_separator (isBoundary_some.1 left), tail]

theorem HasWord.append_separator (h : isIdentifierChar c = false) (s : Text)
    (found : HasWord t word) : HasWord (s ++ c :: t) word := by
  obtain ⟨before, after, rfl, left, right⟩ := found
  refine ⟨s ++ c :: before, after, by simp, ?_, right⟩
  rw [List.getLast?_append_of_ne_nil _ (List.cons_ne_nil c before), List.getLast?_cons]
  cases last : before.getLast? with
  | none => simpa using h
  | some d => simpa [last] using left

/-- The induction moves identifier characters to `first`, the start of the piece at hand. -/
theorem hasWord_of_mem_words_append (first : Text)
    (front : ∀ c ∈ first, isIdentifierChar c = true) (h : word ∈ words (first ++ t)) :
    (∀ c ∈ word, isIdentifierChar c = true) ∧ HasWord (first ++ t) word := by
  induction t generalizing first with
  | nil =>
    rw [List.append_nil, words_of_identifier front, List.mem_singleton] at h
    subst h
    exact ⟨front, [], [], by simp, rfl, rfl⟩
  | cons c t ih =>
    cases kind : isIdentifierChar c with
    | true =>
      rw [List.append_cons] at h ⊢
      refine ih (first ++ [c]) (fun d hd => ?_) h
      rcases List.mem_append.1 hd with hd | hd
      · exact front d hd
      · rwa [List.mem_singleton.1 hd]
    | false =>
      rw [words_append_separator kind, words_of_identifier front, List.singleton_append,
        List.mem_cons] at h
      rcases h with rfl | h
      · exact ⟨front, [], c :: t, by simp, rfl, isBoundary_some.2 kind⟩
      · have later := ih [] (by simp) h
        exact ⟨later.1, later.2.append_separator kind first⟩

/-- The pieces are the words of identifier characters that occur. -/
theorem mem_words_iff : word ∈ words t ↔
    (∀ c ∈ word, isIdentifierChar c = true) ∧ HasWord t word :=
  ⟨hasWord_of_mem_words_append [] (by simp),
    fun ⟨h, found⟩ => mem_words_of_hasWord h found⟩

/-- Where two words stand with a separator between them, the first of them stands. -/
theorem HasWord.left {more : Text} (h : isIdentifierChar c = false)
    (found : HasWord t (word ++ c :: more)) : HasWord t word := by
  obtain ⟨before, after, rfl, left, -⟩ := found
  exact ⟨before, c :: (more ++ after), by simp, left, isBoundary_some.2 h⟩

/-! ### Occurrences -/

/-- A search that goes on behind each occurrence finds a word just if it stands in the text. -/
theorem containsWord_eq_any (h : Unbordered word) (any : word ≠ []) (t : Text) :
    containsWord t word = (occurrences word t).any fun (before, after) =>
      isBoundary before.getLast? && isBoundary after.head? := by
  rw [Bool.eq_iff_iff, containsWord_iff, HasWord, List.any_eq_true]
  constructor
  · rintro ⟨before, after, split, boundaries⟩
    exact ⟨(before, after), (mem_occurrences h any).2 split, by simpa using boundaries⟩
  · rintro ⟨⟨before, after⟩, mem, boundaries⟩
    exact ⟨before, after, (mem_occurrences h any).1 mem, by simpa using boundaries⟩

end IslDocs.Text
