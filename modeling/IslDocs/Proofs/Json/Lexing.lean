import IslDocs.Json.Lexer
import IslDocs.Proofs.Text.BlankLines
import Mathlib.Data.List.TakeWhile
import Mathlib.Tactic.IntervalCases

/-! What the lexer makes of a printed string or word. A string ends by itself; a word is only
closed by what comes after it, so a lexer that has come to its end is compared by the tokens that it
would close with. A line feed leaves the lexer in a gap, where further ones make no difference. -/

namespace IslDocs.Json

variable {tokens : List Token} {read : List Piece}

/-! ### Strings -/

theorem lex_unit (tokens : List Token) (read : List Piece) {n : ℕ} (h : n < 0x20) :
    (hexDigits 4 n).foldlM Lexer.step ⟨tokens, .unit read 3 0⟩ =
      some ⟨tokens, .string (.char (Char.ofNat n) :: read)⟩ := by
  interval_cases n <;> rfl

/-- However a character is written in a string, it is read as itself. -/
@[simp] theorem lex_escape (tokens : List Token) (read : List Piece) (c : Char) :
    (escape c).foldlM Lexer.step ⟨tokens, .string read⟩ =
      some ⟨tokens, .string (.char c :: read)⟩ := by
  unfold escape
  split
  case h_8 quote backslash _ _ _ _ _ =>
    split
    · next control =>
      have unit := lex_unit tokens read control
      rw [Char.ofNat_toNat] at unit
      rw [← unit]
      rfl
    · next visible => simp_all [Lexer.step, Lexer.stepString]
  all_goals rfl

@[simp] theorem lex_flatMap_escape (tokens : List Token) (read : List Piece) (t : Text) :
    (t.flatMap escape).foldlM Lexer.step ⟨tokens, .string read⟩ =
      some ⟨tokens, .string ((t.map .char).reverse ++ read)⟩ := by
  induction t generalizing read with
  | nil => rfl
  | cons c rest ih =>
    simp [ih]

@[simp] theorem textOfPieces_char (t : Text) : textOfPieces (t.map .char) = some t := by
  induction t with
  | nil => rfl
  | cons c rest ih => simp [textOfPieces, ih]

@[simp] theorem lex_quote (tokens : List Token) (t : Text) :
    (quote t).foldlM Lexer.step ⟨tokens, .gap⟩ = some ⟨.string (some t) :: tokens, .gap⟩ := by
  have opened : Lexer.step ⟨tokens, .gap⟩ '"' = some ⟨tokens, .string []⟩ := rfl
  rw [quote, List.cons_append, List.foldlM_cons, opened, Option.bind_eq_bind, Option.bind_some,
    List.foldlM_append, lex_flatMap_escape]
  simp [Lexer.step, Lexer.stepString, pure]

@[simp] theorem lex_strLiteral (tokens : List Token) (s : Str) :
    (strLiteral s).foldlM Lexer.step ⟨tokens, .gap⟩ = some ⟨.string s :: tokens, .gap⟩ := by
  cases s with
  | none => rfl
  | some t => exact lex_quote tokens t

/-! ### Words -/

theorem isWordChar_of_digitsThen {after : Text → Bool}
    (rest : ∀ t, after t = true → ∀ c ∈ t, isWordChar c = true) {t : Text}
    (h : digitsThen after t = true) : ∀ c ∈ t, isWordChar c = true := by
  intro c hc
  rw [digitsThen, Bool.and_eq_true] at h
  rw [← List.takeWhile_append_dropWhile (p := Char.isDigit) (l := t), List.mem_append] at hc
  rcases hc with digit | later
  · have := List.mem_takeWhile_imp digit
    simp [isWordChar, Char.isAlphanum, this]
  · exact rest _ h.2 c later

theorem isWordChar_of_digits {t : Text} (h : digitsThen List.isEmpty t = true) :
    ∀ c ∈ t, isWordChar c = true :=
  isWordChar_of_digitsThen (fun t empty => by simp [List.isEmpty_iff.1 empty]) h

theorem isWordChar_of_isExponent {t : Text} (h : isExponent t = true) :
    ∀ c ∈ t, isWordChar c = true := by
  unfold isExponent at h
  split at h
  · simp
  · next c rest =>
    simp only [Bool.and_eq_true, Bool.or_eq_true, beq_iff_eq] at h
    obtain ⟨letter, digits⟩ := h
    have first : isWordChar c = true := by
      rcases letter with rfl | rfl <;> rfl
    refine List.forall_mem_cons.2 ⟨first, ?_⟩
    split at digits
    · exact List.forall_mem_cons.2 ⟨rfl, isWordChar_of_digits digits⟩
    · exact List.forall_mem_cons.2 ⟨rfl, isWordChar_of_digits digits⟩
    · exact isWordChar_of_digits digits

theorem isWordChar_of_isFraction {t : Text} (h : isFraction t = true) :
    ∀ c ∈ t, isWordChar c = true := by
  unfold isFraction at h
  split at h
  · exact List.forall_mem_cons.2
      ⟨rfl, isWordChar_of_digitsThen (fun _ => isWordChar_of_isExponent) h⟩
  · exact isWordChar_of_isExponent h

theorem isWordChar_of_isUnsigned {t : Text} (h : isUnsigned t = true) :
    ∀ c ∈ t, isWordChar c = true := by
  unfold isUnsigned at h
  split at h
  · exact List.forall_mem_cons.2 ⟨rfl, isWordChar_of_isFraction h⟩
  · exact isWordChar_of_digitsThen (fun _ => isWordChar_of_isFraction) h

theorem isWordChar_of_isNumber {t : Text} (h : isNumber t = true) :
    ∀ c ∈ t, isWordChar c = true := by
  unfold isNumber at h
  split at h
  · exact List.forall_mem_cons.2 ⟨rfl, isWordChar_of_isUnsigned h⟩
  · exact isWordChar_of_isUnsigned h

theorem ofWord?_of_isNumber {t : Text} (h : isNumber t = true) :
    Token.ofWord? t = some (.number t) := by
  have other : ∀ name, isNumber name = false → t ≠ name := by
    rintro name no rfl
    simp [h] at no
  rw [Token.ofWord?, if_neg (other _ rfl), if_neg (other _ rfl), if_neg (other _ rfl), if_pos h]

theorem lex_wordChars (tokens : List Token) (read : Text) {t : Text}
    (h : ∀ c ∈ t, isWordChar c = true) :
    t.foldlM Lexer.step ⟨tokens, .word read⟩ = some ⟨tokens, .word (t.reverse ++ read)⟩ := by
  induction t generalizing read with
  | nil => rfl
  | cons c rest ih =>
    have next : Lexer.step ⟨tokens, .word read⟩ c = some ⟨tokens, .word (c :: read)⟩ := by
      simp [Lexer.step, h c List.mem_cons_self]
    simp [next, ih _ fun d hd => h d (List.mem_cons_of_mem _ hd)]

namespace Lexer

/-- The tokens at the end of what has been read, or nothing inside a string. -/
def settled? (l : Lexer) : Option (List Token) :=
  match l.reading with
  | .gap => some l.tokens
  | .word read => closeWord l.tokens read
  | _ => none

theorem finish_of_settled {l : Lexer} (h : l.settled? = some tokens) :
    l.finish = some tokens.reverse := by
  unfold settled? at h
  unfold finish
  split at h <;> simp_all

/-- A character that no word goes on with is taken as after a gap. -/
theorem step_of_settled {l : Lexer} {c : Char} (h : l.settled? = some tokens)
    (other : isWordChar c = false) : l.step c = stepGap tokens c := by
  unfold settled? at h
  unfold step
  split at h <;> simp_all

end Lexer

/-- A word is read as the token that it names. -/
theorem lex_word (tokens : List Token) {t : Text} {token : Token}
    (h : ∀ c ∈ t, isWordChar c = true) (hne : t ≠ []) (named : Token.ofWord? t = some token) :
    ∃ l, t.foldlM Lexer.step ⟨tokens, .gap⟩ = some l ∧ l.settled? = some (token :: tokens) := by
  obtain ⟨c, rest, rfl⟩ := List.exists_cons_of_ne_nil hne
  have first := h c List.mem_cons_self
  have opened : Lexer.step ⟨tokens, .gap⟩ c = some ⟨tokens, .word [c]⟩ := by
    have other : ∀ d, isWordChar d = false → c ≠ d := by
      rintro d no rfl
      simp [first] at no
    simp [Lexer.step, Lexer.stepGap, Lexer.isBlank, other ' ' rfl, other '\n' rfl, other '\t' rfl,
      other '\r' rfl, other '"' rfl, first]
  refine ⟨⟨tokens, .word (rest.reverse ++ [c])⟩, ?_, ?_⟩
  · simp [opened, lex_wordChars _ _ fun d hd => h d (List.mem_cons_of_mem _ hd)]
  · simp [Lexer.settled?, Lexer.closeWord, named]

/-! ### Blank lines -/

theorem Lexer.reading_of_step_feed {l l' : Lexer} (h : l.step '\n' = some l') :
    l'.reading = .gap := by
  have blank : ∀ tokens, stepGap tokens '\n' = some ⟨tokens, .gap⟩ := fun _ => rfl
  unfold step at h
  split at h
  · rw [blank] at h
    exact Option.some.inj h ▸ rfl
  · rw [if_neg (by decide), Option.bind_eq_some_iff] at h
    obtain ⟨tokens, -, h⟩ := h
    rw [blank] at h
    exact Option.some.inj h ▸ rfl
  · cases h
  · cases h
  · cases h

theorem foldlM_step_collapseAfter {run : ℕ} {l : Lexer} (t : Text)
    (h : run = 0 ∨ l.reading = .gap) :
    (Text.collapseAfter run t).foldlM Lexer.step l = t.foldlM Lexer.step l := by
  induction t generalizing run l with
  | nil => rfl
  | cons c rest ih =>
    have behind : ∀ run, (c = '\n' ∨ run = 0) →
        (c :: Text.collapseAfter run rest).foldlM Lexer.step l =
          (c :: rest).foldlM Lexer.step l := by
      intro run feed
      rw [List.foldlM_cons, List.foldlM_cons]
      cases next : l.step c with
      | none => rfl
      | some l' =>
        exact ih (feed.symm.imp_right fun feed => Lexer.reading_of_step_feed (feed ▸ next))
    rw [Text.collapseAfter]
    split
    · next feed =>
      split
      · exact behind _ (Or.inl feed)
      · next full =>
        have gap := h.resolve_left (by omega)
        have stay : l.step c = some l := by
          obtain ⟨tokens, reading⟩ := l
          subst feed gap
          rfl
        rw [ih (Or.inr gap), List.foldlM_cons, stay]
        rfl
    · exact behind 0 (Or.inr rfl)

@[simp] theorem tokens?_collapse (t : Text) : tokens? (Text.collapse t) = tokens? t := by
  rw [tokens?, tokens?, Text.collapse_eq, foldlM_step_collapseAfter t (Or.inl rfl)]

end IslDocs.Json
