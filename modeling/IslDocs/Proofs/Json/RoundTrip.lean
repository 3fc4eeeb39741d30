import IslDocs.Json.Parser
import IslDocs.Proofs.Json.Lexing

/-! The printed form of a value reads back as the value. Values have a sequence of tokens between
their printed form and themselves: the lexer reads the tokens off the printed form and the parser
takes them up in a single frame. -/

namespace IslDocs.Json

namespace Value

mutual

/-- Every number in the value is written as numbers are. -/
def Numeric : Value → Prop
  | .number literal => isNumber literal = true
  | .array items => NumericItems items
  | .object members => NumericMembers members
  | _ => True

def NumericItems : List Value → Prop
  | [] => True
  | item :: rest => item.Numeric ∧ NumericItems rest

def NumericMembers : List (Str × Value) → Prop
  | [] => True
  | (_, value) :: rest => value.Numeric ∧ NumericMembers rest

end

mutual

/-- What the value consists of, in the order in which it is printed. -/
def tokens : Value → List Token
  | .null => [.null]
  | .bool b => [.bool b]
  | .number literal => [.number literal]
  | .string s => [.string s]
  | .array [] => [.openArray, .closeArray]
  | .array (item :: rest) => .openArray :: item.tokens ++ itemTokens rest ++ [.closeArray]
  | .object [] => [.openObject, .closeObject]
  | .object ((key, value) :: rest) =>
    .openObject :: .string key :: .colon :: value.tokens ++ memberTokens rest ++ [.closeObject]

def itemTokens : List Value → List Token
  | [] => []
  | item :: rest => .comma :: item.tokens ++ itemTokens rest

def memberTokens : List (Str × Value) → List Token
  | [] => []
  | (key, value) :: rest => .comma :: .string key :: .colon :: value.tokens ++ memberTokens rest

end

end Value

open Value

/-! ### From the printed form to the tokens -/

/-- The lexer comes to the end of these tokens, though the last may be a word that could go on. -/
def Reads (t : Text) (ts : List Token) : Prop :=
  ∀ tokens, ∃ l, t.foldlM Lexer.step ⟨tokens, .gap⟩ = some l ∧
    l.settled? = some (ts.reverse ++ tokens)

/-- The lexer comes to a gap after these tokens. -/
def ReadsOff (t : Text) (ts : List Token) : Prop :=
  ∀ tokens, t.foldlM Lexer.step ⟨tokens, .gap⟩ = some ⟨ts.reverse ++ tokens, .gap⟩

variable {s t : Text} {ss ts : List Token}

theorem ReadsOff.append (h : ReadsOff s ss) (h' : Reads t ts) : Reads (s ++ t) (ss ++ ts) := by
  intro tokens
  obtain ⟨l, read, settled⟩ := h' (ss.reverse ++ tokens)
  refine ⟨l, ?_, by rw [settled, List.reverse_append, List.append_assoc]⟩
  rw [List.foldlM_append, h, Option.bind_eq_bind, Option.bind_some, read]

/-- A character that ends a word ends it for what comes after. -/
theorem Reads.append {c : Char} (h : Reads s ss) (other : isWordChar c = false)
    (h' : Reads (c :: t) ts) : Reads (s ++ c :: t) (ss ++ ts) := by
  intro tokens
  obtain ⟨before, read, settled⟩ := h tokens
  obtain ⟨l, read', settled'⟩ := h' (ss.reverse ++ tokens)
  refine ⟨l, ?_, by rw [settled', List.reverse_append, List.append_assoc]⟩
  have gap : Lexer.step ⟨ss.reverse ++ tokens, .gap⟩ c = before.step c :=
    (before.step_of_settled settled other).symm
  rw [List.foldlM_append, read, Option.bind_eq_bind, Option.bind_some, List.foldlM_cons, ← gap,
    ← List.foldlM_cons, read']

theorem readsOff_newLine (depth : ℕ) : ReadsOff (newLine depth) [] := by
  intro tokens
  have blanks : ∀ n, (List.replicate n ' ').foldlM Lexer.step ⟨tokens, .gap⟩ =
      some ⟨tokens, .gap⟩ := by
    intro n
    induction n with
    | zero => rfl
    | succ n ih =>
      rw [List.replicate_succ, List.foldlM_cons]
      exact ih
  exact blanks (2 * depth)

theorem readsOff_punctuation {c : Char} {token : Token} (named : Lexer.punctuation? c = some token)
    (depth : ℕ) : ReadsOff (c :: newLine depth) [token] := by
  intro tokens
  have step : Lexer.step ⟨tokens, .gap⟩ c = some ⟨token :: tokens, .gap⟩ := by
    unfold Lexer.punctuation? at named
    split at named <;> cases named <;> rfl
  rw [List.foldlM_cons, step, Option.bind_eq_bind, Option.bind_some, readsOff_newLine depth]
  rfl

theorem readsOff_key (key : Str) :
    ReadsOff (strLiteral key ++ [':', ' ']) [.string key, .colon] := by
  intro tokens
  rw [List.foldlM_append, lex_strLiteral]
  rfl

theorem reads_null : Reads "null".toList [.null] := fun tokens =>
  lex_word tokens (List.all_eq_true.1 rfl) (by decide) rfl

theorem reads_boolLiteral (b : Bool) : Reads (boolLiteral b) [.bool b] := by
  intro tokens
  cases b <;> exact lex_word tokens (List.all_eq_true.1 rfl) (by decide) rfl

/-- The end of an array or object on a line of its own. -/
theorem Reads.close {c : Char} {token : Token} (h : Reads s ss)
    (named : Lexer.punctuation? c = some token) (depth : ℕ) :
    Reads (s ++ newLine depth ++ [c]) (ss ++ [token]) := by
  have last : Reads [c] [token] := by
    intro tokens
    refine ⟨⟨token :: tokens, .gap⟩, ?_, rfl⟩
    unfold Lexer.punctuation? at named
    split at named <;> cases named <;> rfl
  rw [List.append_assoc]
  exact h.append rfl ((readsOff_newLine depth).append last)

mutual

theorem reads_print (depth : ℕ) : ∀ v : Value, v.Numeric → Reads (v.print depth) v.tokens
  | .null, _ => reads_null
  | .bool b, _ => reads_boolLiteral b
  | .number literal, numeric => fun tokens =>
    lex_word tokens (isWordChar_of_isNumber numeric) (by rintro rfl; cases numeric)
      (ofWord?_of_isNumber numeric)
  | .string s, _ => fun tokens => ⟨_, lex_strLiteral tokens s, rfl⟩
  | .array [], _ => fun _ => ⟨_, rfl, rfl⟩
  | .object [], _ => fun _ => ⟨_, rfl, rfl⟩
  | .array (item :: rest), ⟨first, others⟩ => by
    have opened := readsOff_punctuation (c := '[') rfl (depth + 1)
    have items := reads_printItems (depth + 1) rest others
      (opened.append (reads_print (depth + 1) item first))
    have closed := items.close (c := ']') rfl depth
    simpa only [Value.print, tokens, List.append_assoc, List.cons_append, List.nil_append]
      using closed
  | .object ((key, value) :: rest), ⟨first, others⟩ => by
    have opened := readsOff_punctuation (c := '\x7b') rfl (depth + 1)
    have members := reads_printMembers (depth + 1) rest others
      (opened.append ((readsOff_key key).append (reads_print (depth + 1) value first)))
    have closed := members.close (c := '\x7d') rfl depth
    simpa only [Value.print, tokens, List.append_assoc, List.cons_append, List.nil_append]
      using closed

theorem reads_printItems (depth : ℕ) : ∀ items : List Value, NumericItems items → ∀ {s ss},
    Reads s ss → Reads (s ++ printItems depth items) (ss ++ itemTokens items)
  | [], _, s, ss, h => by
    rw [printItems, itemTokens, List.append_nil, List.append_nil]
    exact h
  | item :: rest, ⟨first, others⟩, s, ss, h => by
    have comma := readsOff_punctuation (c := ',') rfl depth
    have next := h.append rfl (comma.append (reads_print depth item first))
    have items := reads_printItems depth rest others next
    simpa only [printItems, itemTokens, List.append_assoc, List.cons_append, List.nil_append,
      List.append_eq] using items

theorem reads_printMembers (depth : ℕ) : ∀ members : List (Str × Value), NumericMembers members →
    ∀ {s ss}, Reads s ss → Reads (s ++ printMembers depth members) (ss ++ memberTokens members)
  | [], _, s, ss, h => by
    rw [printMembers, memberTokens, List.append_nil, List.append_nil]
    exact h
  | (key, value) :: rest, ⟨first, others⟩, s, ss, h => by
    have comma := readsOff_punctuation (c := ',') rfl depth
    have member := (readsOff_key key).append (reads_print depth value first)
    have members := reads_printMembers depth rest others (h.append rfl (comma.append member))
    simpa only [printMembers, memberTokens, List.append_assoc, List.cons_append, List.nil_append,
      List.append_eq] using members

end

theorem tokens?_pretty {v : Value} (numeric : v.Numeric) : tokens? v.pretty = some v.tokens := by
  obtain ⟨l, read, settled⟩ := reads_print 0 v numeric []
  simp [tokens?, Value.pretty, Lexer.start, read, Lexer.finish_of_settled settled]

/-! ### From the tokens to the value -/

theorem closeFrame_head (frames : List Frame) (v : Value) :
    ∃ token rest, v.tokens = token :: rest ∧ Parser.closeFrame frames token = none := by
  have other : ∀ token : Token, token ≠ .closeArray → token ≠ .closeObject →
      Parser.closeFrame frames token = none := by
    intro token array object
    unfold Parser.closeFrame
    split <;> simp_all
  cases v with
  | array items => cases items <;> exact ⟨_, _, rfl, other _ (by simp) (by simp)⟩
  | object members => cases members <;> exact ⟨_, _, rfl, other _ (by simp) (by simp)⟩
  | _ => exact ⟨_, _, rfl, other _ (by simp) (by simp)⟩

/-- The first item is read as any other value. -/
theorem foldlM_firstItem (frames : List Frame) (v : Value) :
    v.tokens.foldlM Parser.step ⟨frames, .firstItem⟩ =
      v.tokens.foldlM Parser.step ⟨frames, .value⟩ := by
  obtain ⟨token, rest, cut, open'⟩ := closeFrame_head frames v
  rw [cut, List.foldlM_cons, List.foldlM_cons]
  simp only [Parser.step, open', Option.none_or]

mutual

/-- Read where a value is expected, the tokens of a value complete the innermost frame. -/
theorem foldlM_tokens : ∀ (v : Value) (frames : List Frame),
    v.tokens.foldlM Parser.step ⟨frames, .value⟩ = Parser.complete frames v
  | .null, frames => by simp [tokens, Parser.step, Parser.stepValue]
  | .bool b, frames => by simp [tokens, Parser.step, Parser.stepValue]
  | .number literal, frames => by simp [tokens, Parser.step, Parser.stepValue]
  | .string s, frames => by simp [tokens, Parser.step, Parser.stepValue]
  | .array [], frames => by
    simp [tokens, Parser.step, Parser.stepValue, Parser.closeFrame]
  | .object [], frames => by
    simp [tokens, Parser.step, Parser.stepValue, Parser.closeFrame, Parser.stepKey]
  | .array (item :: rest), frames => by
    have opened : Parser.step ⟨frames, .value⟩ .openArray =
      some ⟨.array [] :: frames, .firstItem⟩ := rfl
    simp only [tokens, List.cons_append, List.foldlM_cons, opened, Option.bind_eq_bind,
      Option.bind_some, List.foldlM_append, foldlM_firstItem, foldlM_tokens item]
    simp [Parser.complete, foldlM_itemTokens rest, Parser.step, Parser.stepSeparator,
      Parser.closeFrame]
  | .object ((key, value) :: rest), frames => by
    have opened : [Token.openObject, .string key, .colon].foldlM Parser.step ⟨frames, .value⟩ =
      some ⟨.member [] key :: frames, .value⟩ := rfl
    have cut : (Value.object ((key, value) :: rest)).tokens =
        [.openObject, .string key, .colon] ++ (value.tokens ++ (memberTokens rest ++
          [.closeObject])) := by
      simp [tokens]
    simp only [cut, List.foldlM_append, opened, Option.bind_eq_bind, Option.bind_some,
      foldlM_tokens value]
    simp [Parser.complete, foldlM_memberTokens rest, Parser.step, Parser.stepSeparator,
      Parser.closeFrame]

theorem foldlM_itemTokens : ∀ (rest items : List Value) (frames : List Frame),
    (itemTokens rest).foldlM Parser.step ⟨.array items :: frames, .separator⟩ =
      some ⟨.array (rest.reverse ++ items) :: frames, .separator⟩
  | [], items, frames => rfl
  | item :: rest, items, frames => by
    have comma : Parser.step ⟨.array items :: frames, .separator⟩ .comma =
      some ⟨.array items :: frames, .value⟩ := rfl
    simp [itemTokens, comma, foldlM_tokens item, Parser.complete, foldlM_itemTokens rest]

theorem foldlM_memberTokens : ∀ (rest members : List (Str × Value)) (frames : List Frame),
    (memberTokens rest).foldlM Parser.step ⟨.object members :: frames, .separator⟩ =
      some ⟨.object (rest.reverse ++ members) :: frames, .separator⟩
  | [], members, frames => rfl
  | (key, value) :: rest, members, frames => by
    have member : [Token.comma, .string key, .colon].foldlM Parser.step
        ⟨.object members :: frames, .separator⟩ =
          some ⟨.member members key :: frames, .value⟩ := rfl
    have cut : memberTokens ((key, value) :: rest) =
        [.comma, .string key, .colon] ++ (value.tokens ++ memberTokens rest) := by
      simp [memberTokens]
    simp only [cut, List.foldlM_append, member, Option.bind_eq_bind, Option.bind_some,
      foldlM_tokens value]
    simp [Parser.complete, foldlM_memberTokens rest]

end

theorem parse?_pretty {v : Value} (numeric : v.Numeric) : parse? v.pretty = some v := by
  simp [parse?, tokens?_pretty numeric, Parser.start, foldlM_tokens, Parser.complete,
    Parser.result?]

end IslDocs.Json
