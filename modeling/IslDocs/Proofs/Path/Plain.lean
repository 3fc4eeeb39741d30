import IslDocs.Tree.Basic
import IslDocs.Path.Normal
import IslDocs.Proofs.Path.Same

/-! Plain names: neither empty nor made of dots alone, and without a slash. A path written from the
root with plain names has exactly these names; joining, taking the parent and cutting off the root
all act on the list of names. -/

namespace IslDocs.Path

structure IsPlain (name : Text) : Prop where
  ne_nil : name ≠ []
  ne_here : name ≠ ['.']
  ne_up : name ≠ ['.', '.']
  no_slash : '/' ∉ name

instance (name : Text) : Decidable (IsPlain name) :=
  decidable_of_iff (name ≠ [] ∧ name ≠ ['.'] ∧ name ≠ ['.', '.'] ∧ '/' ∉ name)
    ⟨fun ⟨ne_nil, ne_here, ne_up, no_slash⟩ => ⟨ne_nil, ne_here, ne_up, no_slash⟩,
     fun h => ⟨h.ne_nil, h.ne_here, h.ne_up, h.no_slash⟩⟩

theorem IsPlain.of_isName {name : Text} (h : IsName name) : IsPlain name :=
  ⟨h.ne_nil, h.ne_here, h.ne_up, h.no_slash⟩

def Plain (names : List Text) : Prop := ∀ name ∈ names, IsPlain name

instance (names : List Text) : Decidable (Plain names) :=
  inferInstanceAs (Decidable (∀ name ∈ names, IsPlain name))

/-- Names joined by slashes. -/
def joined (names : List Text) : Text := ['/'].intercalate names

variable {names loc rest : List Text} {name : Text}

theorem Plain.append (h : Plain names) (h' : Plain rest) : Plain (names ++ rest) := fun n hn =>
  (List.mem_append.1 hn).elim (h n) (h' n)

theorem Plain.left (h : Plain (names ++ rest)) : Plain names := fun n hn =>
  h n (List.mem_append_left _ hn)

theorem Plain.right (h : Plain (names ++ rest)) : Plain rest := fun n hn =>
  h n (List.mem_append_right _ hn)

theorem plain_singleton (h : IsPlain name) : Plain [name] := fun _ hn =>
  List.mem_singleton.1 hn ▸ h

@[simp] theorem ofPiece?_plain (h : IsPlain name) :
    Component.ofPiece? name = some (.name name) := by
  have := h.ne_nil
  have := h.ne_here
  have := h.ne_up
  unfold Component.ofPiece?
  split <;> simp_all

@[simp] theorem isTrivial_plain (h : IsPlain name) : isTrivial name = false := by
  simp [isTrivial, h]

@[simp] theorem filterMap_ofPiece? (h : Plain names) :
    names.filterMap Component.ofPiece? = names.map .name := by
  induction names with
  | nil => rfl
  | cons n rest ih =>
    rw [List.filterMap_cons_some (ofPiece?_plain (h n List.mem_cons_self)),
      ih fun m hm => h m (List.mem_cons_of_mem _ hm), List.map_cons]

@[simp] theorem dropTrivialEnd_plain (h : Plain names) : dropTrivialEnd names = names := by
  unfold dropTrivialEnd
  rcases List.eq_nil_or_concat' names with rfl | ⟨init, last, rfl⟩
  · rfl
  · rw [List.reverse_append, List.reverse_singleton, List.singleton_append, List.dropWhile_cons,
      if_neg (by rw [isTrivial_plain (h last (by simp))]; exact Bool.false_ne_true)]
    simp

@[simp] theorem splitOn_joined (h : Plain names) (hne : names ≠ []) :
    (joined names).splitOn '/' = names :=
  List.splitOn_intercalate '/' (fun n hn => (h n hn).no_slash) hne

theorem joined_append (hne : names ≠ []) (hr : rest ≠ []) :
    joined (names ++ rest) = joined names ++ '/' :: joined rest := by
  induction names with
  | nil => exact absurd rfl hne
  | cons n tail ih =>
    rcases eq_or_ne tail [] with rfl | htail
    · simp [joined, List.intercalate_cons_of_ne_nil hr]
    · have := ih htail
      simp_all [joined, List.intercalate_cons_of_ne_nil]

theorem joined_ne_nil (h : Plain names) (hne : names ≠ []) : joined names ≠ [] := by
  obtain ⟨n, rest, rfl⟩ := List.exists_cons_of_ne_nil hne
  have := (h n List.mem_cons_self).ne_nil
  cases rest <;> simp [joined, List.intercalate_cons_cons, this]

theorem getLast?_joined (h : Plain names) : (joined names).getLast? ≠ some '/' := by
  rcases List.eq_nil_or_concat' names with rfl | ⟨init, last, rfl⟩
  · simp [joined]
  · have plain := h last (by simp)
    have ends : last.getLast? ≠ some '/' := fun hl => plain.no_slash (List.mem_of_getLast? hl)
    rcases eq_or_ne init [] with rfl | hne
    · simpa [joined] using ends
    · rw [joined_append hne (List.cons_ne_nil _ _)]
      have : joined [last] = last := by simp [joined]
      rw [this, List.getLast?_append_of_ne_nil _ (List.cons_ne_nil _ _),
        List.getLast?_cons_of_ne_nil plain.ne_nil]
      exact ends

/-- Joined plain names do not begin with a slash. -/
theorem head?_joined (h : Plain names) : (joined names).head? ≠ some '/' := by
  cases names with
  | nil => simp [joined]
  | cons n rest =>
    obtain ⟨c, cs, rfl⟩ := List.exists_cons_of_ne_nil (h n List.mem_cons_self).ne_nil
    have hc : c ≠ '/' := fun hc => (h _ List.mem_cons_self).no_slash (by simp [hc])
    cases rest <;> simpa [joined, List.intercalate_cons_cons] using hc

/-! ### From the root -/

theorem text_ofLocation (loc : List Text) : (ofLocation loc).text = '/' :: joined loc := by
  simp [ofLocation, ofParts, joined, Function.comp_def, Component.text]

theorem ofLocation_eq (loc : List Text) : ofLocation loc = ⟨'/' :: joined loc⟩ := by
  rw [← text_ofLocation]

@[simp] theorem isAbsolute_ofLocation (loc : List Text) : (ofLocation loc).isAbsolute = true := by
  simp [isAbsolute, text_ofLocation]

@[simp] theorem pieces_ofLocation (h : Plain loc) (hne : loc ≠ []) :
    (ofLocation loc).pieces = [] :: loc := by
  have text : (ofLocation loc).text = ['/'].intercalate ([] :: loc) := by
    rw [text_ofLocation, List.intercalate_cons_of_ne_nil hne]
    rfl
  rw [pieces, text]
  refine List.splitOn_intercalate '/' (fun n hn => ?_) (List.cons_ne_nil _ _)
  rcases List.mem_cons.1 hn with rfl | hn
  · exact List.not_mem_nil
  · exact (h n hn).no_slash

@[simp] theorem parts_ofLocation (h : Plain loc) :
    (ofLocation loc).parts = .root :: loc.map .name := by
  rcases eq_or_ne loc [] with rfl | hne
  · rfl
  · rw [parts, pieces_ofLocation h hne]
    obtain ⟨n, rest, rfl⟩ := List.exists_cons_of_ne_nil hne
    rw [← filterMap_ofPiece? h]
    rfl

@[simp] theorem location_ofLocation (h : Plain loc) : (ofLocation loc).location = loc := by
  rw [location, parts_ofLocation h]
  simp [List.filterMap_map]

theorem ofLocation_beq_iff {loc' : List Text} (h : Plain loc) (h' : Plain loc') :
    (ofLocation loc == ofLocation loc') = true ↔ loc = loc' := by
  rw [beq_iff, parts_ofLocation h, parts_ofLocation h', List.cons_inj_right]
  exact (List.map_injective_iff.2 fun _ _ => Component.name.inj).eq_iff

/-- Spelled from the root with plain names. -/
def Rooted (p : Path) : Prop := ∃ loc, Plain loc ∧ p = ofLocation loc

theorem Rooted.plain {p : Path} (h : p.Rooted) : Plain p.location := by
  obtain ⟨loc, plain, rfl⟩ := h
  rwa [location_ofLocation plain]

theorem Rooted.eq_ofLocation {p : Path} (h : p.Rooted) : p = ofLocation p.location := by
  obtain ⟨loc, plain, rfl⟩ := h
  rw [location_ofLocation plain]

instance (p : Path) : Decidable p.Rooted :=
  decidable_of_iff (Plain p.location ∧ p.text = (ofLocation p.location).text)
    ⟨fun ⟨plain, text⟩ => ⟨p.location, plain, congrArg Path.mk text⟩,
     fun h => ⟨h.plain, congrArg Path.text h.eq_ofLocation⟩⟩

/-- From the root, only one spelling has no more than plain names. -/
theorem Rooted.eq_of_beq {p q : Path} (hp : p.Rooted) (hq : q.Rooted) (same : (p == q) = true) :
    p = q := by
  obtain ⟨loc, plain, rfl⟩ := hp
  obtain ⟨loc', plain', rfl⟩ := hq
  rw [(ofLocation_beq_iff plain plain').1 same]

/-! ### Relative paths -/

@[simp] theorem parts_joined (h : Plain names) (hne : names ≠ []) :
    (⟨joined names⟩ : Path).parts = names.map .name := by
  obtain ⟨n, rest, rfl⟩ := List.exists_cons_of_ne_nil hne
  have plain := h n List.mem_cons_self
  have first : firstPart n rest.isEmpty = [.name n] := by
    have := plain.ne_nil
    have := plain.ne_here
    unfold firstPart
    split <;> simp_all
  rw [parts, pieces, splitOn_joined h (List.cons_ne_nil _ _)]
  simp [first, filterMap_ofPiece? fun m hm => h m (List.mem_cons_of_mem _ hm)]

@[simp] theorem slashed_joined (h : Plain names) (hne : names ≠ []) :
    (⟨joined names⟩ : Path).slashed = joined names := by
  rw [slashed, parts_joined h hne, List.map_map]
  simp [joined, Function.comp_def, Component.text]

@[simp] theorem fileName_joined (h : Plain (names ++ [name])) :
    (⟨joined (names ++ [name])⟩ : Path).fileName = name := by
  simp [fileName, fileName?, h]

@[simp] theorem body_joined (h : Plain names) (hne : names ≠ []) :
    (⟨joined names⟩ : Path).body = ([], names) := by
  obtain ⟨n, rest, rfl⟩ := List.exists_cons_of_ne_nil hne
  have plain := h n List.mem_cons_self
  have := plain.ne_nil
  have := plain.ne_here
  rw [body, pieces, splitOn_joined h hne]
  split <;> simp_all

@[simp] theorem parent?_joined (h : Plain (names ++ [name])) :
    (⟨joined (names ++ [name])⟩ : Path).parent? = some ⟨joined names⟩ := by
  rw [parent?, body_joined h (by simp)]
  simp only [dropTrivialEnd_plain h]
  split
  · next none => simp at none
  · next first rest all =>
    rw [← all, List.dropLast_concat, dropTrivialEnd_plain h.left]
    rfl

@[simp] theorem body_ofLocation (h : Plain loc) (hne : loc ≠ []) :
    (ofLocation loc).body = (['/'], loc) := by
  obtain ⟨n, rest, rfl⟩ := List.exists_cons_of_ne_nil hne
  rw [body, pieces_ofLocation h hne]

@[simp] theorem parent?_ofLocation (h : Plain (loc ++ [name])) :
    (ofLocation (loc ++ [name])).parent? = some (ofLocation loc) := by
  rw [parent?, body_ofLocation h (by simp)]
  simp only [dropTrivialEnd_plain h]
  split
  · next none => simp at none
  · next first rest all =>
    rw [← all, List.dropLast_concat, dropTrivialEnd_plain h.left, ofLocation_eq]
    rfl

/-! ### Joining -/

theorem getLast?_ofLocation (h : Plain loc) (hne : loc ≠ []) :
    (ofLocation loc).text.getLast? ≠ some '/' := by
  rw [text_ofLocation, List.getLast?_cons_of_ne_nil (joined_ne_nil h hne)]
  exact getLast?_joined h

theorem join_joined (h : Plain loc) (hr : Plain rest) (hne : rest ≠ []) :
    (ofLocation loc).join (joined rest) = ofLocation (loc ++ rest) := by
  have head : ((joined rest).head? == some '/') = false := by simpa using head?_joined hr
  have text : (ofLocation loc).text.isEmpty = false := by simp [text_ofLocation]
  rw [join, head, text, Bool.or_self, if_neg Bool.false_ne_true, ofLocation_eq (loc ++ rest)]
  rcases eq_or_ne loc [] with rfl | hloc
  · rfl
  · have last : ((ofLocation loc).text.getLast? == some '/') = false := by
      simpa using getLast?_ofLocation h hloc
    rw [last, if_neg Bool.false_ne_true, text_ofLocation, joined_append hloc hne]
    rfl

/-- A file in a directory below another one; the directory may be the other one itself. -/
theorem join_join_joined (h : Plain loc) (hne : loc ≠ []) (hr : Plain rest) (hn : IsPlain name) :
    ((ofLocation loc).join (joined rest)).join name = ofLocation (loc ++ rest ++ [name]) := by
  have single : joined [name] = name := by simp [joined]
  rcases eq_or_ne rest [] with rfl | hrest
  · have head : (name.head? == some '/') = false := by
      simpa [single] using head?_joined (plain_singleton hn)
    have last : ((ofLocation loc).text.getLast? == some '/') = false := by
      simpa using getLast?_ofLocation h hne
    have text : (ofLocation loc).text.isEmpty = false := by simp [text_ofLocation]
    have slash : (ofLocation loc).join (joined []) = ⟨(ofLocation loc).text ++ ['/']⟩ := by
      rw [join, text, last]
      rfl
    have ends : (((ofLocation loc).text ++ ['/']).getLast? == some '/') = true := by
      rw [List.getLast?_concat]
      rfl
    rw [slash, join, head, ends, List.append_nil, ofLocation_eq (loc ++ [name]),
      joined_append hne (List.cons_ne_nil _ _), single]
    simp [text_ofLocation]
  · rw [join_joined h hr hrest]
    have := join_joined (h.append hr) (plain_singleton hn) (List.cons_ne_nil _ _)
    rwa [single] at this

/-! ### Cutting off the root -/

@[simp] theorem dropParts_append (h : Plain names) (rest : List Text) :
    dropParts names.length (names ++ rest) = rest := by
  induction names with
  | nil => simp [dropParts]
  | cons n tail ih =>
    rw [List.length_cons, List.cons_append, dropParts, isTrivial_plain (h n List.mem_cons_self),
      if_neg Bool.false_ne_true]
    exact ih fun m hm => h m (List.mem_cons_of_mem _ hm)

@[simp] theorem dropWhile_isTrivial (h : Plain names) : names.dropWhile isTrivial = names := by
  cases names with
  | nil => rfl
  | cons n rest =>
    simp [isTrivial_plain (h n List.mem_cons_self)]

theorem relativeTo_ofLocation (h : Plain (loc ++ rest)) (hne : rest ≠ []) :
    relativeTo (ofLocation loc) (ofLocation (loc ++ rest)) = ⟨joined rest⟩ := by
  have below : (ofLocation loc).parts.isPrefixOf (ofLocation (loc ++ rest)).parts = true := by
    rw [parts_ofLocation h.left, parts_ofLocation h, List.isPrefixOf_iff_prefix, List.map_append]
    exact List.prefix_append _ _
  rw [relativeTo, isAbsolute_ofLocation, below, Bool.and_self, if_pos rfl,
    pieces_ofLocation h (by simp [hne]),
    parts_ofLocation h.left]
  simp only [List.length_cons, List.length_map, Nat.add_sub_cancel, List.drop_succ_cons,
    List.drop_zero, dropParts_append h.left, dropWhile_isTrivial h.right,
    dropTrivialEnd_plain h.right]
  rfl

end IslDocs.Path
