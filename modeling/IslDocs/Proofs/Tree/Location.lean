import IslDocs.Proofs.Path.Normal
import IslDocs.Proofs.Tree.Entries
import IslDocs.Tree.Access

/-! Where paths lead in a well-formed tree. Whatever is found lies in a directory and is called as a
file may be; a path of plain names from the root leads to these names, provided it is not too long
and the directory it ends in is there. -/

namespace IslDocs

@[simp] theorem toOption_eq_some_iff {ε α : Type} {e : Except ε α} {a : α} :
    e.toOption = some a ↔ e = .ok a := by
  cases e <;> simp [Except.toOption]

@[simp] theorem bind_eq_ok_iff {ε α β : Type} {e : Except ε α} {f : α → Except ε β} {b : β} :
    e >>= f = .ok b ↔ ∃ a, e = .ok a ∧ f a = .ok b := by
  cases e <;> simp [bind, Except.bind]

namespace Tree

open IslDocs.Path (Plain ofLocation)

variable {t : Tree} {loc l : Location}

/-- A directory, or a name in a directory where something is or could be put. -/
def HasPlace (t : Tree) (loc : Location) : Prop :=
  t.isDirectoryAt loc = true ∨
    (∀ name ∈ loc, IsName name) ∧ loc ≠ [] ∧ t.isDirectoryAt loc.dropLast = true

theorem advance_eq_ok {s : Step} (h : t.advance loc s = .ok l) : t.isDirectoryAt loc = true := by
  unfold advance at h
  split at h
  · cases h
  · cases h
  all_goals next found => exact isDirectoryAt_iff.2 found

theorem WellFormed.hasPlace_advance (ht : t.WellFormed) {s : Step}
    (name : ∀ n, s = .down n → Path.IsPlain n ∧ '\x00' ∉ n) (h : t.advance loc s = .ok l) :
    t.HasPlace l := by
  have directory := advance_eq_ok h
  have found := isDirectoryAt_iff.1 directory
  cases s with
  | stay =>
    simp only [advance, found] at h
    cases h
    exact Or.inl directory
  | up =>
    simp only [advance, found] at h
    cases h
    exact Or.inl (ht.isDirectoryAt_dropLast found)
  | down n =>
    simp only [advance, found] at h
    split at h
    · cases h
    · next size =>
      cases h
      obtain ⟨plain, nul⟩ := name n rfl
      refine Or.inr ⟨fun m hm => ?_, by simp, by rwa [List.dropLast_concat]⟩
      rcases List.mem_append.1 hm with hm | hm
      · exact ht.names_of_node? found m hm
      · rw [List.mem_singleton.1 hm]
        exact ⟨plain.ne_nil, plain.ne_here, plain.ne_up, plain.no_slash, nul, by omega⟩

theorem WellFormed.hasPlace_foldlM (ht : t.WellFormed) {steps : List Step}
    (names : ∀ n, .down n ∈ steps → Path.IsPlain n ∧ '\x00' ∉ n) (start : t.HasPlace loc)
    (h : steps.foldlM t.advance loc = .ok l) : t.HasPlace l := by
  induction steps generalizing loc with
  | nil =>
    cases h
    exact start
  | cons s rest ih =>
    rw [List.foldlM_cons] at h
    obtain ⟨next, hs, h⟩ := bind_eq_ok_iff.1 h
    exact ih (fun n hn => names n (List.mem_cons_of_mem _ hn))
      (ht.hasPlace_advance (fun n hn => names n (hn ▸ List.mem_cons_self)) hs) h

theorem down_ofPiece {piece n : Text} (h : Step.ofPiece piece = .down n) :
    piece = n ∧ n ≠ [] ∧ n ≠ ['.'] ∧ n ≠ ['.', '.'] := by
  unfold Step.ofPiece at h
  split at h
  · cases h
  · cases h
  · cases h
  · next ne_nil ne_here ne_up =>
    cases h
    exact ⟨rfl, ne_nil, ne_here, ne_up⟩

theorem locate_eq_ok_iff {p : Path} : t.locate p = .ok loc ↔
    p.text.any (· == '\x00') = false ∧ p.text.isEmpty = false ∧ Text.byteSize p.text ≤ maxPath ∧
      (p.pieces.map Step.ofPiece).foldlM t.advance (if p.isAbsolute then [] else t.workDir) =
        .ok loc := by
  unfold locate
  split
  · next nul => simp [nul]
  split
  · next empty => simp [empty]
  split
  · next long => simp [Nat.not_le.2 long]
  · next nul empty short => simp [nul, empty, Nat.not_lt.1 short]

/-- Whatever a path leads to has a place. -/
theorem WellFormed.hasPlace_of_locate (ht : t.WellFormed) {p : Path} (h : t.locate p = .ok loc) :
    t.HasPlace loc := by
  obtain ⟨nul, -, -, found⟩ := locate_eq_ok_iff.1 h
  refine ht.hasPlace_foldlM ?_ ?_ found
  · intro n hn
    obtain ⟨piece, hp, down⟩ := List.mem_map.1 hn
    obtain ⟨rfl, ne_nil, ne_here, ne_up⟩ := down_ofPiece down
    obtain ⟨no_slash, inside⟩ := Path.of_mem_splitOn hp
    refine ⟨⟨ne_nil, ne_here, ne_up, no_slash⟩, fun h0 => ?_⟩
    simpa using List.any_eq_false.1 nul '\x00' (inside h0)
  · split
    · exact Or.inl rfl
    · exact Or.inl ht.workDir

/-! ### Plain names from the root -/

/-- The path of these names is one that the operating system takes. -/
def Openable (loc : Location) : Prop :=
  '\x00' ∉ (ofLocation loc).text ∧ Text.byteSize (ofLocation loc).text ≤ maxPath ∧
    ∀ name ∈ loc, Text.byteSize name ≤ maxName

instance (loc : Location) : Decidable (Openable loc) :=
  inferInstanceAs (Decidable (_ ∧ _ ∧ _))

theorem advance_down {n : Text} :
    t.advance loc (.down n) = .ok l ↔
      l = loc ++ [n] ∧ Text.byteSize n ≤ maxName ∧ t.isDirectoryAt loc = true := by
  rw [isDirectoryAt_iff]
  unfold advance
  split <;> simp_all
  split
  · next long => simp [Nat.not_le.2 long]
  · next short => simp [Nat.not_lt.1 short, eq_comm]

/-- Names lead down as long as the directory that holds the last of them is there. -/
theorem WellFormed.foldlM_down (ht : t.WellFormed) {names : List Text} :
    (names.map Step.down).foldlM t.advance loc = .ok l ↔
      l = loc ++ names ∧ (∀ name ∈ names, Text.byteSize name ≤ maxName) ∧
        (names ≠ [] → t.isDirectoryAt (loc ++ names).dropLast = true) := by
  induction names using List.reverseRec generalizing l with
  | nil =>
    rw [List.map_nil, List.foldlM_nil, List.append_nil]
    constructor
    · rintro ⟨⟩
      simp
    · rintro ⟨rfl, -, -⟩
      rfl
  | append_singleton init last ih =>
    have single : [Step.down last].foldlM t.advance = fun l => t.advance l (.down last) := by
      funext l
      rw [List.foldlM_cons]
      exact bind_pure _
    rw [List.map_append, List.foldlM_append, List.map_singleton, single, bind_eq_ok_iff,
      ← List.append_assoc, List.dropLast_concat]
    constructor
    · rintro ⟨next, found, down⟩
      obtain ⟨rfl, sizes, -⟩ := ih.1 found
      obtain ⟨rfl, size, directory⟩ := advance_down.1 down
      refine ⟨rfl, fun name hn => ?_, fun _ => directory⟩
      rcases List.mem_append.1 hn with hn | hn
      · exact sizes name hn
      · exact List.mem_singleton.1 hn ▸ size
    · rintro ⟨rfl, sizes, directory⟩
      have directory := directory (by simp)
      have above := ht.isDirectoryAt_dropLast (isDirectoryAt_iff.1 directory)
      exact ⟨loc ++ init, ih.2 ⟨rfl, fun name hn => sizes name (by simp [hn]), fun _ => above⟩,
        advance_down.2 ⟨rfl, sizes last (by simp), directory⟩⟩

theorem foldlM_pieces (h : Plain loc) :
    ((ofLocation loc).pieces.map Step.ofPiece).foldlM t.advance [] =
      (loc.map Step.down).foldlM t.advance [] := by
  have root : t.advance [] .stay = .ok [] := rfl
  have down : loc.map Step.ofPiece = loc.map Step.down := by
    refine List.map_congr_left fun n hn => ?_
    have := (h n hn).ne_nil
    have := (h n hn).ne_here
    have := (h n hn).ne_up
    unfold Step.ofPiece
    split <;> simp_all
  rcases eq_or_ne loc [] with rfl | hne
  · rfl
  · rw [Path.pieces_ofLocation h hne, List.map_cons, down]
    rfl

theorem locate_ofLocation_eq (h : Plain loc) :
    t.locate (ofLocation loc) =
      if '\x00' ∈ (ofLocation loc).text then .error .nulCharacter
      else if maxPath < Text.byteSize (ofLocation loc).text then .error .nameTooLong
      else (loc.map Step.down).foldlM t.advance [] := by
  have text : (ofLocation loc).text.isEmpty = false := by simp [Path.text_ofLocation]
  simp [locate, text, foldlM_pieces h]

theorem WellFormed.locate_ofLocation (ht : t.WellFormed) (h : Plain loc) :
    t.locate (ofLocation loc) = .ok l ↔
      l = loc ∧ Openable loc ∧ t.isDirectoryAt loc.dropLast = true := by
  rw [locate_ofLocation_eq h, Openable]
  split
  · simp_all
  · split
    · next long => simp [Nat.not_le.2 long]
    · next nul short =>
      rw [ht.foldlM_down, List.nil_append]
      rcases eq_or_ne loc [] with rfl | hne
      · simp [nul, Nat.not_lt.1 short, isDirectoryAt]
      · simp [nul, Nat.not_lt.1 short, hne]

/-! ### Reading -/

theorem read_eq_ok_iff {p : Path} {content : ByteArray} :
    t.read p = .ok content ↔ ∃ loc, t.locate p = .ok loc ∧ t.content? loc = some content := by
  simp only [content?_eq_some, read]
  rw [bind_eq_ok_iff]
  refine exists_congr fun loc => and_congr_right fun _ => ?_
  split <;> simp_all

theorem readText_eq_ok_iff {p : Path} {text : Text} :
    t.readText p = .ok text ↔ ∃ loc content, t.locate p = .ok loc ∧
      t.content? loc = some content ∧ Text.ofBytes? content = some text := by
  have decoded : t.readText p = .ok text ↔
      ∃ content, t.read p = .ok content ∧ Text.ofBytes? content = some text := by
    rw [readText, bind_eq_ok_iff]
    refine exists_congr fun content => and_congr_right fun _ => ?_
    split <;> simp_all
  rw [decoded]
  simp only [read_eq_ok_iff]
  constructor
  · rintro ⟨content, ⟨loc, found, held⟩, text⟩
    exact ⟨loc, content, found, held, text⟩
  · rintro ⟨loc, content, found, held, text⟩
    exact ⟨content, ⟨loc, found, held⟩, text⟩

theorem WellFormed.readText_ofLocation (ht : t.WellFormed) (h : Plain loc) {text : Text} :
    t.readText (ofLocation loc) = .ok text ↔ Openable loc ∧
      ∃ content, t.content? loc = some content ∧ Text.ofBytes? content = some text := by
  rw [readText_eq_ok_iff]
  constructor
  · rintro ⟨l, content, found, held, text⟩
    obtain ⟨rfl, openable, -⟩ := (ht.locate_ofLocation h).1 found
    exact ⟨openable, content, held, text⟩
  · rintro ⟨openable, content, held, text⟩
    have above := ht.isDirectoryAt_dropLast (content?_eq_some.1 held)
    exact ⟨loc, content, (ht.locate_ofLocation h).2 ⟨rfl, openable, above⟩, held, text⟩

/-- Trees that hold the same at a location read it alike, up to the fault. -/
theorem WellFormed.toOption_readText_congr {t' : Tree} (ht : t.WellFormed) (ht' : t'.WellFormed)
    (h : Plain loc) (same : t'.content? loc = t.content? loc) :
    (t'.readText (ofLocation loc)).toOption = (t.readText (ofLocation loc)).toOption := by
  ext text
  simp only [toOption_eq_some_iff]
  rw [ht.readText_ofLocation h, ht'.readText_ofLocation h, same]

end Tree
end IslDocs
