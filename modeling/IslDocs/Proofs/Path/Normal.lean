import IslDocs.Proofs.Path.Plain

/-! Normal paths from the root. Leaving out dots and taking back steps up keeps, from the root on, a
stack of plain names, so a normal path from the root is written with plain names alone. -/

namespace IslDocs.Path

variable {names : List Text}

/-- A piece of a text has characters of the text, but not the one it is cut at. -/
theorem of_mem_splitOn {c : Char} {t piece : Text} (h : piece ∈ t.splitOn c) :
    c ∉ piece ∧ piece ⊆ t := by
  induction t generalizing piece with
  | nil =>
    rw [List.splitOn_nil, List.mem_singleton] at h
    simp [h]
  | cons d rest ih =>
    rw [List.splitOn_cons_eq_if_modifyHead] at h
    obtain ⟨first, others, cut⟩ := List.exists_cons_of_ne_nil (List.splitOn_ne_nil c rest)
    rw [cut] at h ih
    have old : ∀ piece' ∈ first :: others, c ∉ piece' ∧ piece' ⊆ d :: rest := fun piece' h' =>
      ⟨(ih h').1, List.subset_cons_of_subset d (ih h').2⟩
    split at h
    · rcases List.mem_cons.1 h with rfl | h
      · simp
      · exact old piece h
    · next other =>
      rcases List.mem_cons.1 h with rfl | h
      · obtain ⟨clean, inside⟩ := old first List.mem_cons_self
        refine ⟨?_, List.cons_subset.2 ⟨List.mem_cons_self, inside⟩⟩
        rw [List.mem_cons, not_or]
        exact ⟨fun same => other (by simp [same]), clean⟩
      · exact old piece (List.mem_cons_of_mem _ h)

/-- A step up, or down to a plain name: what comes between the slashes of a path. -/
def IsStep (c : Component) : Prop := c = .up ∨ ∃ name, c = .name name ∧ IsPlain name

theorem isStep_of_ofPiece? {piece : Text} {c : Component} (h : Component.ofPiece? piece = some c)
    (hs : '/' ∉ piece) : IsStep c := by
  unfold Component.ofPiece? at h
  split at h
  · cases h
  · cases h
  · exact Or.inl (Option.some.inj h).symm
  · next ne_nil ne_here ne_up =>
    exact Or.inr ⟨piece, (Option.some.inj h).symm, fun h => ne_nil h, fun h => ne_here h,
      fun h => ne_up h, hs⟩

/-- Plain names above the root, the last on top. -/
def stack (names : List Text) : List Component := (names.map Component.name).reverse ++ [.root]

theorem pushNormal_stack (h : Plain names) {c : Component} (hc : IsStep c) :
    ∃ names', Plain names' ∧ pushNormal (stack names) c = stack names' := by
  rcases hc with rfl | ⟨n, rfl, hn⟩
  · rcases List.eq_nil_or_concat' names with rfl | ⟨init, last, rfl⟩
    · exact ⟨[], h, rfl⟩
    · exact ⟨init, h.left, by simp [stack, pushNormal]⟩
  · exact ⟨names ++ [n], h.append (plain_singleton hn), by simp [stack, pushNormal]⟩

theorem foldl_pushNormal_stack (h : Plain names) {cs : List Component} (hcs : ∀ c ∈ cs, IsStep c) :
    ∃ names', Plain names' ∧ cs.foldl pushNormal (stack names) = stack names' := by
  induction cs generalizing names with
  | nil => exact ⟨names, h, rfl⟩
  | cons c rest ih =>
    obtain ⟨names', h', pushed⟩ := pushNormal_stack h (hcs c List.mem_cons_self)
    rw [List.foldl_cons, pushed]
    exact ih h' fun d hd => hcs d (List.mem_cons_of_mem _ hd)

theorem parts_slash (t : Text) :
    (⟨'/' :: t⟩ : Path).parts = .root :: (t.splitOn '/').filterMap Component.ofPiece? := by
  have cut : (⟨'/' :: t⟩ : Path).pieces = [] :: t.splitOn '/' := by
    rw [pieces, List.splitOn_cons_eq_if_modifyHead]
    rfl
  obtain ⟨first, others, rest⟩ := List.exists_cons_of_ne_nil (List.splitOn_ne_nil '/' t)
  rw [parts, cut, rest]
  rfl

theorem parts_of_isAbsolute {p : Path} (h : p.isAbsolute = true) :
    ∃ cs, p.parts = .root :: cs ∧ ∀ c ∈ cs, IsStep c := by
  obtain ⟨text⟩ := p
  obtain ⟨t, rfl⟩ : ∃ t, text = '/' :: t := by
    rw [isAbsolute, beq_iff_eq] at h
    exact ⟨_, List.eq_cons_of_mem_head? h⟩
  refine ⟨_, parts_slash t, fun c hc => ?_⟩
  obtain ⟨piece, hp, found⟩ := List.mem_filterMap.1 hc
  exact isStep_of_ofPiece? found (of_mem_splitOn hp).1

/-- From the root, a normal path consists of plain names. -/
theorem rooted_normalize {p : Path} (h : p.isAbsolute = true) : p.normalize.Rooted := by
  obtain ⟨cs, parts, hcs⟩ := parts_of_isAbsolute h
  have bottom : Plain [] := by simp [Plain]
  obtain ⟨names, plain, folded⟩ := foldl_pushNormal_stack bottom hcs
  refine ⟨names, plain, ?_⟩
  have start : pushNormal [] .root = stack [] := rfl
  rw [normalize, normalParts, parts, List.foldl_cons, start, folded, ofLocation]
  simp [stack]

theorem isAbsolute_join {p : Path} (h : p.isAbsolute = true) (target : Text) :
    (p.join target).isAbsolute = true := by
  rw [isAbsolute, beq_iff_eq] at *
  obtain ⟨t, text⟩ : ∃ t, p.text = '/' :: t := ⟨_, List.eq_cons_of_mem_head? h⟩
  unfold join
  split
  · next replaced =>
    rw [text] at replaced
    simpa using replaced
  · split <;> simp [text]

end IslDocs.Path
