import IslDocs.Proofs.Path.Plain
import Mathlib.Data.List.Induction

/-! The entries of a tree as a finite map. Setting or dropping one location changes nothing else,
and a well-formed tree stays so as long as entries lie in directories and no directory is replaced
or dropped. -/

namespace IslDocs.Tree

variable {t : Tree} {loc l : Location} {node : Node}

@[simp] theorem node?_nil (t : Tree) : t.node? [] = some .directory := rfl

theorem node?_of_ne_nil (h : loc ≠ []) : t.node? loc = t.entries.lookup loc := by
  rw [node?, List.isEmpty_eq_false_iff.2 h, if_neg Bool.false_ne_true]

theorem isDirectoryAt_iff : t.isDirectoryAt loc = true ↔ t.node? loc = some .directory := by
  rw [isDirectoryAt, beq_iff_eq]

theorem ne_nil_of_isDirectoryAt (h : t.isDirectoryAt loc = false) : loc ≠ [] := by
  rintro rfl
  cases h

instance (name : Text) : Decidable (IsName name) :=
  decidable_of_iff
    (name ≠ [] ∧ name ≠ ['.'] ∧ name ≠ ['.', '.'] ∧ '/' ∉ name ∧ '\x00' ∉ name ∧
      Text.byteSize name ≤ maxName)
    ⟨fun ⟨ne_nil, ne_here, ne_up, no_slash, no_nul, size_le⟩ =>
      ⟨ne_nil, ne_here, ne_up, no_slash, no_nul, size_le⟩,
     fun h => ⟨h.ne_nil, h.ne_here, h.ne_up, h.no_slash, h.no_nul, h.size_le⟩⟩

instance (t : Tree) : Decidable t.WellFormed :=
  decidable_of_iff
    ((t.entries.map Prod.fst).Nodup ∧ (∀ entry ∈ t.entries, entry.1 ≠ []) ∧
      (∀ entry ∈ t.entries, ∀ name ∈ entry.1, IsName name) ∧
      (∀ entry ∈ t.entries, t.isDirectoryAt entry.1.dropLast = true) ∧
      t.isDirectoryAt t.workDir = true)
    ⟨fun ⟨nodup, ne_root, names, parent, workDir⟩ => ⟨nodup, ne_root, names, parent, workDir⟩,
     fun h => ⟨h.nodup, h.ne_root, h.names, h.parent, h.workDir⟩⟩

/-! ### Setting and dropping -/

@[simp] theorem lookup_putIn (loc l : Location) (node : Node) (entries : List (Location × Node)) :
    (putIn loc node entries).lookup l = if l = loc then some node else entries.lookup l := by
  induction entries with
  | nil =>
    rw [putIn, List.lookup_cons, List.lookup_nil]
    rcases eq_or_ne l loc with rfl | other
    · simp
    · simp [beq_eq_false_iff_ne.2 other, other]
  | cons entry rest ih =>
    rw [putIn]
    split
    · next same =>
      rw [List.lookup_cons, List.lookup_cons, beq_iff_eq.1 same]
      rcases eq_or_ne l loc with rfl | other
      · simp
      · simp [beq_eq_false_iff_ne.2 other, other]
    · next other =>
      rw [List.lookup_cons, List.lookup_cons, ih]
      rcases eq_or_ne l entry.1 with rfl | apart
      · have : entry.1 ≠ loc := fun h => other (beq_iff_eq.2 h)
        simp [this]
      · simp [beq_eq_false_iff_ne.2 apart]

@[simp] theorem map_fst_putIn (loc : Location) (node : Node) (entries : List (Location × Node)) :
    (putIn loc node entries).map Prod.fst =
      if loc ∈ entries.map Prod.fst then entries.map Prod.fst
      else entries.map Prod.fst ++ [loc] := by
  induction entries with
  | nil => simp [putIn]
  | cons entry rest ih =>
    rw [putIn]
    split
    · next same => simp [beq_iff_eq.1 same]
    · next other =>
      have : loc ≠ entry.1 := fun h => other (beq_iff_eq.2 h.symm)
      simp only [List.map_cons, ih, List.mem_cons, this, false_or]
      split <;> rfl

theorem mem_putIn {entry : Location × Node} {entries : List (Location × Node)}
    (h : entry ∈ putIn loc node entries) : entry = (loc, node) ∨ entry ∈ entries := by
  induction entries with
  | nil => exact Or.inl (List.mem_singleton.1 h)
  | cons first rest ih =>
    rw [putIn] at h
    split at h
    · rcases List.mem_cons.1 h with h | h
      · exact Or.inl h
      · exact Or.inr (List.mem_cons_of_mem _ h)
    · rcases List.mem_cons.1 h with h | h
      · exact Or.inr (h ▸ List.mem_cons_self)
      · exact (ih h).imp_right (List.mem_cons_of_mem _)

@[simp] theorem lookup_drop (loc l : Location) (entries : List (Location × Node)) :
    (entries.filter (·.1 != loc)).lookup l = if l = loc then none else entries.lookup l := by
  induction entries with
  | nil => simp
  | cons entry rest ih =>
    rw [List.filter_cons, List.lookup_cons]
    rcases eq_or_ne entry.1 loc with same | other
    · rcases eq_or_ne l loc with rfl | apart
      · simp [same, ih]
      · simp [same, ih, apart, beq_eq_false_iff_ne.2 apart]
    · rw [if_pos (bne_iff_ne.2 other), List.lookup_cons, ih]
      rcases eq_or_ne l entry.1 with rfl | apart
      · simp [other]
      · simp [beq_eq_false_iff_ne.2 apart]

theorem mem_iff_lookup {entries : List (Location × Node)}
    (nodup : (entries.map Prod.fst).Nodup) :
    (loc, node) ∈ entries ↔ entries.lookup loc = some node := by
  induction entries with
  | nil => simp
  | cons entry rest ih =>
    obtain ⟨absent, nodup⟩ := List.nodup_cons.1 nodup
    rw [List.mem_cons, ih nodup, List.lookup_cons]
    rcases eq_or_ne loc entry.1 with rfl | other
    · have none : rest.lookup entry.1 ≠ some node := fun found =>
        absent (List.mem_map.2 ⟨_, (ih nodup).2 found, rfl⟩)
      rw [beq_self_eq_true]
      simp [none, Prod.ext_iff, eq_comm]
    · have apart : (loc, node) ≠ entry := fun h => other (congrArg Prod.fst h)
      simp [beq_eq_false_iff_ne.2 other, apart]

@[simp] theorem node?_put (hne : loc ≠ []) (l : Location) :
    (t.put loc node).node? l = if l = loc then some node else t.node? l := by
  rcases eq_or_ne l [] with rfl | hl
  · rw [node?_nil, node?_nil, if_neg hne.symm]
  · rw [node?_of_ne_nil hl, node?_of_ne_nil hl]
    exact lookup_putIn loc l node t.entries

@[simp] theorem node?_erase (hne : loc ≠ []) (l : Location) :
    (t.erase loc).node? l = if l = loc then none else t.node? l := by
  rcases eq_or_ne l [] with rfl | hl
  · rw [node?_nil, node?_nil, if_neg hne.symm]
  · rw [node?_of_ne_nil hl, node?_of_ne_nil hl]
    exact lookup_drop loc l t.entries

/-! ### Well-formed trees -/

theorem isDirectoryAt_put (hne : loc ≠ []) (keep : t.isDirectoryAt loc = true → node = .directory)
    (h : t.isDirectoryAt l = true) : (t.put loc node).isDirectoryAt l = true := by
  rw [isDirectoryAt_iff, node?_put hne]
  split
  · next same => rw [keep (same ▸ h)]
  · exact isDirectoryAt_iff.1 h

theorem isDirectoryAt_erase (hne : loc ≠ []) (keep : t.isDirectoryAt loc = false)
    (h : t.isDirectoryAt l = true) : (t.erase loc).isDirectoryAt l = true := by
  rw [isDirectoryAt_iff, node?_erase hne]
  split
  · next same =>
    rw [← same, h] at keep
    exact Bool.noConfusion keep
  · exact isDirectoryAt_iff.1 h

namespace WellFormed

theorem mem_entries (ht : t.WellFormed) (hne : loc ≠ []) :
    (loc, node) ∈ t.entries ↔ t.node? loc = some node := by
  rw [node?_of_ne_nil hne]
  exact mem_iff_lookup ht.nodup

theorem names_of_node? (ht : t.WellFormed) (h : t.node? loc = some node) :
    ∀ name ∈ loc, IsName name := by
  rcases eq_or_ne loc [] with rfl | hne
  · simp
  · exact ht.names _ ((ht.mem_entries hne).2 h)

theorem plain_of_node? (ht : t.WellFormed) (h : t.node? loc = some node) : Path.Plain loc :=
  fun name hn => .of_isName (ht.names_of_node? h name hn)

theorem isDirectoryAt_dropLast (ht : t.WellFormed) (h : t.node? loc = some node) :
    t.isDirectoryAt loc.dropLast = true := by
  rcases eq_or_ne loc [] with rfl | hne
  · rfl
  · exact ht.parent _ ((ht.mem_entries hne).2 h)

theorem put (ht : t.WellFormed) (hne : loc ≠ []) (names : ∀ name ∈ loc, IsName name)
    (parent : t.isDirectoryAt loc.dropLast = true)
    (keep : t.isDirectoryAt loc = true → node = .directory) : (t.put loc node).WellFormed where
  nodup := by
    change ((putIn loc node t.entries).map Prod.fst).Nodup
    rw [map_fst_putIn]
    split
    · exact ht.nodup
    · next absent => exact List.concat_eq_append ▸ ht.nodup.concat absent
  ne_root := by
    intro entry he
    rcases mem_putIn he with rfl | old
    · exact hne
    · exact ht.ne_root entry old
  names := by
    intro entry he
    rcases mem_putIn he with rfl | old
    · exact names
    · exact ht.names entry old
  parent := by
    intro entry he
    refine isDirectoryAt_put hne keep ?_
    rcases mem_putIn he with rfl | old
    · exact parent
    · exact ht.parent entry old
  workDir := isDirectoryAt_put hne keep ht.workDir

theorem erase (ht : t.WellFormed) (hne : loc ≠ []) (keep : t.isDirectoryAt loc = false) :
    (t.erase loc).WellFormed where
  nodup := ht.nodup.sublist (List.filter_sublist.map _)
  ne_root := fun entry he => ht.ne_root entry (List.mem_of_mem_filter he)
  names := fun entry he => ht.names entry (List.mem_of_mem_filter he)
  parent := fun entry he =>
    isDirectoryAt_erase hne keep (ht.parent entry (List.mem_of_mem_filter he))
  workDir := isDirectoryAt_erase hne keep ht.workDir

end WellFormed

/-! ### Files -/

/-- What the file at a location holds, if there is one. -/
def content? (t : Tree) (loc : Location) : Option ByteArray :=
  match t.node? loc with
  | some (.file content) => some content
  | _ => none

theorem content?_eq_some {content : ByteArray} :
    t.content? loc = some content ↔ t.node? loc = some (.file content) := by
  unfold content?
  split <;> simp_all

theorem WellFormed.plain_of_content? (ht : t.WellFormed) {content : ByteArray}
    (h : t.content? loc = some content) : Path.Plain loc :=
  ht.plain_of_node? (content?_eq_some.1 h)

theorem isDirectoryAt_of_content? {content : ByteArray} (h : t.content? loc = some content) :
    t.isDirectoryAt loc = false := by
  simp [isDirectoryAt, content?_eq_some.1 h]

/-- The files at other locations than those of `apart`, in the order of the entries. -/
def filesApart (t : Tree) (apart : List Location) : List (Location × ByteArray) :=
  t.entries.filterMap fun
    | (l, .file content) => if l ∈ apart then none else some (l, content)
    | (_, .directory) => none

theorem WellFormed.mem_filesApart (ht : t.WellFormed) {apart : List Location}
    {content : ByteArray} :
    (loc, content) ∈ t.filesApart apart ↔ loc ∉ apart ∧ t.content? loc = some content := by
  rw [content?_eq_some, filesApart, List.mem_filterMap]
  constructor
  · rintro ⟨⟨l, node⟩, he, found⟩
    cases node with
    | directory => simp at found
    | file c =>
      have hne := ht.ne_root _ he
      simp only at found
      split at found
      · cases found
      · next outside =>
        cases found
        exact ⟨outside, (ht.mem_entries hne).1 he⟩
  · rintro ⟨outside, found⟩
    have hne := ne_nil_of_isDirectoryAt (isDirectoryAt_of_content? (content?_eq_some.2 found))
    exact ⟨(loc, .file content), (ht.mem_entries hne).2 found, by simp [outside]⟩

end IslDocs.Tree
