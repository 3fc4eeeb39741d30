import IslDocs.Proofs.Tree.Location

/-! What the changes of a tree leave as it is. Making directories keeps every file, writing or
removing a file keeps every other one, and no change takes a directory away or moves the working
directory. -/

namespace IslDocs.Tree

open IslDocs.Path (Plain ofLocation)

variable {t t' t'' : Tree} {loc l : Location} {apart wider : List Location} {p : Path}

/-- The second tree is well-formed and has the working directory, the directories and, at other
locations than these, the files of the first. -/
structure Keeps (apart : List Location) (t t' : Tree) : Prop where
  wellFormed : t'.WellFormed
  workDir : t'.workDir = t.workDir
  directories : ∀ l, t.isDirectoryAt l = true → t'.isDirectoryAt l = true
  files : t'.filesApart apart = t.filesApart apart

theorem filesApart_mono (h : apart ⊆ wider) (t : Tree) :
    t.filesApart wider = (t.filesApart apart).filter (·.1 ∉ wider) := by
  rw [filesApart, filesApart, List.filter_filterMap]
  refine List.filterMap_congr fun entry _ => ?_
  obtain ⟨l, node⟩ := entry
  cases node with
  | directory => rfl
  | file content =>
    by_cases inside : l ∈ apart
    · simp [inside, h inside]
    · by_cases far : l ∈ wider <;> simp [inside, far, Option.filter]

namespace Keeps

theorem refl (ht : t.WellFormed) : Keeps apart t t := ⟨ht, rfl, fun _ h => h, rfl⟩

theorem trans (h : Keeps apart t t') (h' : Keeps apart t' t'') : Keeps apart t t'' where
  wellFormed := h'.wellFormed
  workDir := h'.workDir.trans h.workDir
  directories := fun l hl => h'.directories l (h.directories l hl)
  files := h'.files.trans h.files

theorem mono (h : Keeps apart t t') (sub : apart ⊆ wider) : Keeps wider t t' where
  wellFormed := h.wellFormed
  workDir := h.workDir
  directories := h.directories
  files := by rw [filesApart_mono sub, filesApart_mono sub, h.files]

theorem content? (h : Keeps apart t t') (ht : t.WellFormed) (outside : l ∉ apart) :
    t'.content? l = t.content? l := by
  ext content
  have far : (l, content) ∈ t'.filesApart apart ↔ l ∉ apart ∧ t'.content? l = some content :=
    h.wellFormed.mem_filesApart
  have near : (l, content) ∈ t.filesApart apart ↔ l ∉ apart ∧ t.content? l = some content :=
    ht.mem_filesApart
  rw [h.files, near] at far
  simpa [outside] using far.symm

/-- A file elsewhere is read as before. -/
theorem toOption_readText (h : Keeps apart t t') (ht : t.WellFormed) (hp : p.Rooted)
    (outside : p.location ∉ apart) : (t'.readText p).toOption = (t.readText p).toOption := by
  rw [hp.eq_ofLocation]
  exact ht.toOption_readText_congr h.wellFormed hp.plain (h.content? ht outside)

theorem readText_iff (h : Keeps apart t t') (ht : t.WellFormed) (hp : p.Rooted)
    (outside : p.location ∉ apart) {text : Text} :
    t'.readText p = .ok text ↔ t.readText p = .ok text := by
  rw [← toOption_eq_some_iff, h.toOption_readText ht hp outside, toOption_eq_some_iff]

end Keeps

/-! ### One entry -/

theorem filesApart_put_file (t : Tree) (loc : Location) (content : ByteArray) :
    (t.put loc (.file content)).filesApart [loc] = t.filesApart [loc] := by
  change (putIn loc (.file content) t.entries).filterMap _ = t.entries.filterMap _
  induction t.entries with
  | nil => simp [putIn]
  | cons entry rest ih =>
    obtain ⟨l, node⟩ := entry
    rw [putIn]
    split
    · next same =>
      rw [beq_iff_eq] at same
      cases node <;> simp_all
    · rw [List.filterMap_cons, List.filterMap_cons, ih]

theorem filesApart_put_directory (absent : t.entries.lookup loc = none) :
    (t.put loc .directory).filesApart apart = t.filesApart apart := by
  change (putIn loc .directory t.entries).filterMap _ = t.entries.filterMap _
  revert absent
  induction t.entries with
  | nil => simp [putIn]
  | cons entry rest ih =>
    rw [List.lookup_cons, putIn]
    intro absent
    split at absent
    · cases absent
    · next other =>
      have apart : (entry.1 == loc) = false := by
        rw [BEq.comm, other]
      simp only [apart, if_neg Bool.false_ne_true, List.filterMap_cons, ih absent]

theorem filesApart_erase (t : Tree) (loc : Location) :
    (t.erase loc).filesApart [loc] = t.filesApart [loc] := by
  change (t.entries.filter _).filterMap _ = t.entries.filterMap _
  rw [List.filterMap_filter]
  refine List.filterMap_congr fun entry _ => ?_
  obtain ⟨l, node⟩ := entry
  by_cases same : l = loc <;> cases node <;> simp [same]

theorem WellFormed.keeps_put_directory (ht : t.WellFormed) (place : t.HasPlace loc)
    (absent : t.node? loc = none) : Keeps apart t (t.put loc .directory) := by
  have other : t.isDirectoryAt loc = false := by simp [isDirectoryAt, absent]
  obtain ⟨names, hne, parent⟩ := place.resolve_left (by simp [other])
  exact ⟨ht.put hne names parent fun _ => rfl, rfl,
    fun l hl => isDirectoryAt_put hne (fun _ => rfl) hl,
    filesApart_put_directory (by rwa [← node?_of_ne_nil hne])⟩

theorem WellFormed.keeps_put_file (ht : t.WellFormed) (place : t.HasPlace loc)
    (other : t.isDirectoryAt loc = false) (content : ByteArray) :
    Keeps [loc] t (t.put loc (.file content)) := by
  obtain ⟨names, hne, parent⟩ := place.resolve_left (by simp [other])
  have keep : t.isDirectoryAt loc = true → Node.file content = .directory := by simp [other]
  exact ⟨ht.put hne names parent keep, rfl, fun l hl => isDirectoryAt_put hne keep hl,
    filesApart_put_file t loc content⟩

theorem WellFormed.keeps_erase (ht : t.WellFormed) (other : t.isDirectoryAt loc = false) :
    Keeps [loc] t (t.erase loc) :=
  have hne := ne_nil_of_isDirectoryAt other
  ⟨ht.erase hne other, rfl, fun _ hl => isDirectoryAt_erase hne other hl,
    filesApart_erase t loc⟩

/-! ### Directories -/

theorem makeDirectory_eq_ok_iff : t.makeDirectory p = .ok t' ↔
    ∃ loc, t.locate p = .ok loc ∧ t.node? loc = none ∧ t.put loc .directory = t' := by
  rw [makeDirectory, bind_eq_ok_iff]
  refine exists_congr fun loc => and_congr_right fun _ => ?_
  split <;> simp_all

theorem WellFormed.keeps_makeDirectory (ht : t.WellFormed) (h : t.makeDirectory p = .ok t') :
    Keeps apart t t' := by
  obtain ⟨loc, found, absent, rfl⟩ := makeDirectory_eq_ok_iff.1 h
  exact ht.keeps_put_directory (ht.hasPlace_of_locate found) absent

theorem WellFormed.keeps_ensureDirectory (ht : t.WellFormed) (p : Path) :
    Keeps apart t (t.ensureDirectory p).1 := by
  unfold ensureDirectory
  split
  · next made => exact ht.keeps_makeDirectory made
  · split <;> exact .refl ht

theorem WellFormed.keeps_makeMissing (ht : t.WellFormed) (ps : List Path) :
    Keeps apart t (t.makeMissing ps).1 := by
  induction ps with
  | nil => exact .refl ht
  | cons p above ih =>
    unfold makeMissing
    split
    · exact .refl ht
    · split
      · split
        · next made =>
          rw [made] at ih
          exact ih.trans (ih.wellFormed.keeps_ensureDirectory p)
        · next made =>
          rw [made] at ih
          exact ih
      · exact ht.keeps_ensureDirectory p

/-! ### Files -/

theorem write_eq_ok_iff {content : ByteArray} : t.write p content = .ok t' ↔
    ∃ loc, t.locate p = .ok loc ∧ t.isDirectoryAt loc = false ∧
      t.put loc (.file content) = t' := by
  rw [write, bind_eq_ok_iff]
  refine exists_congr fun loc => and_congr_right fun _ => ?_
  split <;> simp_all

theorem removeFile_eq_ok_iff : t.removeFile p = .ok t' ↔
    ∃ loc content, t.locate p = .ok loc ∧ t.content? loc = some content ∧ t.erase loc = t' := by
  rw [removeFile, bind_eq_ok_iff]
  refine exists_congr fun loc => ?_
  rw [exists_and_left]
  refine and_congr_right fun _ => ?_
  simp only [content?_eq_some]
  split <;> simp_all

theorem WellFormed.keeps_write (ht : t.WellFormed) (hp : p.Rooted) {text : Text}
    (h : t.writeText p text = .ok t') : Keeps [p.location] t t' ∧ t'.readText p = .ok text := by
  obtain ⟨loc, plain, rfl⟩ := hp
  rw [Path.location_ofLocation plain]
  obtain ⟨l, found, other, rfl⟩ := write_eq_ok_iff.1 h
  have place := ht.hasPlace_of_locate found
  obtain ⟨rfl, openable, -⟩ := (ht.locate_ofLocation plain).1 found
  obtain ⟨-, hne, -⟩ := place.resolve_left (by simp [other])
  have kept := ht.keeps_put_file place other text.bytes
  refine ⟨kept, (kept.wellFormed.readText_ofLocation plain).2 ⟨openable, text.bytes, ?_,
    Text.ofBytes?_bytes text⟩⟩
  simp [content?_eq_some, hne]

theorem WellFormed.keeps_store (ht : t.WellFormed) (hp : p.Rooted) (text : Text) :
    Keeps [p.location] t (t.storeText p text).1 := by
  have made : Keeps [p.location] t (t.makeDirectories (p.parent?.getD ⟨[]⟩)).1 :=
    ht.keeps_makeMissing _
  unfold storeText store
  split
  · next stopped =>
    rw [stopped] at made
    exact made
  · next done =>
    rw [done] at made
    split
    · next written => exact made.trans (made.wellFormed.keeps_write hp written).1
    · exact made

theorem WellFormed.readText_store (ht : t.WellFormed) (hp : p.Rooted) {text : Text}
    (h : t.storeText p text = (t', .ok ())) : t'.readText p = .ok text := by
  have made : Keeps [p.location] t (t.makeDirectories (p.parent?.getD ⟨[]⟩)).1 :=
    ht.keeps_makeMissing _
  unfold storeText store at h
  split at h
  · cases h
  · next done =>
    rw [done] at made
    split at h
    · next written =>
      cases h
      exact (made.wellFormed.keeps_write hp written).2
    · cases h

/-- Afterwards the file is gone, or it was not one that can be read. -/
theorem WellFormed.keeps_removeIfPossible (ht : t.WellFormed) (hp : p.Rooted) :
    Keeps [p.location] t (t.removeIfPossible p) ∧
      ((t.removeIfPossible p).readText p).toOption = none := by
  obtain ⟨loc, plain, rfl⟩ := hp
  rw [Path.location_ofLocation plain]
  unfold removeIfPossible
  split
  · next removed =>
    obtain ⟨l, content, found, held, rfl⟩ := removeFile_eq_ok_iff.1 removed
    obtain ⟨rfl, -, -⟩ := (ht.locate_ofLocation plain).1 found
    have other := isDirectoryAt_of_content? held
    have kept := ht.keeps_erase other
    refine ⟨kept, Option.eq_none_iff_forall_ne_some.2 fun text h => ?_⟩
    rw [toOption_eq_some_iff, kept.wellFormed.readText_ofLocation plain] at h
    obtain ⟨-, content, still, -⟩ := h
    rw [content?_eq_some, node?_erase (ne_nil_of_isDirectoryAt other), if_pos rfl] at still
    cases still
  · next fault stuck =>
    refine ⟨.refl ht, Option.eq_none_iff_forall_ne_some.2 fun text h => ?_⟩
    rw [toOption_eq_some_iff, readText_eq_ok_iff] at h
    obtain ⟨l, content, found, held, -⟩ := h
    rw [removeFile_eq_ok_iff.2 ⟨l, content, found, held, rfl⟩] at stuck
    cases stuck

end IslDocs.Tree
