import IslDocs.Proofs.Tree.Change

/-! Changes made once more. A file that already reads as what is written to it leaves the tree
exactly as it is, and so does the removal of a file that has been removed. A file is also read with
the same fault as long as its content stays. -/

namespace IslDocs

theorem Text.bytes_of_ofBytes? {b : ByteArray} {text : Text} (h : ofBytes? b = some text) :
    text.bytes = b := by
  unfold ofBytes? String.fromUTF8? at h
  split at h
  · next valid =>
    rw [Option.map_some, Option.some.injEq] at h
    rw [← h, bytes, String.ofList_toList]
    rfl
  · cases h

theorem Text.byteSize_le_of_prefix {s t : Text} (h : s <+: t) : byteSize s ≤ byteSize t := by
  have grows : ∀ (rest : Text) (size : Nat),
      size ≤ rest.foldl (fun size c => size + c.utf8Size) size := by
    intro rest
    induction rest with
    | nil => exact Nat.le_refl
    | cons c rest ih => exact fun _ => Nat.le_trans (Nat.le_add_right _ _) (ih _)
  obtain ⟨rest, rfl⟩ := h
  rw [byteSize, byteSize, List.foldl_append]
  exact grows rest _

namespace Tree

open IslDocs.Path (Plain ofLocation)

variable {t t' : Tree} {loc : Location} {apart : List Location} {p : Path} {text : Text}
  {content : ByteArray} {node : Node}

/-! ### Writing -/

theorem putIn_of_lookup {entries : List (Location × Node)} (held : entries.lookup loc = some node) :
    putIn loc node entries = entries := by
  induction entries with
  | nil => cases held
  | cons entry rest ih =>
    obtain ⟨l, other⟩ := entry
    rw [List.lookup_cons] at held
    rw [putIn]
    rcases eq_or_ne l loc with rfl | apart
    · rw [beq_self_eq_true, Option.some.injEq] at held
      rw [if_pos (beq_self_eq_true _), held]
    · rw [beq_eq_false_iff_ne.2 apart.symm] at held
      rw [if_neg (by simpa using apart), ih held]

theorem put_of_node? (hne : loc ≠ []) (held : t.node? loc = some node) : t.put loc node = t := by
  rw [node?_of_ne_nil hne] at held
  rw [put, putIn_of_lookup held]

theorem writeText_of_readText (h : t.readText p = .ok text) : t.writeText p text = .ok t := by
  obtain ⟨loc, content, found, held, decoded⟩ := readText_eq_ok_iff.1 h
  rw [content?_eq_some] at held
  have hne : loc ≠ [] := by
    rintro rfl
    cases held
  refine write_eq_ok_iff.2 ⟨loc, found, by simp [isDirectoryAt, held], ?_⟩
  rw [Text.bytes_of_ofBytes? decoded]
  exact put_of_node? hne held

theorem text_ofLocation_prefix (loc : Location) (name : Text) :
    (ofLocation loc).text <+: (ofLocation (loc ++ [name])).text := by
  rw [Path.text_ofLocation, Path.text_ofLocation]
  refine (List.prefix_cons_inj '/').2 ?_
  rcases eq_or_ne loc [] with rfl | hne
  · exact List.nil_prefix
  · rw [Path.joined_append hne (List.cons_ne_nil _ _)]
    exact List.prefix_append _ _

theorem Openable.left {name : Text} (h : Openable (loc ++ [name])) : Openable loc :=
  have part := text_ofLocation_prefix loc name
  ⟨fun nul => h.1 (part.subset nul), Nat.le_trans (Text.byteSize_le_of_prefix part) h.2.1,
    fun n hn => h.2.2 n (List.mem_append_left _ hn)⟩

/-- Making a directory that is there changes nothing. -/
theorem WellFormed.makeDirectories_of_isDirectoryAt (ht : t.WellFormed) (plain : Plain loc)
    (openable : Openable loc) (held : t.isDirectoryAt loc = true) :
    t.makeDirectories (ofLocation loc) = (t, .ok ()) := by
  have found : t.locate (ofLocation loc) = .ok loc :=
    (ht.locate_ofLocation plain).2
      ⟨rfl, openable, ht.isDirectoryAt_dropLast (isDirectoryAt_iff.1 held)⟩
  have there : t.makeDirectory (ofLocation loc) = .error .alreadyExists := by
    simp [makeDirectory, found, isDirectoryAt_iff.1 held, bind, Except.bind]
  have ensured : t.ensureDirectory (ofLocation loc) = (t, .ok ()) := by
    simp [ensureDirectory, there, isDirectory, at?, found, isDirectoryAt_iff.1 held]
  obtain ⟨above, ancestors⟩ : ∃ above, (ofLocation loc).ancestors = ofLocation loc :: above := by
    rw [Path.ancestors]
    cases (ofLocation loc).text.length <;> exact ⟨_, rfl⟩
  rw [makeDirectories, ancestors, makeMissing, there, if_neg (by simp [Path.text_ofLocation])]
  exact ensured

theorem WellFormed.storeText_of_readText (ht : t.WellFormed) (hp : p.Rooted)
    (h : t.readText p = .ok text) : t.storeText p text = (t, .ok ()) := by
  obtain ⟨loc, plain, rfl⟩ := hp
  obtain ⟨openable, content, held, -⟩ := (ht.readText_ofLocation plain).1 h
  rw [content?_eq_some] at held
  rcases List.eq_nil_or_concat' loc with rfl | ⟨above, name, rfl⟩
  · cases held
  have directory := ht.isDirectoryAt_dropLast held
  rw [List.dropLast_concat] at directory
  have made := ht.makeDirectories_of_isDirectoryAt plain.left openable.left directory
  have written : t.write (ofLocation (above ++ [name])) text.bytes = .ok t :=
    writeText_of_readText h
  simp [storeText, store, Path.parent?_ofLocation plain, made, written]

/-! ### Removing -/

theorem WellFormed.removable_iff (ht : t.WellFormed) (plain : Plain loc) :
    (∃ t', t.removeFile (ofLocation loc) = .ok t') ↔
      Openable loc ∧ ∃ content, t.content? loc = some content := by
  constructor
  · rintro ⟨t', removed⟩
    obtain ⟨l, content, found, held, -⟩ := removeFile_eq_ok_iff.1 removed
    obtain ⟨rfl, openable, -⟩ := (ht.locate_ofLocation plain).1 found
    exact ⟨openable, content, held⟩
  · rintro ⟨openable, content, held⟩
    have above := ht.isDirectoryAt_dropLast (content?_eq_some.1 held)
    exact ⟨_, removeFile_eq_ok_iff.2
      ⟨loc, content, (ht.locate_ofLocation plain).2 ⟨rfl, openable, above⟩, held, rfl⟩⟩

theorem removeIfPossible_of_not (h : ¬ ∃ t', t.removeFile p = .ok t') :
    t.removeIfPossible p = t := by
  unfold removeIfPossible
  split
  · next removed => exact absurd ⟨_, removed⟩ h
  · rfl

theorem WellFormed.not_removable (ht : t.WellFormed) (plain : Plain loc) :
    ¬ ∃ t', (t.removeIfPossible (ofLocation loc)).removeFile (ofLocation loc) = .ok t' := by
  unfold removeIfPossible
  split
  · next removed =>
    obtain ⟨l, content, found, held, rfl⟩ := removeFile_eq_ok_iff.1 removed
    obtain ⟨rfl, -, -⟩ := (ht.locate_ofLocation plain).1 found
    have other := isDirectoryAt_of_content? held
    have kept := ht.keeps_erase other
    rw [kept.wellFormed.removable_iff plain]
    rintro ⟨-, content, still⟩
    rw [content?_eq_some, node?_erase (ne_nil_of_isDirectoryAt other), if_pos rfl] at still
    cases still
  · next fault stuck =>
    rintro ⟨t', removed⟩
    rw [removed] at stuck
    cases stuck

/-- What has been removed cannot be removed again after changes elsewhere. -/
theorem Keeps.removeIfPossible_eq (ht : t.WellFormed) (hp : p.Rooted)
    (kept : Keeps apart (t.removeIfPossible p) t') (outside : p.location ∉ apart) :
    t'.removeIfPossible p = t' := by
  have removed := (ht.keeps_removeIfPossible hp).1.wellFormed
  obtain ⟨loc, plain, rfl⟩ := hp
  rw [Path.location_ofLocation plain] at outside
  have gone := ht.not_removable plain
  rw [removed.removable_iff plain, ← kept.content? removed outside,
    ← kept.wellFormed.removable_iff plain] at gone
  exact removeIfPossible_of_not gone

/-! ### Reading with a fault -/

theorem WellFormed.locate_of_content? (ht : t.WellFormed) (held : t.content? loc = some content) :
    t.locate (ofLocation loc) =
      if '\x00' ∈ (ofLocation loc).text then .error .nulCharacter
      else if maxPath < Text.byteSize (ofLocation loc).text then .error .nameTooLong
      else .ok loc := by
  rw [content?_eq_some] at held
  have names := ht.names_of_node? held
  rw [locate_ofLocation_eq (ht.plain_of_node? held)]
  refine if_congr Iff.rfl rfl (if_congr Iff.rfl rfl (ht.foldlM_down.2 ⟨rfl, ?_, fun _ => ?_⟩))
  · exact fun name hn => (names name hn).size_le
  · exact ht.isDirectoryAt_dropLast held

theorem WellFormed.readText_congr (ht : t.WellFormed) (ht' : t'.WellFormed)
    (held : t.content? loc = some content) (held' : t'.content? loc = some content) :
    t'.readText (ofLocation loc) = t.readText (ofLocation loc) := by
  have located : t'.locate (ofLocation loc) = t.locate (ofLocation loc) := by
    rw [ht.locate_of_content? held, ht'.locate_of_content? held']
  have same : t'.node? loc = t.node? loc := by
    rw [content?_eq_some] at held held'
    rw [held, held']
  have read : t'.read (ofLocation loc) = t.read (ofLocation loc) := by
    rw [Tree.read, Tree.read, located, ht.locate_of_content? held]
    split
    · rfl
    · split
      · rfl
      · simp only [bind, Except.bind, same]
  rw [readText, readText, read]

end Tree
end IslDocs
