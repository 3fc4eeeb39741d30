import IslDocs.Proofs.Path.Above
import IslDocs.Proofs.Tree.Change

/-! What changes of a tree may touch, by the paths they are given and wherever these lead. No
spelling of the paths and no form of the tree is assumed. A path leads to the same place after a
change, as the directories on its way stay, so several changes touch what their paths lead to in the
end. -/

namespace IslDocs.Tree

variable {t t' t'' : Tree} {files dirs files' dirs' : List Path} {loc l : Location} {p : Path}

/-- The second tree has the working directory and the directories of the first. Any file that one of
them does not have as the other has it is where one of `files` leads in the second, and any new
directory is where one of `dirs` leads. -/
structure Confined (files dirs : List Path) (t t' : Tree) : Prop where
  workDir : t'.workDir = t.workDir
  directories : ∀ l, t.isDirectoryAt l = true → t'.isDirectoryAt l = true
  files : ∀ l, t'.content? l ≠ t.content? l → ∃ p ∈ files, t'.locate p = .ok l
  made : ∀ l, t'.isDirectoryAt l = true → t.isDirectoryAt l = true ∨ ∃ p ∈ dirs, t'.locate p = .ok l

/-! ### Where paths lead later on -/

theorem advance_mono (directories : ∀ l, t.isDirectoryAt l = true → t'.isDirectoryAt l = true)
    {s : Step} (h : t.advance loc s = .ok l) : t'.advance loc s = .ok l := by
  have found := isDirectoryAt_iff.1 (advance_eq_ok h)
  have found' := isDirectoryAt_iff.1 (directories loc (advance_eq_ok h))
  unfold advance at *
  rw [found] at h
  rw [found']
  exact h

theorem foldlM_advance_mono
    (directories : ∀ l, t.isDirectoryAt l = true → t'.isDirectoryAt l = true) {steps : List Step}
    (h : steps.foldlM t.advance loc = .ok l) : steps.foldlM t'.advance loc = .ok l := by
  induction steps generalizing loc with
  | nil => exact h
  | cons s rest ih =>
    rw [List.foldlM_cons, bind_eq_ok_iff] at h ⊢
    obtain ⟨next, first, later⟩ := h
    exact ⟨next, advance_mono directories first, ih later⟩

theorem locate_mono (workDir : t'.workDir = t.workDir)
    (directories : ∀ l, t.isDirectoryAt l = true → t'.isDirectoryAt l = true)
    (h : t.locate p = .ok l) : t'.locate p = .ok l := by
  rw [locate_eq_ok_iff] at h ⊢
  obtain ⟨nul, filled, short, found⟩ := h
  rw [workDir]
  exact ⟨nul, filled, short, foldlM_advance_mono directories found⟩

namespace Confined

theorem locate (h : Confined files dirs t t') (found : t.locate p = .ok l) :
    t'.locate p = .ok l := locate_mono h.workDir h.directories found

theorem refl (files dirs : List Path) (t : Tree) : Confined files dirs t t :=
  ⟨rfl, fun _ h => h, fun _ other => absurd rfl other, fun _ h => Or.inl h⟩

theorem trans (h : Confined files dirs t t') (h' : Confined files dirs t' t'') :
    Confined files dirs t t'' where
  workDir := h'.workDir.trans h.workDir
  directories := fun l hl => h'.directories l (h.directories l hl)
  files := by
    intro l other
    by_cases same : t'.content? l = t.content? l
    · exact h'.files l (same ▸ other)
    · obtain ⟨p, hp, found⟩ := h.files l same
      exact ⟨p, hp, h'.locate found⟩
  made := by
    intro l hl
    rcases h'.made l hl with old | new
    · rcases h.made l old with older | ⟨p, hp, found⟩
      · exact Or.inl older
      · exact Or.inr ⟨p, hp, h'.locate found⟩
    · exact Or.inr new

theorem mono (h : Confined files dirs t t') (more : files ⊆ files') (more' : dirs ⊆ dirs') :
    Confined files' dirs' t t' where
  workDir := h.workDir
  directories := h.directories
  files := fun l other => (h.files l other).imp fun _ => And.imp_left (more ·)
  made := fun l hl => (h.made l hl).imp_right fun ⟨p, hp, found⟩ => ⟨p, more' hp, found⟩

end Confined

/-! ### One entry -/

theorem content?_congr (h : t'.node? l = t.node? l) : t'.content? l = t.content? l := by
  rw [content?, content?, h]

theorem isDirectoryAt_congr (h : t'.node? l = t.node? l) :
    t'.isDirectoryAt l = t.isDirectoryAt l := by
  rw [isDirectoryAt, isDirectoryAt, h]

section
variable (found : t.locate p = .ok loc) (workDir : t'.workDir = t.workDir)
  (same : ∀ l, l ≠ loc → t'.node? l = t.node? l)
include found workDir same

theorem confined_of_file (before : t.isDirectoryAt loc = false)
    (after : t'.isDirectoryAt loc = false) : Confined [p] dirs t t' := by
  have alike : ∀ l, t'.isDirectoryAt l = t.isDirectoryAt l := by
    intro l
    rcases eq_or_ne l loc with rfl | other
    · rw [before, after]
    · exact isDirectoryAt_congr (same l other)
  have directories : ∀ l, t.isDirectoryAt l = true → t'.isDirectoryAt l = true := fun l hl =>
    (alike l).trans hl
  refine ⟨workDir, directories, fun l changed => ?_, fun l hl => Or.inl ((alike l).symm.trans hl)⟩
  rcases eq_or_ne l loc with rfl | other
  · exact ⟨p, List.mem_singleton_self p, locate_mono workDir directories found⟩
  · exact absurd (content?_congr (same l other)) changed

theorem confined_of_directory (before : t.node? loc = none)
    (after : t'.node? loc = some .directory) : Confined files [p] t t' := by
  have directories : ∀ l, t.isDirectoryAt l = true → t'.isDirectoryAt l = true := by
    intro l hl
    rcases eq_or_ne l loc with rfl | other
    · exact isDirectoryAt_iff.2 after
    · rwa [isDirectoryAt_congr (same l other)]
  refine ⟨workDir, directories, fun l changed => ?_, fun l hl => ?_⟩
  · rcases eq_or_ne l loc with rfl | other
    · simp [content?, before, after] at changed
    · exact absurd (content?_congr (same l other)) changed
  · rcases eq_or_ne l loc with rfl | other
    · exact Or.inr ⟨p, List.mem_singleton_self p, locate_mono workDir directories found⟩
    · exact Or.inl (isDirectoryAt_congr (same l other) ▸ hl)

end

theorem confined_write {content : ByteArray} (h : t.write p content = .ok t') :
    Confined [p] dirs t t' := by
  obtain ⟨loc, found, other, rfl⟩ := write_eq_ok_iff.1 h
  have hne := ne_nil_of_isDirectoryAt other
  refine confined_of_file found rfl (fun l apart => ?_) other ?_
  · simp [hne, apart]
  · simp [isDirectoryAt, hne]

theorem confined_removeIfPossible (t : Tree) (p : Path) :
    Confined [p] dirs t (t.removeIfPossible p) := by
  unfold removeIfPossible
  split
  · next removed =>
    obtain ⟨loc, content, found, held, rfl⟩ := removeFile_eq_ok_iff.1 removed
    have other := isDirectoryAt_of_content? held
    have hne := ne_nil_of_isDirectoryAt other
    refine confined_of_file found rfl (fun l apart => ?_) other ?_
    · simp [hne, apart]
    · simp [isDirectoryAt, hne]
  · exact .refl _ _ t

/-! ### Directories on the way -/

theorem confined_makeDirectory (h : t.makeDirectory p = .ok t') : Confined files [p] t t' := by
  obtain ⟨loc, found, absent, rfl⟩ := makeDirectory_eq_ok_iff.1 h
  have other : t.isDirectoryAt loc = false := by simp [isDirectoryAt, absent]
  have hne := ne_nil_of_isDirectoryAt other
  refine confined_of_directory found rfl (fun l apart => ?_) absent ?_
  · simp [hne, apart]
  · simp [hne]

theorem confined_ensureDirectory (t : Tree) (p : Path) :
    Confined files [p] t (t.ensureDirectory p).1 := by
  unfold ensureDirectory
  split
  · next made => exact confined_makeDirectory made
  · split <;> exact .refl _ _ t

theorem confined_makeMissing (t : Tree) (ps : List Path) :
    Confined files ps t (t.makeMissing ps).1 := by
  induction ps with
  | nil => exact .refl _ _ t
  | cons p above ih =>
    have first : ∀ u : Tree, Confined files (p :: above) u (u.ensureDirectory p).1 := fun u =>
      (confined_ensureDirectory u p).mono (List.Subset.refl _) (by simp)
    have rest := ih.mono (List.Subset.refl _) (List.subset_cons_self p above)
    unfold makeMissing
    split
    · exact .refl _ _ t
    · split
      · split
        · next made =>
          rw [made] at rest
          exact rest.trans (first _)
        · next made =>
          rw [made] at rest
          exact rest
      · exact first t

theorem confined_storeText (t : Tree) (p : Path) (text : Text) :
    Confined [p] p.above t (t.storeText p text).1 := by
  have made : Confined [p] p.above t (t.makeDirectories (p.parent?.getD ⟨[]⟩)).1 := by
    rw [Path.above]
    cases p.parent? with
    | none => exact .refl _ _ t
    | some parent => exact confined_makeMissing t parent.ancestors
  unfold storeText store
  split
  · next stopped =>
    rw [stopped] at made
    exact made
  · next done =>
    rw [done] at made
    split
    · next written => exact made.trans (confined_write written)
    · exact made

end IslDocs.Tree
