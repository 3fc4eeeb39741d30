import IslDocs.Proofs.Project.Rebuild
import IslDocs.Proofs.Tree.Confined

/-! What a build touches, for any configuration and however it ends: the artifacts of the documents,
the manifest, and directories above these. Nothing is assumed of the output, so the places are given
by the paths and where they lead. When the output consists of plain names, they are known to be at
different places and, without a backslash, at none of the documents'. -/

namespace IslDocs

open IslDocs.Tree (Confined)
open Project (discover)

variable {t : Tree} {root d p : Path} {config : Config} {plan : Plan} {s : Build.Progress}

namespace Plan

/-- The files that a build writes or removes. -/
def outputs (plan : Plan) : List Path :=
  plan.manifestPath :: plan.order.flatMap fun d =>
    [(plan.artifactPaths d).interface, (plan.artifactPaths d).build]

/-- The directories that a build makes if they are not there. -/
def directories (plan : Plan) : List Path := plan.outputs.flatMap Path.above

theorem artifactPaths_subset (hd : d ∈ plan.order) :
    [(plan.artifactPaths d).interface, (plan.artifactPaths d).build] ⊆ plan.outputs :=
  fun _ hp => List.mem_cons_of_mem _ (List.mem_flatMap.2 ⟨d, hd, hp⟩)

theorem above_subset (hp : p ∈ plan.outputs) : p.above ⊆ plan.directories :=
  fun _ hq => List.mem_flatMap.2 ⟨p, hp, hq⟩

/-- There is no plan without documents, and none if they refer to each other in a loop. -/
theorem make_eq_error {failure : Failure} (h : make t root config = .error failure) :
    failure = .noDocuments root config.suffix ∨ ∃ chain, failure = .dependencyCycle chain := by
  unfold make at h
  simp only at h
  split at h
  · cases h
    exact Or.inl rfl
  · split at h
    · next chain _ =>
      cases h
      exact Or.inr ⟨chain, rfl⟩
    · cases h

end Plan

namespace Build

/-! ### One document -/

theorem confined_writeArtifacts (t : Tree) (r : Rendered) :
    Confined [r.paths.interface, r.paths.build] r.paths.interface.above t
      (writeArtifacts t r).1 := by
  have one : [r.paths.interface] ⊆ [r.paths.interface, r.paths.build] := by simp
  have two : [r.paths.build] ⊆ [r.paths.interface, r.paths.build] := by simp
  have first := (Tree.confined_storeText t r.paths.interface r.interface).mono one
    (List.Subset.refl _)
  unfold writeArtifacts
  split
  · next stopped =>
    rw [stopped] at first
    exact first
  · next stored =>
    rw [stored] at first
    split
    · next written =>
      exact first.trans ((Tree.confined_write written).mono two (List.Subset.refl _))
    · exact first

theorem confined_fail (plan : Plan) (s : Progress) (hd : d ∈ plan.order) (t : Tree)
    (fault : Fault) : Confined plan.outputs plan.directories t (fail plan s d t fault).tree :=
  (Tree.confined_removeIfPossible t _).mono
    (fun _ hp => Plan.artifactPaths_subset hd (by simp [List.mem_singleton.1 hp]))
    (List.Subset.refl _)

theorem confined_step (hd : d ∈ plan.order) (s : Progress) :
    Confined plan.outputs plan.directories s.tree (step plan s d).tree := by
  have inside := Plan.artifactPaths_subset hd
  unfold step
  split
  · next fault _ => exact confined_fail plan s hd s.tree fault
  · next r rendered =>
    obtain ⟨content, -, rfl⟩ := Plan.render_eq_ok rendered
    have written := (confined_writeArtifacts s.tree
      (plan.renderContent d (storedInterface plan s.tree) content)).mono inside
      (Plan.above_subset (inside (List.mem_cons_self)))
    split
    · next ok =>
      rw [ok] at written
      exact written
    · next fault stopped =>
      rw [stopped] at written
      exact written.trans (confined_fail plan s hd _ fault)

/-! ### The whole build -/

theorem confined_foldl {ds : List Path} (all : ds ⊆ plan.order) (s : Progress) :
    Confined plan.outputs plan.directories s.tree (ds.foldl (step plan) s).tree := by
  induction ds generalizing s with
  | nil => exact .refl _ _ s.tree
  | cons d rest ih =>
    obtain ⟨hd, later⟩ := List.cons_subset.1 all
    exact (confined_step hd s).trans (ih later (step plan s d))

end Build

theorem confined_build (h : Plan.make t root config = .ok plan) :
    Confined plan.outputs plan.directories t (build t root config).1 := by
  have ran : Confined plan.outputs plan.directories t (Build.run plan t).tree :=
    Build.confined_foldl (List.Subset.refl _) (Build.start t)
  have manifest : plan.manifestPath ∈ plan.outputs := List.mem_cons_self
  rw [build_fst h]
  exact ran.trans ((Tree.confined_storeText _ _ _).mono
    (List.cons_subset.2 ⟨manifest, List.nil_subset _⟩) (Plan.above_subset manifest))

theorem content?_document_after (ht : t.WellFormed) (h : Plan.make t root config = .ok plan)
    (output : config.PlainOutput) (hd : d ∈ discover t root config)
    (spared : '\\' ∉ config.output ∨ d.location ∉ plan.written) :
    ∃ content, t.content? d.location = some content ∧
      (build t root config).1.content? d.location = some content := by
  have placed := Plan.placed ht h output
  have recorded := Build.recorded_run (Plan.ordered ht h) placed ht
  have outside : d.location ∉ plan.written := spared.elim
    (fun clear => Plan.spares_documents ht h output clear ht rfl d hd) id
  obtain ⟨content, held⟩ := Plan.content?_document ht h ((Plan.mem_order ht h).2 hd)
  exact ⟨content, held, ((recorded.keeps_written placed h).content? ht outside).trans held⟩

/-- Without a plan, a build changes nothing. With one, however it ends, each file that is not as
before is where an artifact of a document or the manifest belongs, each new directory is where some
beginning of such a path leads, and no directory is gone. When the output consists of plain names,
documents keep their bytes, but for those in whose place the build writes; this takes a backslash in
the output. -/
theorem build_touches_outputs (ht : t.WellFormed) (root : Path) (config : Config) :
    match Plan.make t root config with
    | .error failure =>
      build t root config = (t, .error failure) ∧
        (failure = .noDocuments root config.suffix ∨ ∃ chain, failure = .dependencyCycle chain)
    | .ok plan =>
      let after := (build t root config).1
      (∀ l, after.content? l ≠ t.content? l → ∃ p ∈ plan.outputs, after.locate p = .ok l) ∧
      (∀ l, after.isDirectoryAt l = true → t.isDirectoryAt l = true ∨ ∃ p ∈ plan.outputs,
        ∃ q more, more ≠ [] ∧ p.parts = q.parts ++ more ∧ after.locate q = .ok l) ∧
      (∀ l, t.isDirectoryAt l = true → after.isDirectoryAt l = true) ∧
      after.workDir = t.workDir ∧
      (config.PlainOutput → ∀ d ∈ discover t root config,
        '\\' ∉ config.output ∨ d.location ∉ plan.written →
        ∃ content, t.content? d.location = some content ∧
          after.content? d.location = some content) := by
  cases h : Plan.make t root config with
  | error failure => exact ⟨by rw [build, h], Plan.make_eq_error h⟩
  | ok plan =>
    have confined := confined_build h
    refine ⟨confined.files, fun l hl => ?_, confined.directories, confined.workDir,
      fun output d hd spared => content?_document_after ht h output hd spared⟩
    refine (confined.made l hl).imp_right fun reached => ?_
    obtain ⟨q, hq, found⟩ := reached
    obtain ⟨p, hp, hq⟩ := List.mem_flatMap.1 hq
    obtain ⟨more, any, parts⟩ := Path.parts_of_mem_above hq
    exact ⟨p, hp, q, more, any, parts, found⟩

/-- The interface left from an earlier build is taken away, as its document cannot be read. -/
theorem leftover_touches_outputs :
    let after := (build leftover ⟨".".toList⟩ .default).1
    after.content? ["build".toList, "a.ref.md".toList] = none ∧
      (∀ l, after.content? l ≠ leftover.content? l →
        ∃ p ∈ leftoverPlan.outputs, after.locate p = .ok l) ∧
      ∀ d ∈ discover leftover ⟨".".toList⟩ .default, ∃ content,
        leftover.content? d.location = some content ∧
          after.content? d.location = some content := by
  have touched := build_touches_outputs wellFormed_leftover ⟨".".toList⟩ .default
  rw [make_leftover] at touched
  obtain ⟨files, -, -, -, documents⟩ := touched
  refine ⟨?_, files, fun d hd => documents (by decide) d hd (Or.inl (by decide))⟩
  rw [build, make_leftover]
  decide +kernel

/-- The interface that the scan takes for a document is written over. -/
theorem buried_document_overwritten : crossedConfig.PlainOutput ∧
    ∃ d ∈ discover buried ⟨".".toList⟩ crossedConfig,
      (build buried ⟨".".toList⟩ crossedConfig).1.content? d.location ≠
        buried.content? d.location := by
  refine ⟨by decide, ⟨"/o\\o/x.ref.md".toList⟩, ?_, ?_⟩
  · rw [discover_buried]
    exact List.mem_cons_self
  · rw [build, make_buried]
    decide +kernel

end IslDocs
