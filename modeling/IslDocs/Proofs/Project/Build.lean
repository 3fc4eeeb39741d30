import IslDocs.Project.Build
import IslDocs.Proofs.Manifest.Lookup
import IslDocs.Proofs.Project.Render

/-! The run of a build. A step changes nothing but the two artifacts of its document: either both
are written and the document is listed, or its interface can no longer be read. So once documents
have been processed, the interfaces on disk are those of the listed ones, made from the texts that
were there when the build began. -/

namespace IslDocs.Build

open IslDocs.Tree (Keeps)

variable {plan : Plan} {t : Tree} {s s' : Progress} {d p : Path} {content : Text}

/-! ### One step -/

/-- Both artifacts of the document have been written. -/
structure Succeeds (plan : Plan) (d : Path) (content : Text) (s s' : Progress) : Prop where
  read : s.tree.readText d = .ok content
  failures : s'.failures = s.failures
  manifest : s'.manifest =
    s.manifest.push (plan.renderContent d (storedInterface plan s.tree) content).entry
  interface : storedInterface plan s'.tree d = some (Interface.project d.fileName content)
  build : s'.tree.readText (plan.artifactPaths d).build =
    .ok (plan.renderContent d (storedInterface plan s.tree) content).context

/-- The document has no interface any more. -/
structure Fails (plan : Plan) (d : Path) (s s' : Progress) : Prop where
  failures : s'.failures.map BuildFailure.source =
    s.failures.map BuildFailure.source ++ [plan.relative d]
  manifest : s'.manifest = s.manifest
  interface : storedInterface plan s'.tree d = none

theorem fails_fail (s : Progress) {t : Tree} (ht : t.WellFormed)
    (hi : (plan.artifactPaths d).interface.Rooted) (fault : Fault) :
    Keeps [(plan.artifactPaths d).interface.location] t (fail plan s d t fault).tree ∧
      Fails plan d s (fail plan s d t fault) := by
  obtain ⟨kept, gone⟩ := ht.keeps_removeIfPossible hi
  exact ⟨kept, by simp [fail], rfl, gone⟩

theorem writeArtifacts_spec (ht : t.WellFormed) {r : Rendered} (hi : r.paths.interface.Rooted)
    (hb : r.paths.build.Rooted) (pair : r.paths.interface.location ≠ r.paths.build.location) :
    Keeps [r.paths.interface.location, r.paths.build.location] t (writeArtifacts t r).1 ∧
      ∀ t', writeArtifacts t r = (t', .ok ()) →
        t'.readText r.paths.interface = .ok r.interface ∧
          t'.readText r.paths.build = .ok r.context := by
  have first := ht.keeps_store hi r.interface
  have one : [r.paths.interface.location] ⊆
      [r.paths.interface.location, r.paths.build.location] := by simp
  have two : [r.paths.build.location] ⊆
      [r.paths.interface.location, r.paths.build.location] := by simp
  unfold writeArtifacts
  split
  · next stopped =>
    rw [stopped] at first
    exact ⟨first.mono one, by simp⟩
  · next stored =>
    rw [stored] at first
    have interface := ht.readText_store hi stored
    split
    · next written =>
      obtain ⟨second, build⟩ := first.wellFormed.keeps_write hb written
      refine ⟨(first.mono one).trans (second.mono two), fun t' h => ?_⟩
      cases h
      refine ⟨(second.readText_iff first.wellFormed hi ?_).2 interface, build⟩
      simpa using pair
    · exact ⟨first.mono one, by simp⟩

/-- What a step does to its document, and that it leaves everything else alone. -/
theorem step_spec (hs : s.tree.WellFormed) (hi : (plan.artifactPaths d).interface.Rooted)
    (hb : (plan.artifactPaths d).build.Rooted)
    (pair : (plan.artifactPaths d).interface.location ≠ (plan.artifactPaths d).build.location) :
    Keeps (plan.artifacts d) s.tree (step plan s d).tree ∧
      ((∃ content, Succeeds plan d content s (step plan s d)) ∨
        Fails plan d s (step plan s d)) := by
  have sub : [(plan.artifactPaths d).interface.location] ⊆ plan.artifacts d := by
    simp [Plan.artifacts]
  unfold step
  split
  · next fault stopped =>
    obtain ⟨kept, failed⟩ := fails_fail s hs hi fault
    exact ⟨kept.mono sub, Or.inr failed⟩
  · next r rendered =>
    obtain ⟨content, read, rfl⟩ := Plan.render_eq_ok rendered
    obtain ⟨kept, written⟩ := writeArtifacts_spec hs
      (r := plan.renderContent d (storedInterface plan s.tree) content) hi hb pair
    split
    · next ok =>
      obtain ⟨interface, build⟩ := written _ ok
      rw [ok] at kept
      exact ⟨kept, Or.inl ⟨content, read, rfl, rfl, congrArg Except.toOption interface, build⟩⟩
    · next fault stopped =>
      rw [stopped] at kept
      obtain ⟨removed, failed⟩ := fails_fail s kept.wellFormed hi fault
      exact ⟨kept.trans (removed.mono sub), Or.inr failed⟩

theorem Succeeds.entry (success : Succeeds plan d content s s') (source : Text) :
    s'.manifest.entry? source = if source = plan.relative d then
      some (plan.renderContent d (storedInterface plan s.tree) content).entry
      else s.manifest.entry? source := by
  rw [success.manifest]
  exact Manifest.lookup_push _ _ source

section
variable (success : Succeeds plan d content s s') (new : plan.relative d ∉ s.manifest.sources)
include success new

theorem Succeeds.sources : s'.manifest.sources = s.manifest.sources ++ [plan.relative d] := by
  rw [success.manifest]
  exact Manifest.sources_push_of_new new

theorem Succeeds.mem_sources_iff {source : Text} (other : source ≠ plan.relative d) :
    source ∈ s'.manifest.sources ↔ source ∈ s.manifest.sources := by
  simp [success.sources new, other]

end

/-! ### Listed or failed -/

/-- Each document so far is listed or has failed, in the order in which they were processed. -/
structure Accounted (plan : Plan) (done : List Path) (s : Progress) : Prop where
  sources : s.manifest.sources.Sublist (done.map plan.relative)
  failures : s.failures.map BuildFailure.source =
    (done.map plan.relative).filter (· ∉ s.manifest.sources)

theorem accounted_start (plan : Plan) (t : Tree) : Accounted plan [] (start t) :=
  ⟨List.Sublist.refl _, rfl⟩

section
variable {done after : List Path} (ordered : plan.Ordered t)
  (split : plan.order = done ++ d :: after) (h : Accounted plan done s)
include ordered split

theorem relative_ne (hp : p ∈ done) : plan.relative p ≠ plan.relative d := fun same =>
  ordered.ne_of_split split hp (ordered.source p (by simp [split, hp]) d (by simp [split]) same)

include h

theorem Accounted.new_source : plan.relative d ∉ s.manifest.sources := by
  intro old
  obtain ⟨p, hp, same⟩ := List.mem_map.1 (h.sources.subset old)
  exact relative_ne ordered split hp same

theorem Accounted.fails (failed : Fails plan d s s') : Accounted plan (done ++ [d]) s' where
  sources := by
    rw [failed.manifest, List.map_append]
    exact h.sources.trans (List.sublist_append_left _ _)
  failures := by
    rw [failed.failures, failed.manifest, h.failures]
    simp [h.new_source ordered split]

theorem Accounted.succeeds (success : Succeeds plan d content s s') :
    Accounted plan (done ++ [d]) s' := by
  have new := h.new_source ordered split
  have sources := success.sources new
  constructor
  · rw [sources, List.map_append]
    exact h.sources.append (List.Sublist.refl _)
  · rw [success.failures, h.failures, List.map_append, List.filter_append]
    have last : ([d].map plan.relative).filter (· ∉ s'.manifest.sources) = [] := by
      simp [sources]
    rw [last, List.append_nil]
    refine List.filter_congr fun source hs => ?_
    obtain ⟨p, hp, rfl⟩ := List.mem_map.1 hs
    simp only [success.mem_sources_iff new (relative_ne ordered split hp)]

end

/-- In all, each document is listed once or has failed once. -/
theorem Accounted.perm (h : Accounted plan plan.order s) (ordered : plan.Ordered t) :
    (s.manifest.sources ++ s.failures.map BuildFailure.source).Perm
      (plan.order.map plan.relative) := by
  have nodup := ordered.nodup_relative
  have apart : s.manifest.sources.Disjoint (s.failures.map BuildFailure.source) := by
    intro source listed failed
    rw [h.failures] at failed
    exact of_decide_eq_true (List.mem_filter.1 failed).2 listed
  refine (List.perm_ext_iff_of_nodup ((nodup.sublist h.sources).append ?_ apart) nodup).2 ?_
  · rw [h.failures]
    exact nodup.filter _
  · intro source
    rw [List.mem_append, h.failures, List.mem_filter, decide_eq_true_eq]
    have := h.sources.subset (a := source)
    tauto

/-! ### The whole run -/

/-- How things stand once documents have been processed. -/
structure Processed (plan : Plan) (t : Tree) (done : List Path) (s : Progress) : Prop where
  keeps : Keeps (done.flatMap plan.artifacts) t s.tree
  sources : s.manifest.sources.Sublist (done.map plan.relative)
  failures : s.failures.map BuildFailure.source =
    (done.map plan.relative).filter (· ∉ s.manifest.sources)
  interface : ∀ p ∈ done, storedInterface plan s.tree p = plan.listedInterface t s.manifest p
  listed : ∀ p ∈ done, plan.relative p ∈ s.manifest.sources → ∃ content,
    t.readText p = .ok content ∧
      s.manifest.entry? (plan.relative p) =
        some (plan.renderContent p (plan.listedInterface t s.manifest) content).entry ∧
      s.tree.readText (plan.artifactPaths p).build =
        .ok (plan.renderContent p (plan.listedInterface t s.manifest) content).context

theorem Processed.mem_failures {done : List Path} (h : Processed plan t done s) (hp : p ∈ done) :
    plan.relative p ∈ s.failures.map BuildFailure.source ↔
      plan.relative p ∉ s.manifest.sources := by
  rw [h.failures, List.mem_filter, decide_eq_true_eq]
  exact and_iff_right (List.mem_map_of_mem hp)

theorem Processed.accounted {done : List Path} (h : Processed plan t done s) :
    Accounted plan done s := ⟨h.sources, h.failures⟩

theorem processed_start (ht : t.WellFormed) : Processed plan t [] (start t) where
  keeps := .refl ht
  sources := List.Sublist.refl _
  failures := rfl
  interface := by simp
  listed := by simp

section
variable {done after : List Path} (laid : plan.Laid t) (split : plan.order = done ++ d :: after)
  (h : Processed plan t done s)
include laid split h

/-- What a step writes leaves the artifacts of earlier documents as they are. -/
theorem Processed.kept (kept : Keeps (plan.artifacts d) s.tree s'.tree) :
    Keeps ((done ++ [d]).flatMap plan.artifacts) t s'.tree ∧
      (∀ p ∈ done, storedInterface plan s'.tree p = storedInterface plan s.tree p) ∧
      ∀ p ∈ done, ∀ text, s.tree.readText (plan.artifactPaths p).build = .ok text →
        s'.tree.readText (plan.artifactPaths p).build = .ok text := by
  have outside : ∀ p ∈ done, ∀ l ∈ plan.artifacts p, l ∉ plan.artifacts d := fun p hp _ hl =>
    laid.apart p (by simp [split, hp]) d (by simp [split]) (laid.ne_of_split split hp) hl
  have listed : ∀ p ∈ done, p ∈ plan.order := fun p hp => by simp [split, hp]
  refine ⟨?_, fun p hp => ?_, fun p hp text read => ?_⟩
  · rw [List.flatMap_append, List.flatMap_singleton]
    exact (h.keeps.mono (List.subset_append_left _ _)).trans
      (kept.mono (List.subset_append_right _ _))
  · exact kept.toOption_readText h.keeps.wellFormed (laid.interface p (listed p hp))
      (outside p hp _ (by simp [Plan.artifacts]))
  · exact (kept.readText_iff h.keeps.wellFormed (laid.build p (listed p hp))
      (outside p hp _ (by simp [Plan.artifacts]))).2 read

/-- The text of a document does not change before its own step. -/
theorem Processed.read (ht : t.WellFormed) :
    s.tree.readText d = .ok content ↔ t.readText d = .ok content := by
  have hd : d ∈ plan.order := by simp [split]
  refine h.keeps.readText_iff ht (laid.document d hd) fun inside => laid.not_written d hd ?_
  refine List.mem_cons_of_mem _ ?_
  rw [split, List.flatMap_append]
  exact List.mem_append_left _ inside

theorem Processed.fails (kept : Keeps (plan.artifacts d) s.tree s'.tree)
    (failed : Fails plan d s s') : Processed plan t (done ++ [d]) s' := by
  have new := h.accounted.new_source laid.ordered split
  have accounted := h.accounted.fails laid.ordered split failed
  obtain ⟨keeps, stored, build⟩ := h.kept laid split kept
  have unlisted : plan.listedInterface t s.manifest d = none := if_neg new
  refine ⟨keeps, accounted.sources, accounted.failures, ?_, ?_⟩
  · intro p hp
    rw [failed.manifest]
    rcases List.mem_append.1 hp with hp | hp
    · rw [stored p hp, h.interface p hp]
    · rw [List.mem_singleton.1 hp, failed.interface, unlisted]
  · intro p hp
    rw [failed.manifest]
    intro listed
    rcases List.mem_append.1 hp with hp | hp
    · obtain ⟨content, read, entry, context⟩ := h.listed p hp listed
      exact ⟨content, read, entry, build p hp _ context⟩
    · exact absurd (List.mem_singleton.1 hp ▸ listed) new

theorem Processed.succeeds (ht : t.WellFormed) (kept : Keeps (plan.artifacts d) s.tree s'.tree)
    (success : Succeeds plan d content s s') : Processed plan t (done ++ [d]) s' := by
  have new := h.accounted.new_source laid.ordered split
  have accounted := h.accounted.succeeds laid.ordered split success
  obtain ⟨keeps, stored, build⟩ := h.kept laid split kept
  have read : t.readText d = .ok content := (h.read laid split ht).1 success.read
  have sources := success.sources new
  have other : ∀ p ∈ done, plan.relative p ≠ plan.relative d := fun _ hp =>
    relative_ne laid.ordered split hp
  have listed : ∀ p ∈ done, (plan.relative p ∈ s'.manifest.sources ↔
      plan.relative p ∈ s.manifest.sources) := fun p hp =>
    success.mem_sources_iff new (other p hp)
  have interfaces : ∀ p ∈ done,
      plan.listedInterface t s'.manifest p = plan.listedInterface t s.manifest p := by
    intro p hp
    simp only [Plan.listedInterface, listed p hp]
  refine ⟨keeps, accounted.sources, accounted.failures, ?_, ?_⟩
  · intro p hp
    rcases List.mem_append.1 hp with hp | hp
    · rw [stored p hp, h.interface p hp, interfaces p hp]
    · rw [List.mem_singleton.1 hp, success.interface, Plan.listedInterface,
        if_pos (by simp [sources]), Plan.currentInterface_of_readText read]
  · intro p hp hlisted
    rcases List.mem_append.1 hp with hp | hp
    · obtain ⟨content', read', entry, context⟩ := h.listed p hp ((listed p hp).1 hlisted)
      have same : plan.renderContent p (plan.listedInterface t s'.manifest) content' =
          plan.renderContent p (plan.listedInterface t s.manifest) content' :=
        Plan.renderContent_congr read' fun q hq known =>
          interfaces q (laid.mem_of_split split hp hq known)
      refine ⟨content', read', ?_, same ▸ build p hp _ context⟩
      rw [same, success.entry, if_neg (other p hp), entry]
    · rw [List.mem_singleton.1 hp]
      have same : plan.renderContent d (plan.listedInterface t s'.manifest) content =
          plan.renderContent d (storedInterface plan s.tree) content := by
        refine Plan.renderContent_congr read fun q hq known => ?_
        have := laid.before done d after split q hq known
        rw [interfaces q this, h.interface q this]
      exact ⟨content, read, by rw [same, success.entry, if_pos rfl], same ▸ success.build⟩

theorem Processed.step (ht : t.WellFormed) : Processed plan t (done ++ [d]) (step plan s d) := by
  have hd : d ∈ plan.order := by simp [split]
  obtain ⟨kept, ⟨content, success⟩ | failed⟩ :=
    step_spec h.keeps.wellFormed (laid.interface d hd) (laid.build d hd) (laid.pair d hd)
  · exact h.succeeds laid split ht kept success
  · exact h.fails laid split kept failed

end

theorem processed_foldl (laid : plan.Laid t) (ht : t.WellFormed) {done rest : List Path}
    (split : plan.order = done ++ rest) (h : Processed plan t done s) :
    Processed plan t plan.order (rest.foldl (step plan) s) := by
  induction rest generalizing done s with
  | nil =>
    rw [List.append_nil] at split
    rw [split]
    exact h
  | cons d after ih => exact ih (by simpa using split) (h.step laid split ht)

theorem Processed.nodup_sources (laid : plan.Laid t) (h : Processed plan t plan.order s) :
    s.manifest.sources.Nodup :=
  laid.ordered.nodup_relative.sublist h.sources

/-- A whole run leaves all documents processed. -/
theorem processed_run (laid : plan.Laid t) (ht : t.WellFormed) :
    Processed plan t plan.order (run plan t) :=
  processed_foldl laid ht rfl (processed_start ht)

end IslDocs.Build
