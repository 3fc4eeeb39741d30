import IslDocs.Proofs.Project.Freshness
import IslDocs.Proofs.Tree.Repeat

/-! A second build right after a first. Every step of it finds the document, the interfaces and the
artifacts as the first build left them, so it writes what is there already: the run ends alike, on
the tree that it began with. This takes that the second build has the same documents, which a
backslash in the output may prevent. -/

namespace IslDocs

open IslDocs.Tree (Keeps)
open Project (discover)

variable {t after : Tree} {root d p : Path} {config : Config} {plan : Plan} {content : Text}
  {summary summary' : BuildSummary}

/-- Where a build still writes when it comes to these documents. -/
def Plan.writtenFrom (plan : Plan) (rest : List Path) : List Location :=
  plan.manifestPath.location :: rest.flatMap plan.artifacts

namespace Build

variable {s : Progress} {done rest : List Path}

/-- The same point of a build on another tree. -/
def Progress.on (s : Progress) (t : Tree) : Progress := { s with tree := t }

/-! ### The rest of a run -/

theorem keeps_foldl (placed : plan.Placed) (hs : s.tree.WellFormed) (sub : rest ⊆ plan.order) :
    Keeps (rest.flatMap plan.artifacts) s.tree (rest.foldl (step plan) s).tree := by
  induction rest generalizing s with
  | nil => exact .refl hs
  | cons d rest ih =>
    obtain ⟨hd, sub⟩ := List.cons_subset.1 sub
    have first : Keeps (plan.artifacts d) s.tree (step plan s d).tree :=
      (step_spec hs (placed.interface d hd) (placed.build d hd) (placed.pair d hd)).1
    rw [List.flatMap_cons, List.foldl_cons]
    exact (first.mono (List.subset_append_left _ _)).trans
      ((ih first.wellFormed sub).mono (List.subset_append_right _ _))

theorem keeps_writtenFrom {s' : Progress} (kept : Keeps (plan.artifacts d) s.tree s'.tree)
    (later : Keeps (plan.writtenFrom rest) s'.tree after) :
    Keeps (plan.writtenFrom (d :: rest)) s.tree after := by
  refine (kept.mono fun l hl => ?_).trans (later.mono fun l hl => ?_)
  · simp [Plan.writtenFrom, hl]
  · simp only [Plan.writtenFrom, List.flatMap_cons, List.mem_cons, List.mem_append] at hl ⊢
    tauto

theorem keeps_written (split : plan.order = done ++ rest)
    (before : Keeps (done.flatMap plan.artifacts) t s.tree) : Keeps plan.written t s.tree := by
  apply before.mono
  rw [Plan.written, split, List.flatMap_append]
  exact fun l hl => List.mem_cons_of_mem _ (List.mem_append_left _ hl)

theorem failures_step (plan : Plan) (s : Progress) (d : Path) :
    s.failures <+: (step plan s d).failures := by
  unfold step
  split
  · exact List.prefix_append _ _
  · split
    · exact List.prefix_rfl
    · exact List.prefix_append _ _

theorem failures_foldl (plan : Plan) (s : Progress) (rest : List Path) :
    s.failures <+: (rest.foldl (step plan) s).failures := by
  induction rest generalizing s with
  | nil => exact List.prefix_rfl
  | cons d rest ih => exact (failures_step plan s d).trans (ih _)

/-! ### One step again -/

section
variable (laid : plan.Laid t) (split : plan.order = done ++ rest) (hp : p ∈ done)
include laid split hp

theorem not_writtenFrom {l : Location} (hl : l ∈ plan.artifacts p) : l ∉ plan.writtenFrom rest := by
  have listed : p ∈ plan.order := by simp [split, hp]
  intro later
  rcases List.mem_cons.1 later with rfl | later
  · exact laid.artifact_ne_manifest p listed hl
  · obtain ⟨q, hq, hl'⟩ := List.mem_flatMap.1 later
    have other : p ≠ q := by
      rintro rfl
      have nodup := laid.nodup
      rw [split, List.nodup_append] at nodup
      exact nodup.2.2 p hp p hq rfl
    exact laid.apart p listed q (by simp [split, hq]) other hl hl'

/-- What is written from now on does not change the artifacts of earlier documents. -/
theorem readText_later (hs : s.tree.WellFormed)
    (later : Keeps (plan.writtenFrom rest) s.tree after) :
    storedInterface plan after p = storedInterface plan s.tree p ∧
      ∀ text, after.readText (plan.artifactPaths p).build = .ok text ↔
        s.tree.readText (plan.artifactPaths p).build = .ok text := by
  have listed : p ∈ plan.order := by simp [split, hp]
  constructor
  · apply later.toOption_readText hs (laid.interface p listed)
    exact not_writtenFrom laid split hp (by simp [Plan.artifacts])
  · intro text
    apply later.readText_iff hs (laid.build p listed)
    exact not_writtenFrom laid split hp (by simp [Plan.artifacts])

end

/-- A step that wrote both artifacts writes the same ones again. -/
theorem Succeeds.again {content : Text} (success : Succeeds plan d content s (step plan s d))
    (ha : after.WellFormed) (hi : (plan.artifactPaths d).interface.Rooted)
    (read : after.readText d = .ok content)
    (rendered : plan.renderContent d (storedInterface plan after) content =
      plan.renderContent d (storedInterface plan s.tree) content)
    (interface : after.readText (plan.artifactPaths d).interface =
      .ok (Interface.project d.fileName content))
    (build : after.readText (plan.artifactPaths d).build =
      .ok (plan.renderContent d (storedInterface plan s.tree) content).context) :
    step plan (s.on after) d = (step plan s d).on after := by
  have written : writeArtifacts after (plan.renderContent d (storedInterface plan s.tree) content) =
      (after, .ok ()) := by
    have stored := ha.storeText_of_readText hi interface
    have rewritten := Tree.writeText_of_readText build
    unfold writeArtifacts
    simp only [Plan.renderContent, Plan.renderedWith] at rewritten ⊢
    simp only [stored, rewritten]
  have first : (step plan s d).on after =
      { tree := after, failures := s.failures
        manifest := s.manifest.push
          (plan.renderContent d (storedInterface plan s.tree) content).entry } := by
    simp only [Progress.on, success.failures, success.manifest]
  rw [first]
  simp [step, Plan.render, Progress.on, read, Except.map, rendered, written]

/-- A step that found no text finds none again, and no interface to remove. -/
theorem step_again_of_unread {fault : Fault} (hs : s.tree.WellFormed)
    (hi : (plan.artifactPaths d).interface.Rooted) {apart : List Location}
    (later : Keeps apart (step plan s d).tree after)
    (outside : (plan.artifactPaths d).interface.location ∉ apart)
    (unread : s.tree.readText d = .error fault) (unread' : after.readText d = .error fault) :
    step plan (s.on after) d = (step plan s d).on after := by
  have failed : ∀ t, t.readText d = .error fault →
      step plan (s.on t) d = fail plan s d t fault := by
    intro t unread
    simp [step, Plan.render, Progress.on, unread, Except.map, fail]
  have first : step plan s d = fail plan s d s.tree fault := failed s.tree unread
  rw [first] at later
  have nothing := later.removeIfPossible_eq hs hi outside
  rw [failed after unread', first, fail, nothing]
  rfl

/-! ### The run again -/

/-- A tree where the build of a plan has been, against the one where it began. -/
structure Visited (plan : Plan) (t after : Tree) : Prop where
  laid : plan.Laid t
  wellFormed : t.WellFormed
  document : ∀ d ∈ plan.order, ∃ content, t.content? d.location = some content
  keeps : Keeps plan.written t after

/-- As nothing is written in its place, a document is read as ever, a fault included. -/
theorem Visited.readText (h : Visited plan t after) (hd : d ∈ plan.order) :
    after.readText d = t.readText d := by
  obtain ⟨content, held⟩ := h.document d hd
  have held' : after.content? d.location = some content := by
    rw [h.keeps.content? h.wellFormed (h.laid.not_written d hd), held]
  rw [(h.laid.document d hd).eq_ofLocation]
  exact h.wellFormed.readText_congr h.keeps.wellFormed held held'

theorem Visited.step (h : Visited plan t after) (split : plan.order = done ++ d :: rest)
    (before : Keeps (done.flatMap plan.artifacts) t s.tree)
    (later : Keeps (plan.writtenFrom rest) (step plan s d).tree after)
    (unreadable : plan.relative d ∈ (step plan s d).failures.map BuildFailure.source →
      ∀ text, t.readText d ≠ .ok text) :
    step plan (s.on after) d = (step plan s d).on after := by
  have laid := h.laid
  have hd : d ∈ plan.order := by simp [split]
  have next : plan.order = (done ++ [d]) ++ rest := by simp [split]
  have own : d ∈ done ++ [d] := by simp
  have hs := before.wellFormed
  have here : Visited plan t s.tree := { h with keeps := keeps_written split before }
  have now : s.tree.readText d = t.readText d := here.readText hd
  have last : after.readText d = t.readText d := h.readText hd
  obtain ⟨kept, outcome⟩ := step_spec hs (laid.interface d hd) (laid.build d hd) (laid.pair d hd)
  cases read : t.readText d with
  | error fault =>
    have outside : (plan.artifactPaths d).interface.location ∉ plan.writtenFrom rest :=
      not_writtenFrom laid next own (by simp [Plan.artifacts])
    exact step_again_of_unread hs (laid.interface d hd) later outside (now.trans read)
      (last.trans read)
  | ok content =>
    rcases outcome with ⟨content', success⟩ | failed
    · obtain rfl : content' = content :=
        Except.ok.inj (success.read.symm.trans (now.trans read))
      have rendered : plan.renderContent d (storedInterface plan after) content' =
          plan.renderContent d (storedInterface plan s.tree) content' :=
        Plan.renderContent_congr read fun q hq known =>
          (readText_later laid split (laid.before done d rest split q hq known) hs
            (keeps_writtenFrom kept later)).1
      obtain ⟨interface, build⟩ := readText_later laid next own kept.wellFormed later
      rw [success.interface, storedInterface, toOption_eq_some_iff] at interface
      exact success.again h.keeps.wellFormed (laid.interface d hd) (last.trans read) rendered
        interface ((build _).2 success.build)
    · have listed : plan.relative d ∈ (Build.step plan s d).failures.map BuildFailure.source := by
        simp [failed.failures]
      exact absurd read (unreadable listed content)

/-- The induction is on the documents left, each of which finds the tree as the run leaves it. -/
theorem Visited.foldl (h : Visited plan t after) (split : plan.order = done ++ rest)
    (before : Keeps (done.flatMap plan.artifacts) t s.tree)
    (last : Keeps [plan.manifestPath.location] (rest.foldl (Build.step plan) s).tree after)
    (unreadable : ∀ d ∈ rest,
      plan.relative d ∈ (rest.foldl (Build.step plan) s).failures.map BuildFailure.source →
        ∀ text, t.readText d ≠ .ok text) :
    rest.foldl (Build.step plan) (s.on after) = (rest.foldl (Build.step plan) s).on after := by
  induction rest generalizing done s with
  | nil => rfl
  | cons d rest ih =>
    have laid := h.laid
    have hd : d ∈ plan.order := by simp [split]
    have next : plan.order = (done ++ [d]) ++ rest := by simp [split]
    have kept : Keeps (plan.artifacts d) s.tree (Build.step plan s d).tree :=
      (step_spec before.wellFormed (laid.interface d hd) (laid.build d hd) (laid.pair d hd)).1
    have sub : rest ⊆ plan.order := by
      rw [next]
      exact List.subset_append_right _ _
    have later : Keeps (plan.writtenFrom rest) (Build.step plan s d).tree after := by
      refine (((keeps_foldl laid.placed kept.wellFormed sub).mono ?_).trans (last.mono ?_))
      · exact List.subset_cons_self _ _
      · simp [Plan.writtenFrom]
    have failed := (failures_foldl plan (Build.step plan s d) rest).map BuildFailure.source
    rw [List.foldl_cons, List.foldl_cons, h.step split before later]
    · apply ih next _ last
      · exact fun p hp => unreadable p (List.mem_cons_of_mem _ hp)
      · rw [List.flatMap_append, List.flatMap_singleton]
        exact (before.mono (List.subset_append_left _ _)).trans
          (kept.mono (List.subset_append_right _ _))
    · exact fun listed => unreadable d List.mem_cons_self (failed.subset listed)

end Build

/-! ### A second build -/

theorem Plan.content?_document (ht : t.WellFormed) (h : make t root config = .ok plan)
    (hd : d ∈ plan.order) : ∃ content, t.content? d.location = some content :=
  Project.content?_of_mem_discover ht ((mem_order ht h).1 hd)

/-- A build that ends well accounts for every document. -/
theorem length_build (ht : t.WellFormed) (output : config.PlainOutput)
    (built : build t root config = (after, .ok summary)) :
    summary.manifest.sources.length + summary.failures.length =
      (discover t root config).length := by
  obtain ⟨plan, h⟩ := exists_make built
  have ordered := Plan.ordered ht h
  have placed := Plan.placed ht h output
  have recorded := Build.recorded_run ordered placed ht
  obtain ⟨rfl, -⟩ := recorded.build_eq_ok placed h built
  have all := (recorded.accounted.perm ordered).length_eq
  simp only [List.length_append, List.length_map, (Plan.perm_order ht h).length_eq] at all
  exact all

section
variable (ht : t.WellFormed) (output : config.PlainOutput)
  (h : Plan.make t root config = .ok plan)
  (spared : ∀ d ∈ discover t root config, d.location ∉ plan.written)
  (built : build t root config = (after, .ok summary))
include ht output h spared built

theorem build_again_of_spares
    (unreadable : ∀ d ∈ discover t root config,
      plan.relative d ∈ summary.failures.map BuildFailure.source →
        ∀ text, t.readText d ≠ .ok text)
    (spared' : ∀ d ∈ discover after root config, d.location ∉ plan.written) :
    build after root config = (after, .ok summary) := by
  have laid := Plan.laid ht h output spared
  have kept := keeps_of_build ht output h spared built
  have again : Plan.make after root config = .ok plan := by
    rw [Plan.make_congr ht kept spared spared', h]
  have apart := keeps_build_run ht laid h
  rw [built] at apart
  obtain ⟨rfl, written⟩ :=
    (Build.recorded_run laid.ordered laid.placed ht).build_eq_ok laid.placed h built
  have run : Build.run plan after = (Build.run plan t).on after := by
    have visited : Build.Visited plan t after :=
      ⟨laid, ht, fun d hd => Plan.content?_document ht h hd, kept⟩
    apply visited.foldl (List.nil_append _).symm (.refl ht) apart
    exact fun d hd => unreadable d ((Plan.mem_order ht h).1 hd)
  have stored := kept.wellFormed.storeText_of_readText laid.manifest written
  simp [build, again, run, Build.Progress.on, stored]

theorem spares_of_build_again {again : Tree}
    (rebuilt : build after root config = (again, .ok summary'))
    (failures : summary'.failures = summary.failures)
    (manifest : summary'.manifest = summary.manifest) :
    ∀ d ∈ discover after root config, d.location ∉ plan.written := by
  have kept := keeps_of_build ht output h spared built
  have first := length_build ht output built
  have second := length_build kept.wellFormed output rebuilt
  rw [failures, manifest, first] at second
  exact spares_of_length_le ht output h spared built second.ge

end

/-- A build right after one that failed on unreadable documents only ends like that one and leaves
the tree as it is, unless it takes something for a document that lies where the build writes. If it
ends with the same failures and the same manifest, it has changed nothing. -/
theorem build_again (ht : t.WellFormed) (output : config.PlainOutput)
    (h : Plan.make t root config = .ok plan)
    (clear : '\\' ∉ config.output ∨
      ∀ d ∈ discover t root config, d.location ∉ plan.written)
    (built : build t root config = (after, .ok summary))
    (unreadable : ∀ d ∈ discover t root config,
      plan.relative d ∈ summary.failures.map BuildFailure.source →
        ∀ text, t.readText d ≠ .ok text) :
    ('\\' ∉ config.output → build after root config = (after, .ok summary)) ∧
      (build after root config = (after, .ok summary) ↔
        ∀ d ∈ discover after root config, d.location ∉ plan.written) ∧
      ∀ again summary', build after root config = (again, .ok summary') →
        summary'.failures = summary.failures → summary'.manifest = summary.manifest →
          again = after := by
  have spared : ∀ d ∈ discover t root config, d.location ∉ plan.written :=
    clear.elim (fun clear => Plan.spares_documents ht h output clear ht rfl) id
  have kept := keeps_of_build ht output h spared built
  have enough := build_again_of_spares ht output h spared built unreadable
  refine ⟨fun clear => enough ?_, ⟨fun rebuilt => ?_, enough⟩, ?_⟩
  · exact Plan.spares_documents ht h output clear kept.wellFormed (Project.base_congr kept)
  · exact spares_of_build_again ht output h spared built rebuilt rfl rfl
  · intro again summary' rebuilt failures manifest
    have spared' := spares_of_build_again ht output h spared built rebuilt failures manifest
    rw [enough spared'] at rebuilt
    exact (congrArg Prod.fst rebuilt).symm

/-! ### A project with leftovers -/

theorem unreadable_leftover : ∀ d ∈ leftoverPlan.graph.nodes,
    leftoverPlan.relative d ∈ ["a.isl.md".toList] → (leftover.readText d).toOption = none := by
  decide

theorem build_again_leftover :
    build (build leftover ⟨".".toList⟩ .default).1 ⟨".".toList⟩ .default =
      build leftover ⟨".".toList⟩ .default := by
  have ended : (build leftover ⟨".".toList⟩ .default).2.toOption.isSome = true := by
    rw [build, make_leftover]
    decide
  obtain ⟨summary, ended⟩ := Option.isSome_iff_exists.1 ended
  rw [toOption_eq_some_iff] at ended
  have built : build leftover ⟨".".toList⟩ .default =
      ((build leftover ⟨".".toList⟩ .default).1, .ok summary) := Prod.ext rfl ended
  have output : Config.default.PlainOutput := by decide
  have clear : '\\' ∉ Config.default.output := by decide
  have laid := Plan.laid wellFormed_leftover make_leftover output
    (Plan.spares_documents wellFormed_leftover make_leftover output clear wellFormed_leftover rfl)
  have failures : summary.failures.map BuildFailure.source = ["a.isl.md".toList] := by
    rw [(build_eq_ok wellFormed_leftover laid make_leftover built).1, failures_leftover]
  have unreadable : ∀ d ∈ discover leftover ⟨".".toList⟩ .default,
      leftoverPlan.relative d ∈ summary.failures.map BuildFailure.source →
        ∀ text, leftover.readText d ≠ .ok text := by
    rw [discover_leftover, failures]
    intro d hd failed text read
    have none := unreadable_leftover d hd failed
    rw [read] at none
    cases none
  obtain ⟨rebuilt, -, -⟩ := build_again wellFormed_leftover output make_leftover (Or.inl clear)
    built unreadable
  rw [rebuilt clear, built]

/-! ### A backslash in the output -/

/-- The build of a single document succeeds, but then both artifacts are documents of a second
build, which so ends otherwise. -/
theorem crossed_build_not_repeated : ∃ after summary,
    build crossed ⟨".".toList⟩ crossedConfig = (after, .ok summary) ∧ summary.failures = [] ∧
      ¬ ∃ again summary', build after ⟨".".toList⟩ crossedConfig = (again, .ok summary') ∧
        summary'.failures = summary.failures ∧ summary'.manifest = summary.manifest := by
  have ended : (build crossed ⟨".".toList⟩ crossedConfig).2.toOption.map
      (fun summary => (summary.failures, summary.manifest.sources.length)) = some ([], 1) := by
    decide +kernel
  obtain ⟨summary, ended, same⟩ := Option.map_eq_some_iff.1 ended
  obtain ⟨failures, sources⟩ := Prod.mk.inj same
  rw [toOption_eq_some_iff] at ended
  refine ⟨_, summary, Prod.ext rfl ended, failures, ?_⟩
  rintro ⟨again, summary', rebuilt, failures', manifest⟩
  have wellFormed : (build crossed ⟨".".toList⟩ crossedConfig).1.WellFormed := by decide +kernel
  have documents : (discover (build crossed ⟨".".toList⟩ crossedConfig).1 ⟨".".toList⟩
      crossedConfig).length = 3 := by
    rw [discover, if_neg (by decide), (Path.sort_perm _).length_eq]
    decide +kernel
  have all := length_build wellFormed (by decide) rebuilt
  rw [failures', manifest, failures, sources, documents] at all
  exact absurd all (by decide)

end IslDocs
