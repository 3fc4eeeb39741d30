import IslDocs.Project.Freshness
import IslDocs.Proofs.Manifest.RoundTrip
import IslDocs.Proofs.Project.Inlined

/-! A check renders documents from interfaces that it keeps itself, a build from those on disk. Both
amount to the interfaces of the documents as they are, so right after a build the check finds every
document fresh, apart from those that could not be read, unless it takes what the build has written
for documents. -/

namespace IslDocs

open IslDocs.Tree (Keeps)
open Project (discover)

variable {t : Tree} {root d p : Path} {config : Config} {plan : Plan} {m : Manifest}

namespace Freshness

/-! ### The run of a check -/

/-- The status of a document by the texts that are in the tree. -/
def statusOf (plan : Plan) (t : Tree) (m : Manifest) (d : Path) : Freshness :=
  match t.readText d with
  | .error _ => .stale
  | .ok content => ofEntry (m.entry? (plan.relative d))
    (plan.renderContent d (Plan.currentInterface t) content).entry.hash

/-- How things stand once documents have been checked. -/
structure Checked (plan : Plan) (t : Tree) (m : Manifest) (done : List Path) (s : Progress) :
    Prop where
  interfaces : ∀ p ∈ done, List.lookup p s.interfaces = Plan.currentInterface t p
  unknown : ∀ p ∈ plan.order, p ∉ done → List.lookup p s.interfaces = none
  statuses : s.statuses = done.map fun d =>
    { source := plan.relative d, status := statusOf plan t m d }

theorem checked_start (plan : Plan) (t : Tree) (m : Manifest) : Checked plan t m [] start :=
  ⟨by simp, fun _ _ _ => rfl, rfl⟩

/-- In its turn a document is rendered as from the interfaces that are in the tree. -/
theorem Checked.renderContent_eq (ordered : plan.Ordered t) {done after : List Path} {s : Progress}
    (split : plan.order = done ++ d :: after) (h : Checked plan t m done s) {content : Text}
    (read : t.readText d = .ok content) :
    plan.renderContent d (fun p => List.lookup p s.interfaces) content =
      plan.renderContent d (Plan.currentInterface t) content :=
  Plan.renderContent_congr read fun q hq known =>
    h.interfaces q (ordered.before done d after split q hq known)

theorem Checked.step (ordered : plan.Ordered t) {done after : List Path} {s : Progress}
    (split : plan.order = done ++ d :: after) (h : Checked plan t m done s) :
    Checked plan t m (done ++ [d]) (step plan t m s d) := by
  have hd : d ∈ plan.order := by simp [split]
  have new : d ∉ done := fun old => ordered.ne_of_split split old rfl
  unfold Freshness.step
  simp only
  split
  · next fault stopped =>
    have unread := Plan.render_eq_error stopped
    refine ⟨fun p hp => ?_, fun p hp other => ?_, ?_⟩
    · rcases List.mem_append.1 hp with hp | hp
      · exact h.interfaces p hp
      · rw [List.mem_singleton.1 hp, h.unknown d hd new, Plan.currentInterface, unread]
        rfl
    · exact h.unknown p hp fun old => other (List.mem_append_left _ old)
    · simp [h.statuses, statusOf, unread]
  · next r rendered =>
    obtain ⟨content, read, rfl⟩ := Plan.render_eq_ok rendered
    have own := Plan.currentInterface_of_readText read
    have other : ∀ p ∈ plan.order, p ≠ d → (p == d) = false := fun p hp =>
      ordered.beq_eq_false hp hd
    refine ⟨fun p hp => ?_, fun p hp outside => ?_, ?_⟩
    · rcases List.mem_append.1 hp with hp | hp
      · rw [List.lookup_cons, other p (by simp [split, hp]) (ordered.ne_of_split split hp),
          h.interfaces p hp]
      · rw [List.mem_singleton.1 hp, own, List.lookup_cons_self]
        rfl
    · rw [List.mem_append, List.mem_singleton, not_or] at outside
      rw [List.lookup_cons, other p hp outside.2, h.unknown p hp outside.1]
    · simp [h.statuses, statusOf, read, h.renderContent_eq ordered split read]

theorem Checked.foldl (ordered : plan.Ordered t) {done rest after : List Path} {s : Progress}
    (split : plan.order = done ++ rest ++ after) (h : Checked plan t m done s) :
    Checked plan t m (done ++ rest) (rest.foldl (Freshness.step plan t m) s) := by
  induction rest generalizing done s with
  | nil => rwa [List.append_nil]
  | cons d rest ih =>
    have next := h.step ordered (by simpa using split)
    simpa using ih (by simpa using split) next

theorem current_eq (ordered : plan.Ordered t) (m : Manifest) :
    current plan t m = plan.order.map fun d =>
      { source := plan.relative d, status := statusOf plan t m d } :=
  ((checked_start plan t m).foldl ordered (List.append_nil _).symm).statuses

theorem removedFrom_eq_nil {sources : List Text} (h : m.sources ⊆ sources) :
    removedFrom m sources = [] := by
  have none : m.entries.filter (fun e => !sources.contains e.source) = [] :=
    List.filter_eq_nil_iff.2 fun e he => by simp [h (List.mem_map_of_mem he)]
  rw [removedFrom, none, List.map_nil]

@[simp] theorem length_step (plan : Plan) (t : Tree) (m : Manifest) (s : Progress) (d : Path) :
    (step plan t m s d).statuses.length = s.statuses.length + 1 := by
  unfold step
  simp only
  split <;> simp

@[simp] theorem length_foldl (plan : Plan) (t : Tree) (m : Manifest) (s : Progress)
    (ds : List Path) :
    (ds.foldl (step plan t m) s).statuses.length = s.statuses.length + ds.length := by
  induction ds generalizing s with
  | nil => rfl
  | cons d rest ih =>
    rw [List.foldl_cons, ih, length_step, List.length_cons]
    omega

@[simp] theorem length_current (plan : Plan) (t : Tree) (m : Manifest) :
    (current plan t m).length = plan.order.length := by
  simp [current, start]

end Freshness

/-- A check has a status for every document there is. -/
theorem length_discover_le (ht : t.WellFormed) {statuses : List DocumentStatus}
    (h : check t root config = .ok statuses) :
    (discover t root config).length ≤ statuses.length := by
  obtain ⟨plan, made, h⟩ := bind_eq_ok_iff.1 h
  obtain ⟨m, read, h⟩ := bind_eq_ok_iff.1 h
  rw [← (Plan.perm_order ht made).length_eq, ← Except.ok.inj h, List.length_append,
    Freshness.length_current]
  omega

/-! ### After a build -/

/-- Against the manifest of a build, the documents that could be read and are listed are fresh. -/
theorem statusOf_after_build {after : Tree} (laid : plan.Laid t) (ht : t.WellFormed)
    (kept : Keeps plan.written t after)
    (unreadable : ∀ d ∈ plan.order, plan.relative d ∉ (Build.run plan t).manifest.sources →
      ∀ text, t.readText d ≠ .ok text) (hd : d ∈ plan.order) :
    Freshness.statusOf plan after (Build.run plan t).manifest d =
      if plan.relative d ∈ (Build.run plan t).manifest.sources then .fresh else .stale := by
  have same : ∀ p ∈ plan.order, (after.readText p).toOption = (t.readText p).toOption :=
    fun p hp => kept.toOption_readText ht (laid.document p hp) (laid.not_written p hp)
  have interfaces : ∀ p ∈ plan.order, Plan.currentInterface after p =
      plan.listedInterface t (Build.run plan t).manifest p := by
    intro p hp
    rw [Plan.currentInterface_congr (same p hp), Plan.listedInterface]
    split
    · rfl
    · next unlisted =>
      have := unreadable p hp unlisted
      rw [Plan.currentInterface]
      cases read : t.readText p with
      | error fault => rfl
      | ok text => exact absurd read (this text)
  split
  · next listed =>
    obtain ⟨content, read, entry, -⟩ := (Build.processed_run laid ht).listed d hd listed
    have rendered : plan.renderContent d (Plan.currentInterface after) content =
        plan.renderContent d (plan.listedInterface t (Build.run plan t).manifest) content :=
      Plan.renderContent_congr read fun q hq known =>
        interfaces q (laid.mem_of_split (List.append_nil _).symm hd hq known)
    have read := (kept.readText_iff ht (laid.document d hd) (laid.not_written d hd)).2 read
    rw [Freshness.statusOf, read]
    simp only [entry, rendered, Freshness.ofEntry, if_pos]
  · next unlisted =>
    rw [Freshness.statusOf]
    cases read : after.readText d with
    | error fault => rfl
    | ok text =>
      rw [kept.readText_iff ht (laid.document d hd) (laid.not_written d hd)] at read
      exact absurd read (unreadable d hd unlisted text)

/-- The documents in build order, stale where the build failed and fresh elsewhere. -/
def statusesAfter (plan : Plan) (summary : BuildSummary) : List DocumentStatus :=
  plan.order.map fun d =>
    { source := plan.relative d
      status := if (summary.failures.map BuildFailure.source).contains (plan.relative d) then .stale
        else .fresh }

section
variable {after : Tree} {summary : BuildSummary} (ht : t.WellFormed) (output : config.PlainOutput)
  (h : Plan.make t root config = .ok plan)
  (spared : ∀ d ∈ discover t root config, d.location ∉ plan.written)
  (built : build t root config = (after, .ok summary))
include ht output h spared built

theorem keeps_of_build : Keeps plan.written t after := by
  have kept := keeps_build ht (Plan.laid ht h output spared) h
  rwa [built] at kept

theorem check_of_spares
    (unreadable : ∀ d ∈ discover t root config,
      plan.relative d ∈ summary.failures.map BuildFailure.source →
        ∀ text, t.readText d ≠ .ok text)
    (spared' : ∀ d ∈ discover after root config, d.location ∉ plan.written) :
    check after root config = .ok (statusesAfter plan summary) := by
  have laid := Plan.laid ht h output spared
  have processed := Build.processed_run laid ht
  have kept := keeps_of_build ht output h spared built
  have again : Plan.make after root config = .ok plan := by
    rw [Plan.make_congr ht kept spared spared', h]
  have laid' := Plan.laid kept.wellFormed again output spared'
  obtain ⟨failures, written⟩ := build_eq_ok ht laid h built
  have read : Manifest.read after plan.manifestPath = .ok (Build.run plan t).manifest := by
    simp only [Manifest.read, written]
    exact Manifest.parse_serialize (processed.nodup_sources laid)
  have listed : ∀ d ∈ plan.order, (plan.relative d ∈ summary.failures.map BuildFailure.source ↔
      plan.relative d ∉ (Build.run plan t).manifest.sources) := by
    intro d hd
    rw [failures, processed.mem_failures hd]
  have statuses : Freshness.current plan after (Build.run plan t).manifest =
      statusesAfter plan summary := by
    rw [Freshness.current_eq laid'.ordered]
    refine List.map_congr_left fun d hd => ?_
    have := statusOf_after_build laid ht kept (fun p hp unlisted =>
      unreadable p ((Plan.mem_order ht h).1 hp) ((listed p hp).2 unlisted)) hd
    simp [this, listed d hd]
  have removed : Freshness.removedFrom (Build.run plan t).manifest
      ((statusesAfter plan summary).map DocumentStatus.source) = [] := by
    refine Freshness.removedFrom_eq_nil ?_
    rw [statusesAfter, List.map_map]
    exact processed.sources.subset
  simp only [check, again, read, bind, Except.bind]
  rw [statuses, removed, List.append_nil]
  rfl

/-- What a build leaves where documents are looked for is one document more. -/
theorem spares_of_length_le
    (none : (discover after root config).length ≤ (discover t root config).length) :
    ∀ d ∈ discover after root config, d.location ∉ plan.written := by
  intro d hd inside
  have kept := keeps_of_build ht output h spared built
  have new : d ∉ discover t root config := fun old => spared d old inside
  have nodup : (d :: discover t root config).Nodup :=
    List.nodup_cons.2 ⟨new, (Path.distinct_iff.1 (Project.distinct_discover ht)).of_map _⟩
  have more := (List.subperm_of_subset nodup
    (List.cons_subset.2 ⟨hd, Project.discover_subset kept spared ht⟩)).length_le
  rw [List.length_cons] at more
  omega

theorem spares_of_check (checked : check after root config = .ok (statusesAfter plan summary)) :
    ∀ d ∈ discover after root config, d.location ∉ plan.written := by
  have kept := keeps_of_build ht output h spared built
  have covered := length_discover_le kept.wellFormed checked
  rw [statusesAfter, List.length_map, (Plan.perm_order ht h).length_eq] at covered
  exact spares_of_length_le ht output h spared built covered

end

/-- A check right after a build that failed on unreadable documents only. The statuses are those of
the build unless the check takes something for a document that lies where the build writes. -/
theorem check_after_build (ht : t.WellFormed) (output : config.PlainOutput)
    (h : Plan.make t root config = .ok plan)
    (clear : '\\' ∉ config.output ∨
      ∀ d ∈ discover t root config, d.location ∉ plan.written)
    {after : Tree} {summary : BuildSummary} (built : build t root config = (after, .ok summary))
    (unreadable : ∀ d ∈ discover t root config,
      plan.relative d ∈ summary.failures.map BuildFailure.source →
        ∀ text, t.readText d ≠ .ok text) :
    plan.order.Perm (discover t root config) ∧
      ('\\' ∉ config.output → check after root config = .ok (statusesAfter plan summary)) ∧
      (check after root config = .ok (statusesAfter plan summary) ↔
        ∀ d ∈ discover after root config, d.location ∉ plan.written) := by
  have spared : ∀ d ∈ discover t root config, d.location ∉ plan.written :=
    clear.elim (fun clear => Plan.spares_documents ht h output clear ht rfl) id
  have kept := keeps_of_build ht output h spared built
  have enough := check_of_spares ht output h spared built unreadable
  refine ⟨Plan.perm_order ht h, fun clear => enough ?_, ?_, enough⟩
  · exact Plan.spares_documents ht h output clear kept.wellFormed (Project.base_congr kept)
  · exact spares_of_check ht output h spared built

theorem check_after_build_leftover :
    check (build leftover ⟨".".toList⟩ .default).1 ⟨".".toList⟩ .default =
      .ok [{ source := "a.isl.md".toList, status := .stale },
        { source := "c.isl.md".toList, status := .fresh },
        { source := "b.isl.md".toList, status := .fresh }] := by
  have ended : (build leftover ⟨".".toList⟩ .default).2.toOption.isSome = true := by
    rw [build, make_leftover]
    decide +kernel
  obtain ⟨summary, ended⟩ := Option.isSome_iff_exists.1 ended
  rw [toOption_eq_some_iff] at ended
  have built : build leftover ⟨".".toList⟩ .default =
      ((build leftover ⟨".".toList⟩ .default).1, .ok summary) := Prod.ext rfl ended
  have output : Config.default.PlainOutput := by decide
  have clear : '\\' ∉ Config.default.output := by decide
  have laid := Plan.laid wellFormed_leftover make_leftover output
    (Plan.spares_documents wellFormed_leftover make_leftover output clear wellFormed_leftover rfl)
  have failures : summary.failures.map BuildFailure.source = ["a.isl.md".toList] := by
    rw [(build_eq_ok wellFormed_leftover laid make_leftover built).1, failures_leftover]
  have unreadable : ∀ d ∈ discover leftover ⟨".".toList⟩ .default,
      leftoverPlan.relative d ∈ summary.failures.map BuildFailure.source →
        ∀ text, leftover.readText d ≠ .ok text := by
    rw [discover_leftover, failures]
    intro d hd failed text read
    simp only [leftoverPlan, List.mem_cons, List.not_mem_nil, or_false] at hd
    rcases hd with rfl | rfl | rfl
    · have unread : (leftover.readText ⟨"/a.isl.md".toList⟩).toOption = none := by decide +kernel
      rw [read] at unread
      cases unread
    · exact absurd failed (by decide +kernel)
    · exact absurd failed (by decide +kernel)
  obtain ⟨-, checked, -⟩ := check_after_build wellFormed_leftover output make_leftover
    (Or.inl clear) built unreadable
  rw [checked clear, statusesAfter, failures]
  exact congrArg Except.ok (by decide +kernel)

/-! ### A backslash in the output -/

/-- One document, to be built where the scan does not recognize the output directory. -/
def crossed : Tree where
  entries := [(["a.md".toList], .file (Text.bytes "# A\n".toList))]
  workDir := []

/-- The build succeeds, but then both artifacts are documents without an entry. -/
theorem crossed_check_not_fresh :
    (build crossed ⟨".".toList⟩ crossedConfig).2.toOption.map BuildSummary.failures = some [] ∧
      check (build crossed ⟨".".toList⟩ crossedConfig).1 ⟨".".toList⟩ crossedConfig ≠
        .ok [{ source := "a.md".toList, status := .fresh }] := by
  have wellFormed : (build crossed ⟨".".toList⟩ crossedConfig).1.WellFormed := by decide +kernel
  have documents : (discover (build crossed ⟨".".toList⟩ crossedConfig).1 ⟨".".toList⟩
      crossedConfig).length = 3 := by
    rw [discover, if_neg (by decide), (Path.sort_perm _).length_eq]
    decide +kernel
  refine ⟨by decide +kernel, fun checked => ?_⟩
  have covered := length_discover_le wellFormed checked
  rw [documents] at covered
  exact absurd covered (by decide)

end IslDocs
