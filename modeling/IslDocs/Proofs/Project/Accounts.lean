import IslDocs.Proofs.Manifest.Lookup
import IslDocs.Proofs.Project.Local

/-! What a check reports, line by line. Every document has one line and every entry of the manifest
whose document is gone has one after them; no source is named twice, since a manifest names none
twice and no two documents have the same relative path. -/

namespace IslDocs

open Project (discover)

variable {t : Tree} {root d : Path} {config : Config} {plan : Plan} {m : Manifest} {source : Text}

/-! ### Entries of a manifest -/

namespace Manifest

theorem nodup_sources_of_read {p : Path} (h : read t p = .ok m) : m.sources.Nodup := by
  unfold read at h
  split at h
  · cases h
  · cases h
  · exact nodup_sources_of_parse h

end Manifest

/-! ### Statuses -/

namespace Freshness

variable {entry : Option Entry} {hash : Text}

theorem ofEntry_ne_removed (entry : Option Entry) (hash : Text) :
    ofEntry entry hash ≠ .removed := by
  unfold ofEntry
  split
  · simp
  · split <;> simp

@[simp] theorem ofEntry_eq_new_iff : ofEntry entry hash = .new ↔ entry = none := by
  unfold ofEntry
  split
  · simp
  · split <;> simp

@[simp] theorem ofEntry_eq_fresh_iff :
    ofEntry entry hash = .fresh ↔ ∃ e, entry = some e ∧ e.hash = hash := by
  unfold ofEntry
  split
  · simp
  · split <;> simp_all

@[simp] theorem ofEntry_eq_stale_iff :
    ofEntry entry hash = .stale ↔ ∃ e, entry = some e ∧ e.hash ≠ hash := by
  unfold ofEntry
  split
  · simp
  · split <;> simp_all

theorem statusOf_ne_removed (plan : Plan) (t : Tree) (m : Manifest) (d : Path) :
    statusOf plan t m d ≠ .removed := by
  unfold statusOf
  split
  · simp
  · exact ofEntry_ne_removed _ _

theorem statusOf_of_fault {fault : Fault} (unread : t.readText d = .error fault) :
    statusOf plan t m d = .stale := by
  rw [statusOf, unread]

/-- The status of a readable document goes by the context that the check renders. -/
theorem statusOf_of_readText (ordered : plan.Ordered t) (hd : d ∈ plan.order) (m : Manifest)
    {content : Text} (read : t.readText d = .ok content) :
    ∃ r, rendered plan t m d = .ok r ∧
      statusOf plan t m d = ofEntry (m.entry? (plan.relative d)) (Text.sha256 r.context) := by
  refine ⟨plan.renderContent d (Plan.currentInterface t) content, ?_, ?_⟩
  · rw [rendered_eq ordered hd, Plan.render, read]
    rfl
  · rw [statusOf, read]
    rfl

theorem map_source_current (ordered : plan.Ordered t) (m : Manifest) :
    (current plan t m).map DocumentStatus.source = plan.order.map plan.relative := by
  rw [current_eq ordered, List.map_map]
  rfl

theorem map_source_removedFrom (m : Manifest) (sources : List Text) :
    (removedFrom m sources).map DocumentStatus.source = m.sources.filter (· ∉ sources) := by
  rw [removedFrom, List.map_map, Manifest.sources, List.filter_map]
  simp only [Function.comp_def, List.contains_eq_mem, decide_not]

theorem mem_removedFrom {s : DocumentStatus} {sources : List Text} (h : s ∈ removedFrom m sources) :
    s.status = .removed ∧ s.source ∈ m.sources.filter (· ∉ sources) := by
  rw [← map_source_removedFrom]
  refine ⟨?_, List.mem_map_of_mem h⟩
  obtain ⟨e, -, rfl⟩ := List.mem_map.1 h
  rfl

end Freshness

/-- A check lists the documents in build order and then, in manifest order, the sources of the
entries that belong to no document; each once, and only these last as removed. A document is stale
if it cannot be read, and otherwise new, fresh or stale by its entry and the hash of the build
context that the check renders for it. -/
theorem check_accounts (ht : t.WellFormed) {statuses : List DocumentStatus}
    (checked : check t root config = .ok statuses) :
    ∃ plan m, Plan.make t root config = .ok plan ∧
      Manifest.read t plan.manifestPath = .ok m ∧ plan.order.Perm (discover t root config) ∧
      let present := plan.order.map plan.relative
      let gone := m.sources.filter (· ∉ present)
      statuses.map DocumentStatus.source = present ++ gone ∧ (present ++ gone).Nodup ∧
      (∀ s ∈ statuses, s.status = .removed ↔ s.source ∈ gone) ∧
      ∀ d ∈ plan.order, ∀ s ∈ statuses, s.source = plan.relative d →
        (∀ fault, t.readText d = .error fault → s.status = .stale) ∧
        ∀ content, t.readText d = .ok content → ∃ r, Freshness.rendered plan t m d = .ok r ∧
          (s.status = .new ↔ ∀ e ∈ m.entries, e.source ≠ s.source) ∧
          (s.status = .fresh ↔
            ∃ e ∈ m.entries, e.source = s.source ∧ e.hash = Text.sha256 r.context) ∧
          (s.status = .stale ↔
            ∃ e ∈ m.entries, e.source = s.source ∧ e.hash ≠ Text.sha256 r.context) := by
  obtain ⟨plan, made, checked⟩ := bind_eq_ok_iff.1 checked
  obtain ⟨m, read, checked⟩ := bind_eq_ok_iff.1 checked
  obtain rfl := Except.ok.inj checked
  have ordered := Plan.ordered ht made
  have nodup := Manifest.nodup_sources_of_read read
  refine ⟨plan, m, made, read, Plan.perm_order ht made, ?_⟩
  rw [Freshness.map_source_current ordered, Freshness.current_eq ordered]
  intro present gone
  have absent : ∀ source ∈ gone, source ∉ present := fun source hs => by
    simpa using (List.mem_filter.1 hs).2
  refine ⟨?_, ?_, fun s hs => ?_, fun d hd s hs same => ?_⟩
  · rw [List.map_append, List.map_map, Freshness.map_source_removedFrom]
    rfl
  · exact List.nodup_append.2 ⟨ordered.nodup_relative, nodup.filter _,
      fun a ha b hb same => absent b hb (same ▸ ha)⟩
  · rcases List.mem_append.1 hs with hs | hs
    · obtain ⟨d, hd, rfl⟩ := List.mem_map.1 hs
      exact iff_of_false (Freshness.statusOf_ne_removed plan t m d)
        fun there => absent _ there (List.mem_map_of_mem hd)
    · exact iff_of_true (Freshness.mem_removedFrom hs).1 (Freshness.mem_removedFrom hs).2
  · rcases List.mem_append.1 hs with hs | hs
    · obtain ⟨e, he, rfl⟩ := List.mem_map.1 hs
      obtain rfl := ordered.source e he d hd same
      refine ⟨fun fault unread => Freshness.statusOf_of_fault unread, fun content readable => ?_⟩
      obtain ⟨r, rendered, status⟩ := Freshness.statusOf_of_readText ordered hd m readable
      refine ⟨r, rendered, ?_⟩
      simp [status, Manifest.lookup_eq_none_iff, Manifest.lookup_eq_some_iff nodup, and_assoc]
    · exact absurd (same ▸ List.mem_map_of_mem hd) (absent _ (Freshness.mem_removedFrom hs).2)

/-! ### A document that is gone -/

/-- The first document cannot be read, the second has changed, the third is not in the manifest, and
the manifest has an entry, its first, for one that is not there. -/
def departed : Tree where
  entries :=
    [(["a.isl.md".toList], .file ⟨#[0xFF]⟩),
     (["b.isl.md".toList], .file (Text.bytes "> **Reference**: [a](a.isl.md)".toList)),
     (["build".toList], .directory),
     (["build".toList, Manifest.fileName], .file (Text.bytes
        "[[\"\", \"\", null, \"\", \"d.isl.md\"], [\"\", \"\", null, \"\", \"b.isl.md\"]]".toList)),
     (["c.isl.md".toList], .file (Text.bytes "# C".toList))]
  workDir := []

def departedPlan : Plan where
  config := .default
  graph :=
    { root := ⟨"/".toList⟩
      nodes := trioNodes
      edges := [{ dependency := ⟨"/a.isl.md".toList⟩, dependent := ⟨"/b.isl.md".toList⟩ }] }
  order := [⟨"/a.isl.md".toList⟩, ⟨"/c.isl.md".toList⟩, ⟨"/b.isl.md".toList⟩]

theorem discover_departed : discover departed ⟨".".toList⟩ .default = trioNodes :=
  .trans (congrArg Path.sort (Path.map_text_injective (by decide))) sorted_trio

theorem make_departed : Plan.make departed ⟨".".toList⟩ .default = .ok departedPlan := by
  have sorted : Path.sort departedPlan.graph.nodes = departedPlan.graph.nodes := sorted_trio
  refine Plan.make_of_swept departedPlan discover_departed (List.cons_ne_nil _ _) rfl ?_ (by decide)
  rw [Graph.swept, Sweep.start, sorted]
  exact Path.map_text_injective (by decide +kernel)

theorem departed_accounts : ∃ statuses, check departed ⟨".".toList⟩ .default = .ok statuses ∧
    statuses.map DocumentStatus.source =
      ["a.isl.md", "c.isl.md", "b.isl.md", "d.isl.md"].map String.toList ∧
    ∀ s ∈ statuses, s.status = .removed ↔ s.source = "d.isl.md".toList := by
  have sources : (Manifest.read departed departedPlan.manifestPath).toOption.map Manifest.sources =
      some (["d.isl.md", "b.isl.md"].map String.toList) := by decide +kernel
  obtain ⟨m, read, sources⟩ := Option.map_eq_some_iff.1 sources
  rw [toOption_eq_some_iff] at read
  have checked : check departed ⟨".".toList⟩ .default = .ok _ :=
    bind_eq_ok_iff.2 ⟨departedPlan, make_departed, bind_eq_ok_iff.2 ⟨m, read, rfl⟩⟩
  obtain ⟨plan, m', made, read', -, listed, -, removed, -⟩ :=
    check_accounts (by decide +kernel) checked
  obtain rfl := Except.ok.inj (make_departed.symm.trans made)
  obtain rfl := Except.ok.inj (read.symm.trans read')
  have present : departedPlan.order.map departedPlan.relative =
      ["a.isl.md", "c.isl.md", "b.isl.md"].map String.toList := by decide +kernel
  have gone : m.sources.filter (· ∉ departedPlan.order.map departedPlan.relative) =
      ["d.isl.md".toList] := by
    rw [sources, present]
    decide
  rw [gone] at listed removed
  rw [present] at listed
  exact ⟨_, checked, listed, fun s hs => (removed s hs).trans List.mem_singleton⟩

end IslDocs
