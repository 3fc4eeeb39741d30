import IslDocs.Proofs.Project.Record
import IslDocs.Proofs.Tree.Repeat

/-! The interfaces in the build contexts. After a build, each context has, for every reference line
whose target is a document of this build, the interface of that document as it is now, and nothing
for any other line, whatever lay in the output directory before. -/

namespace IslDocs

open IslDocs.Tree (Keeps)
open Project (discover)

variable {t : Tree} {root d p : Path} {config : Config} {plan : Plan} {m : Manifest}
  {content : Text}

/-! ### The tree after a build -/

theorem keeps_build_run (ht : t.WellFormed) (laid : plan.Laid t)
    (h : Plan.make t root config = .ok plan) :
    Keeps [plan.manifestPath.location] (Build.run plan t).tree (build t root config).1 :=
  (Build.recorded_run laid.ordered laid.placed ht).keeps_manifest laid.placed h

/-- A build writes artifacts and the manifest and leaves all other files alone. -/
theorem keeps_build (ht : t.WellFormed) (laid : plan.Laid t)
    (h : Plan.make t root config = .ok plan) : Keeps plan.written t (build t root config).1 :=
  (Build.recorded_run laid.ordered laid.placed ht).keeps_written laid.placed h

/-- A build that ends well has its manifest on disk. -/
theorem build_eq_ok (ht : t.WellFormed) (laid : plan.Laid t)
    (h : Plan.make t root config = .ok plan) {after : Tree} {summary : BuildSummary}
    (built : build t root config = (after, .ok summary)) :
    summary.failures = (Build.run plan t).failures ∧
      after.readText plan.manifestPath = .ok (Build.run plan t).manifest.serialize := by
  obtain ⟨rfl, stored⟩ :=
    (Build.recorded_run laid.ordered laid.placed ht).build_eq_ok laid.placed h built
  exact ⟨rfl, stored⟩

/-! ### What is inlined -/

namespace Plan

def isListed (plan : Plan) (m : Manifest) (p : Path) : Bool :=
  plan.graph.contains p && m.sources.contains (plan.relative p)

/-- The interface of a document made from the text that it has in the tree. -/
def currentDependency (plan : Plan) (t : Tree) (p : Path) : Dependency :=
  plan.dependencyWith p (Interface.project p.fileName ((t.readText p).toOption.getD []))

/-- One interface for each reference line to a document that the manifest lists. -/
def inlined (plan : Plan) (t : Tree) (m : Manifest) (d : Path) (content : Text) : List Dependency :=
  (((BuildContext.targets content).map (Path.resolveAgainst d)).filter (plan.isListed m)).map
    (plan.currentDependency t)

theorem filterMap_dependency? (read : t.readText d = .ok content)
    (readable : ∀ p ∈ Project.referencesOf t d, plan.isListed m p = true →
      ∃ text, t.readText p = .ok text) :
    (BuildContext.targets content).filterMap (plan.dependency? d (plan.listedInterface t m)) =
      plan.inlined t m d content := by
  have each : ∀ target ∈ BuildContext.targets content,
      plan.dependency? d (plan.listedInterface t m) target =
        if plan.isListed m (Path.resolveAgainst d target) then
          some (plan.currentDependency t (Path.resolveAgainst d target)) else none := by
    intro target htarget
    have named : Path.resolveAgainst d target ∈ Project.referencesOf t d := by
      rw [Project.referencesOf, read]
      exact List.mem_map_of_mem htarget
    rw [dependency?]
    generalize Path.resolveAgainst d target = p at named
    by_cases known : plan.graph.contains p <;> by_cases listed : plan.relative p ∈ m.sources
    · obtain ⟨text, read'⟩ := readable p named (by simp [isListed, known, listed])
      simp [isListed, known, listed, listedInterface, currentInterface, currentDependency, read',
        Except.toOption]
    all_goals simp [isListed, known, listed, listedInterface]
  rw [List.filterMap_congr each, inlined, ← List.filterMap_eq_map, List.filterMap_filter,
    List.filterMap_map]
  rfl

theorem context_renderContent (read : t.readText d = .ok content)
    (readable : ∀ p ∈ Project.referencesOf t d, plan.isListed m p = true →
      ∃ text, t.readText p = .ok text) :
    (plan.renderContent d (plan.listedInterface t m) content).context =
      BuildContext.textWith d.fileName content (plan.inlined t m d content) := by
  rw [BuildContext.textWith, ← filterMap_dependency? read readable]
  rfl

end Plan

/-- After a build, whatever was there before it, the context of each document that did not fail has
the current interfaces of the listed documents among its references, line by line. -/
theorem build_inlines_current (ht : t.WellFormed) (output : config.PlainOutput)
    (h : Plan.make t root config = .ok plan)
    (clear : '\\' ∉ config.output ∨
      ∀ d ∈ discover t root config, d.location ∉ plan.written) :
    let run := Build.run plan t
    let after := (build t root config).1
    ∀ d ∈ discover t root config,
      (plan.relative d ∈ run.manifest.sources ↔
        plan.relative d ∉ run.failures.map BuildFailure.source) ∧
      (plan.relative d ∈ run.manifest.sources → ∃ content,
        t.readText d = .ok content ∧ after.readText d = .ok content ∧
          after.readText (plan.artifactPaths d).build =
            .ok (BuildContext.textWith d.fileName content
              (plan.inlined t run.manifest d content))) := by
  intro run after d hd
  have spared : ∀ d ∈ discover t root config, d.location ∉ plan.written :=
    clear.elim (fun clear => Plan.spares_documents ht h output clear ht rfl) id
  have laid := Plan.laid ht h output spared
  have processed : Build.Processed plan t plan.order run := Build.processed_run laid ht
  have kept : Keeps plan.written t after := keeps_build ht laid h
  rw [← Plan.mem_order ht h] at hd
  refine ⟨?_, fun listed => ?_⟩
  · rw [processed.mem_failures hd, not_not]
  · obtain ⟨content, read, -, context⟩ := processed.listed d hd listed
    have readable : ∀ p ∈ Project.referencesOf t d, plan.isListed run.manifest p = true →
        ∃ text, t.readText p = .ok text := by
      intro p hp built
      obtain ⟨known, built⟩ := Bool.and_eq_true_iff.1 built
      have before := laid.mem_of_split (List.append_nil _).symm hd hp known
      obtain ⟨text, read', -⟩ := processed.listed p before (List.contains_iff_mem.1 built)
      exact ⟨text, read'⟩
    have apart : (plan.artifactPaths d).build.location ∉ [plan.manifestPath.location] := by
      rw [List.mem_singleton]
      intro same
      exact laid.artifact_ne_manifest d hd (by simp [Plan.artifacts, same])
    rw [Plan.context_renderContent read readable] at context
    exact ⟨content, read,
      (kept.readText_iff ht (laid.document d hd) (laid.not_written d hd)).2 read,
      ((keeps_build_run ht laid h).readText_iff processed.keeps.wellFormed (laid.build d hd)
        apart).2 context⟩

/-! ### A project with leftovers -/

theorem failures_leftover : (Build.run leftoverPlan leftover).failures.map BuildFailure.source =
    ["a.isl.md".toList] := by decide

theorem leftover_inlines_current :
    (build leftover ⟨".".toList⟩ .default).1.readText ⟨"/build/b.build.md".toList⟩ =
      .ok (BuildContext.textWith "b.isl.md".toList leftoverText
        [{ name := "c.ref.md".toList
           text := "<!-- INTERFACE (REF) FOR: c.isl.md -->\n# C".toList }]) := by
  have document : ⟨"/b.isl.md".toList⟩ ∈ discover leftover ⟨".".toList⟩ .default := by
    rw [discover_leftover]
    exact List.mem_cons_of_mem _ List.mem_cons_self
  obtain ⟨listed, current⟩ := build_inlines_current wellFormed_leftover (by decide) make_leftover
    (Or.inl (by decide)) _ document
  rw [failures_leftover] at listed
  obtain ⟨content, read, -, context⟩ := current (listed.2 (by decide +kernel))
  have same : leftover.readText ⟨"/b.isl.md".toList⟩ = .ok leftoverText := rfl
  obtain rfl := Except.ok.inj (same.symm.trans read)
  have inlined : leftoverPlan.inlined leftover (Build.run leftoverPlan leftover).manifest
      ⟨"/b.isl.md".toList⟩ leftoverText =
        [{ name := "c.ref.md".toList
           text := "<!-- INTERFACE (REF) FOR: c.isl.md -->\n# C".toList }] := by decide +kernel
  rw [inlined] at context
  exact context

/-! ### A reference that the plan does not know -/

/-- The scan does not recognize this output directory, whose files come between two documents. -/
def betweenConfig : Config :=
  { Config.default with output := "z\\o".toList, suffix := ".md".toList }

/-- The reference leads to the other document only from where the interface will be. An earlier
build has left the interfaces of both. -/
def stale : Tree where
  entries :=
    [(["w".toList], .directory),
     (["w".toList, "x.md".toList],
      .file (Text.bytes "# X\n> **Reference**: [q](../zz.md)\n".toList)),
     (["w".toList, "z\\o".toList], .directory),
     (["w".toList, "z\\o".toList, "x.ref.md".toList], .file (Text.bytes "old x".toList)),
     (["w".toList, "z\\o".toList, "zz.ref.md".toList], .file (Text.bytes "STALE INTERFACE".toList)),
     (["w".toList, "zz.md".toList], .file (Text.bytes "# new\n".toList))]
  workDir := ["w".toList]

def staleDocuments : List Path :=
  [⟨"/w/x.md".toList⟩, ⟨"/w/z\\o/x.ref.md".toList⟩, ⟨"/w/z\\o/zz.ref.md".toList⟩,
   ⟨"/w/zz.md".toList⟩]

def stalePlan : Plan where
  config := betweenConfig
  graph := { root := ⟨"/w".toList⟩, nodes := staleDocuments, edges := [] }
  order := staleDocuments

theorem sorted_stale : Path.sort staleDocuments = staleDocuments :=
  Path.sort_of_pairwise (by decide)

theorem discover_stale : discover stale ⟨".".toList⟩ betweenConfig = staleDocuments :=
  .trans (congrArg Path.sort (Path.map_text_injective (by decide))) sorted_stale

theorem make_stale : Plan.make stale ⟨".".toList⟩ betweenConfig = .ok stalePlan := by
  refine Plan.make_of_swept stalePlan discover_stale (List.cons_ne_nil _ _) rfl ?_ (by decide)
  rw [Graph.swept, Sweep.start, show stalePlan.graph.nodes = staleDocuments from rfl, sorted_stale]
  exact Path.map_text_injective (by decide +kernel)

def staleContent : Text :=
  "<!-- INTERFACE (REF) FOR: x.md -->\n# X\n> **Reference**: [q](../zz.md)".toList

/-- The interface written over a document has a reference that the plan does not know, to a document
of the same build. What is inlined for it is not the interface of this document as it is now but the
one that an earlier build has left. -/
theorem stale_interface_inlined :
    let d : Path := ⟨"/w/z\\o/x.ref.md".toList⟩
    let run := Build.run stalePlan stale
    let after := (build stale ⟨".".toList⟩ betweenConfig).1
    betweenConfig.PlainOutput ∧ run.failures = [] ∧
      d ∈ discover stale ⟨".".toList⟩ betweenConfig ∧
      after.readText d = .ok staleContent ∧
      stalePlan.inlined after run.manifest d staleContent =
        [{ name := "zz.ref.md".toList
           text := "<!-- INTERFACE (REF) FOR: zz.md -->\n# new".toList }] ∧
      after.readText (stalePlan.artifactPaths d).build ≠
        .ok (BuildContext.textWith d.fileName staleContent
          (stalePlan.inlined after run.manifest d staleContent)) := by
  intro d run after
  have known : d ∈ discover stale ⟨".".toList⟩ betweenConfig := by
    rw [discover_stale]
    exact List.mem_cons_of_mem _ List.mem_cons_self
  have written : after = (run.tree.storeText stalePlan.manifestPath run.manifest.serialize).1 :=
    build_fst make_stale
  have inlined : stalePlan.inlined after run.manifest d staleContent =
      [{ name := "zz.ref.md".toList
         text := "<!-- INTERFACE (REF) FOR: zz.md -->\n# new".toList }] := by
    rw [written]
    decide +kernel
  refine ⟨by decide, by decide +kernel, known, by rw [written]; decide +kernel, inlined, ?_⟩
  rw [inlined, written]
  intro same
  -- The two texts are told apart by their sizes.
  obtain ⟨loc, bytes, found, held, decoded⟩ := Tree.readText_eq_ok_iff.1 same
  have place : (run.tree.storeText stalePlan.manifestPath run.manifest.serialize).1.locate
      (stalePlan.artifactPaths d).build =
        .ok ["w".toList, "z\\o".toList, "z\\o".toList, "x.ref.build.md".toList] := by
    decide +kernel
  obtain rfl := Except.ok.inj (place.symm.trans found)
  have size := congrArg (Option.map ByteArray.size) held
  rw [Option.map_some, ← Text.bytes_of_ofBytes? decoded] at size
  exact absurd size (by decide +kernel)

end IslDocs
