import IslDocs.Proofs.Project.Frame
import IslDocs.Proofs.Project.Output

/-! The places of a plan's artifacts, when the output consists of plain names. Each artifact and
the manifest has a place of its own below the output directory. The scan recognizes all of these
places, unless there is a backslash in the output, which it finds in no path: then a file that is
already there is a document like any other. -/

namespace IslDocs

open IslDocs.Path (Plain ofLocation)
open Project (base discover isDocument scanText)

namespace Path

variable {loc rest : List Text} {ps : List Path}

/-- One or more plain names lead from a directory to a path. -/
def LiesBelow (dir p : Path) : Prop :=
  ∃ names, names ≠ [] ∧ Plain names ∧ p.parts = dir.parts ++ names.map .name

theorem liesBelow_ofLocation (h : Plain (loc ++ rest)) (hne : rest ≠ []) :
    LiesBelow (ofLocation loc) (ofLocation (loc ++ rest)) := by
  refine ⟨rest, hne, h.right, ?_⟩
  simp [h, h.left]

theorem distinct_of_location (h : (ps.map location).Nodup) : Distinct ps := by
  refine (List.pairwise_map.1 h).imp fun apart => beq_eq_false_iff.2 fun same => apart ?_
  rw [location, location, same]

end Path

namespace Config

variable {c : Config} {loc rest : Location}

theorem backslash_notMem_scanText (root loc : Location) : '\\' ∉ scanText root loc := by
  intro inside
  obtain ⟨d, -, turned⟩ := List.mem_map.1 inside
  split at turned
  · cases turned
  · next other => exact other (beq_iff_eq.2 turned)

/-- With a backslash, the scan takes no path for one in the output directory. -/
theorem isDocument_of_backslash (plain : c.PlainOutput) (crossed : '\\' ∈ c.output)
    (root loc : Location) : isDocument c root loc =
      (Text.endsWith c.suffix (loc.getLast?.getD []) && (c.isIncluded (scanText root loc) &&
        !c.excluded.any (Text.startsWith · (scanText root loc)))) := by
  have outside : Text.startsWith c.outputStart (scanText root loc) = false := by
    refine Bool.eq_false_iff.2 fun starts => backslash_notMem_scanText root loc ?_
    have start : c.outputStart <+: scanText root loc := List.isPrefixOf_iff_prefix.1 starts
    rw [outputStart_eq plain] at start
    exact start.subset (List.mem_append_left _ crossed)
  simp [isDocument, shouldScan, outside]

end Config

namespace Plan

variable {t : Tree} {root p : Path} {config : Config} {plan : Plan}

@[simp] theorem map_location_outputs (plan : Plan) :
    plan.outputs.map Path.location = plan.written := by
  simp only [outputs, written, List.map_cons, List.map_flatMap]
  rfl

theorem Placed.nodup_written (h : plan.Placed) (nodup : plan.order.Nodup) :
    plan.written.Nodup := by
  refine List.nodup_cons.2 ⟨fun inside => ?_, List.nodup_flatMap.2 ⟨fun d hd => ?_, ?_⟩⟩
  · obtain ⟨d, hd, shared⟩ := List.mem_flatMap.1 inside
    exact h.artifact_ne_manifest d hd shared
  · simpa [artifacts] using h.pair d hd
  · exact nodup.imp_of_mem fun hd he other => h.apart _ hd _ he other

theorem distinct_outputs (ht : t.WellFormed) (h : make t root config = .ok plan)
    (output : config.PlainOutput) : Path.Distinct plan.outputs := by
  refine Path.distinct_of_location ?_
  rw [map_location_outputs]
  exact (placed ht h output).nodup_written (nodup_order h)

/-- Where artifacts and the manifest are, by the names that lead there from the output directory. -/
theorem exists_place (ht : t.WellFormed) (h : make t root config = .ok plan)
    (output : config.PlainOutput) (hp : p ∈ plan.outputs) :
    ∃ rest, rest ≠ [] ∧ Plain (base t root ++ config.outputNames ++ rest) ∧
      p = ofLocation (base t root ++ config.outputNames ++ rest) := by
  rcases List.mem_cons.1 hp with rfl | hp
  · obtain ⟨plain, place⟩ := manifestPath_eq ht h output
    exact ⟨_, List.cons_ne_nil _ _, plain, place⟩
  · obtain ⟨d, hd, hp⟩ := List.mem_flatMap.1 hp
    obtain ⟨dir, stem, lies⟩ := exists_liesAt ht h output hd
    obtain ⟨-, rfl, -⟩ := make_eq_ok h
    have place : ∃ ending, IsEnding ending ∧
        p = ofLocation (base t root ++ plan.config.outputNames ++ dir ++ [stem ++ ending]) := by
      rcases List.mem_pair.1 hp with rfl | rfl
      · exact ⟨_, Or.inr rfl, lies.interface⟩
      · exact ⟨_, Or.inl rfl, lies.build⟩
    obtain ⟨ending, he, rfl⟩ := place
    have plain := lies.plain_artifact output he
    rw [List.append_assoc] at plain ⊢
    exact ⟨dir ++ [stem ++ ending], by simp, plain, rfl⟩

theorem liesBelow_outputDir (ht : t.WellFormed) (h : make t root config = .ok plan)
    (output : config.PlainOutput) (hp : p ∈ plan.outputs) : Path.LiesBelow plan.outputDir p := by
  obtain ⟨rest, hne, plain, rfl⟩ := exists_place ht h output hp
  rw [outputDir_eq ht h output]
  exact Path.liesBelow_ofLocation plain hne

theorem rooted_of_mem_outputs (ht : t.WellFormed) (h : make t root config = .ok plan)
    (output : config.PlainOutput) (hp : p ∈ plan.outputs) : p.Rooted := by
  obtain ⟨rest, -, plain, place⟩ := exists_place ht h output hp
  exact ⟨_, plain, place⟩

/-- Why the scan takes a path for a document's although it is in the output directory. -/
structure Overlooked (t : Tree) (root : Path) (config : Config) (p : Path) : Prop where
  crossed : '\\' ∈ config.output
  held : ∃ content, t.content? p.location = some content
  named : Text.endsWith config.suffix (p.location.getLast?.getD []) = true
  included : config.isIncluded (scanText (base t root) p.location) = true
  kept : config.excluded.any (Text.startsWith · (scanText (base t root) p.location)) = false

theorem mem_discover_iff_overlooked (ht : t.WellFormed) (h : make t root config = .ok plan)
    (output : config.PlainOutput) (hp : p ∈ plan.outputs) :
    p ∈ discover t root config ↔ Overlooked t root config p := by
  obtain ⟨rest, hne, plain, place⟩ := exists_place ht h output hp
  have lies : p.location = base t root ++ config.outputNames ++ rest := by
    rw [place, Path.location_ofLocation plain]
  have document : ∀ {content}, t.content? p.location = some content →
      (p ∈ discover t root config ↔ isDocument config (base t root) p.location = true) := by
    intro content held
    have more : config.outputNames ++ rest ≠ [] := by simp [hne]
    rw [lies, List.append_assoc] at held ⊢
    rw [place, List.append_assoc, Project.mem_discover_of_held ht (make_eq_ok h).1 more held,
      Config.isDocument_append config _ more]
  constructor
  · intro found
    obtain ⟨content, held⟩ := Project.content?_of_mem_discover ht found
    have passed := (document held).1 found
    have crossed : '\\' ∈ config.output := by
      by_contra clear
      rw [lies, Config.isDocument_below_output output clear hne] at passed
      cases passed
    simp only [Config.isDocument_of_backslash output crossed, Bool.and_eq_true,
      Bool.not_eq_true'] at passed
    exact ⟨crossed, ⟨content, held⟩, passed.1, passed.2.1, passed.2.2⟩
  · rintro ⟨crossed, ⟨content, held⟩, named, included, kept⟩
    simp [document held, Config.isDocument_of_backslash output crossed, named, included, kept]

theorem contains_discover_iff (ht : t.WellFormed) (h : make t root config = .ok plan)
    (output : config.PlainOutput) (hp : p ∈ plan.outputs) :
    (discover t root config).contains p = true ↔ Overlooked t root config p := by
  rw [← mem_discover_iff_overlooked ht h output hp]
  refine ⟨fun known => ?_, Path.contains_of_mem⟩
  obtain ⟨q, hq, same⟩ := List.contains_iff_exists_mem_beq.1 known
  have document := rooted_document ht h ((mem_order ht h).2 hq)
  rwa [(rooted_of_mem_outputs ht h output hp).eq_of_beq document same]

/-- The places of all artifacts and of the manifest are pairwise different and below the output
directory. Without a backslash in the output none of them is a document's; with one, those are
where the tree holds a file already and the configuration lets its name and path pass. -/
theorem outputs_apart (ht : t.WellFormed) (h : make t root config = .ok plan)
    (output : config.PlainOutput) :
    Path.Distinct plan.outputs ∧ (∀ p ∈ plan.outputs, Path.LiesBelow plan.outputDir p) ∧
      ('\\' ∉ config.output → ∀ p ∈ plan.outputs, (discover t root config).contains p = false) ∧
      ∀ p ∈ plan.outputs,
        ((discover t root config).contains p = true ↔ Overlooked t root config p) := by
  have documents := fun p => contains_discover_iff ht h output (p := p)
  refine ⟨distinct_outputs ht h output, fun _ => liesBelow_outputDir ht h output,
    fun clear p hp => ?_, documents⟩
  exact Bool.eq_false_iff.2 fun known => clear ((documents p hp).1 known).crossed

/-! ### A project with an old interface -/

/-- Two documents, the name of one of them being no more than the suffix, and the interface that an
earlier build has made for it. -/
def outdated : Tree where
  entries :=
    [([".md".toList], .file (Text.bytes "# A".toList)),
     (["o".toList], .directory),
     (["o".toList, "b".toList], .directory),
     (["o".toList, "b".toList, ".ref.md".toList], .file (Text.bytes "old".toList)),
     (["x.md".toList], .file (Text.bytes "# X".toList))]
  workDir := []

def outdatedPlan : Plan where
  config := { Config.default with output := "o/b".toList, suffix := ".md".toList }
  graph :=
    { root := ⟨"/".toList⟩
      nodes := [⟨"/.md".toList⟩, ⟨"/x.md".toList⟩]
      edges := [] }
  order := [⟨"/.md".toList⟩, ⟨"/x.md".toList⟩]

theorem make_outdated : make outdated ⟨".".toList⟩ outdatedPlan.config = .ok outdatedPlan := by
  have sorted : Path.sort outdatedPlan.graph.nodes = outdatedPlan.graph.nodes :=
    Path.sort_of_pairwise (by decide)
  have documents : discover outdated ⟨".".toList⟩ outdatedPlan.config =
      outdatedPlan.graph.nodes :=
    .trans (congrArg Path.sort (Path.map_text_injective (by decide))) sorted
  refine make_of_swept outdatedPlan documents (List.cons_ne_nil _ _) rfl ?_ (by decide)
  rw [Graph.swept, Sweep.start, sorted]
  exact Path.map_text_injective (by decide +kernel)

/-- The old interface is where a build writes, and no document. -/
theorem outdated_outputs_apart :
    Path.Distinct outdatedPlan.outputs ∧
      outdatedPlan.outputs.map Path.text =
        ["/o/b/build-manifest.json".toList, "/o/b/.ref.md".toList, "/o/b/.build.md".toList,
         "/o/b/x.ref.md".toList, "/o/b/x.build.md".toList] ∧
      outdated.isFile ⟨"/o/b/.ref.md".toList⟩ = true ∧
      ∀ p ∈ outdatedPlan.outputs, Path.LiesBelow outdatedPlan.outputDir p ∧
        (discover outdated ⟨".".toList⟩ outdatedPlan.config).contains p = false := by
  have wellFormed : outdated.WellFormed := by decide
  obtain ⟨distinct, below, spared, -⟩ := outputs_apart wellFormed make_outdated (by decide)
  exact ⟨distinct, by decide +kernel, by decide +kernel,
    fun p hp => ⟨below p hp, spared (by decide) p hp⟩⟩

/-- With a backslash in the output, the old interface is a document, in the very place where the
build of another one writes. -/
theorem buried_output_discovered : crossedConfig.PlainOutput ∧
    make buried ⟨".".toList⟩ crossedConfig = .ok buriedPlan ∧
    ∃ p ∈ buriedPlan.outputs, (discover buried ⟨".".toList⟩ crossedConfig).contains p = true := by
  have written : ("/o\\o/x.ref.md".toList) ∈ buriedPlan.outputs.map Path.text := by decide +kernel
  obtain ⟨p, hp, text⟩ := List.mem_map.1 written
  refine ⟨by decide, make_buried, p, hp, Path.contains_of_mem ?_⟩
  rw [discover_buried, show p = ⟨"/o\\o/x.ref.md".toList⟩ from congrArg Path.mk text]
  exact List.mem_cons_self

end Plan
end IslDocs
