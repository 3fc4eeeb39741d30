import IslDocs.Proofs.Manifest.RoundTrip
import IslDocs.Proofs.Project.Build

/-! What a build leaves on disk against its manifest, for any output directory given by plain names.
Each document is listed or has failed, and what an entry says of the artifacts holds from the step
that made it up to the end, because every other step and the manifest itself are written elsewhere.
The one thing a later step may still take away is the text of a document, where an artifact belongs
in its place. -/

namespace IslDocs

open IslDocs.Tree (Keeps)
open Project (discover)

variable {t t' : Tree} {root d p : Path} {config : Config} {plan : Plan} {content : Text} {e : Entry}
  {apart : List Location}

/-! ### One entry -/

/-- An entry for a document with a text, and the artifacts that it speaks of in a tree. -/
structure Plan.Backed (plan : Plan) (t : Tree) (d : Path) (content : Text) (e : Entry) : Prop where
  source : e.source = plan.relative d
  buildPath : e.buildPath = plan.relative (plan.artifactPaths d).build
  interfacePath : e.interfacePath = plan.relative (plan.artifactPaths d).interface
  build : ∃ context,
    t.readText (plan.artifactPaths d).build = .ok context ∧ Text.sha256 context = e.hash
  interface : t.readText (plan.artifactPaths d).interface =
    .ok (Interface.project d.fileName content)

/-- It is not affected by what is written elsewhere. -/
theorem Plan.Backed.kept (h : plan.Backed t d content e) (placed : plan.Placed)
    (hd : d ∈ plan.order) (ht : t.WellFormed) (kept : Keeps apart t t')
    (outside : ∀ l ∈ plan.artifacts d, l ∉ apart) : plan.Backed t' d content e where
  source := h.source
  buildPath := h.buildPath
  interfacePath := h.interfacePath
  build := by
    obtain ⟨context, read, hash⟩ := h.build
    refine ⟨context, ?_, hash⟩
    exact (kept.readText_iff ht (placed.build d hd) (outside _ (by simp [artifacts]))).2 read
  interface := (kept.readText_iff ht (placed.interface d hd)
    (outside _ (by simp [artifacts]))).2 h.interface

namespace Build

variable {s s' : Progress} {done rest after : List Path}

theorem Succeeds.backed (success : Succeeds plan d content s s') :
    plan.Backed s'.tree d content
      (plan.renderContent d (storedInterface plan s.tree) content).entry where
  source := rfl
  buildPath := rfl
  interfacePath := rfl
  build := ⟨_, success.build, rfl⟩
  interface := toOption_eq_some_iff.1 success.interface

/-! ### The run up to a document -/

/-- A build when it comes to a document. -/
def turn (plan : Plan) (t : Tree) (d : Path) : Progress :=
  (plan.before d).foldl (step plan) (start t)

/-- How things stand with the manifest once documents have been processed. -/
structure Recorded (plan : Plan) (t : Tree) (done : List Path) (s : Progress) : Prop where
  keeps : Keeps (done.flatMap plan.artifacts) t s.tree
  accounted : Accounted plan done s
  entries : ∀ e ∈ s.manifest.entries, ∃ d ∈ done, ∃ content,
    (turn plan t d).tree.readText d = .ok content ∧ plan.Backed s.tree d content e

theorem recorded_start (ht : t.WellFormed) : Recorded plan t [] (start t) where
  keeps := .refl ht
  accounted := accounted_start plan t
  entries := fun _ he => absurd he List.not_mem_nil

section
variable (ordered : plan.Ordered t) (placed : plan.Placed)
include ordered placed

theorem Recorded.step (split : plan.order = done ++ d :: after) (h : Recorded plan t done s)
    (now : turn plan t d = s) : Recorded plan t (done ++ [d]) (step plan s d) := by
  have hd : d ∈ plan.order := by simp [split]
  have hs := h.keeps.wellFormed
  obtain ⟨kept, outcome⟩ :=
    step_spec hs (placed.interface d hd) (placed.build d hd) (placed.pair d hd)
  have keeps : Keeps ((done ++ [d]).flatMap plan.artifacts) t (Build.step plan s d).tree := by
    rw [List.flatMap_append, List.flatMap_singleton]
    exact (h.keeps.mono (List.subset_append_left _ _)).trans
      (kept.mono (List.subset_append_right _ _))
  have old : ∀ e ∈ s.manifest.entries, ∃ p ∈ done ++ [d], ∃ content,
      (turn plan t p).tree.readText p = .ok content ∧
        plan.Backed (Build.step plan s d).tree p content e := by
    intro e he
    obtain ⟨p, hp, content, read, backed⟩ := h.entries e he
    have listed : p ∈ plan.order := by simp [split, hp]
    have other := placed.apart p listed d hd (ordered.ne_of_split split hp)
    exact ⟨p, List.mem_append_left _ hp, content, read,
      backed.kept placed listed hs kept fun _ hl => other hl⟩
  rcases outcome with ⟨content, success⟩ | failed
  · refine ⟨keeps, h.accounted.succeeds ordered split success, fun e he => ?_⟩
    rw [success.manifest, Manifest.push_of_new (h.accounted.new_source ordered split)] at he
    rcases List.mem_append.1 he with he | he
    · exact old e he
    · rw [List.mem_singleton.1 he]
      exact ⟨d, by simp, content, now ▸ success.read, success.backed⟩
  · refine ⟨keeps, h.accounted.fails ordered split failed, fun e he => ?_⟩
    rw [failed.manifest] at he
    exact old e he

/-- The induction takes documents off the end, so that the run up to the last one is its turn. -/
theorem recorded_foldl (ht : t.WellFormed) (split : plan.order = done ++ rest) :
    Recorded plan t done (done.foldl (Build.step plan) (start t)) := by
  induction done using List.reverseRecOn generalizing rest with
  | nil => exact recorded_start ht
  | append_singleton done d ih =>
    have here : plan.order = done ++ d :: rest := by simpa using split
    rw [List.foldl_concat]
    exact (ih here).step ordered placed here (by rw [turn, ordered.before_eq here])

theorem recorded_run (ht : t.WellFormed) : Recorded plan t plan.order (run plan t) :=
  recorded_foldl ordered placed ht (List.append_nil _).symm

end
end Build

/-- When the turn of a document comes, only what the build writes may have changed. -/
theorem Build.keeps_turn (ht : t.WellFormed) (ordered : plan.Ordered t) (placed : plan.Placed)
    (hd : d ∈ plan.order) : Keeps plan.written t (Build.turn plan t d).tree := by
  obtain ⟨before, after, split⟩ := List.append_of_mem hd
  rw [Build.turn, ordered.before_eq split]
  refine (Build.recorded_foldl ordered placed ht split).keeps.mono fun l hl => ?_
  obtain ⟨p, hp, hl⟩ := List.mem_flatMap.1 hl
  exact List.mem_cons_of_mem _ (List.mem_flatMap.2 ⟨p, by simp [split, hp], hl⟩)

/-! ### The tree after a build -/

theorem exists_make {after : Tree} {summary : BuildSummary}
    (built : build t root config = (after, .ok summary)) :
    ∃ plan, Plan.make t root config = .ok plan := by
  unfold build at built
  split at built
  · cases built
  · next plan made => exact ⟨plan, made⟩

theorem build_fst (h : Plan.make t root config = .ok plan) :
    (build t root config).1 = ((Build.run plan t).tree.storeText plan.manifestPath
      (Build.run plan t).manifest.serialize).1 := by
  simp only [build, h]
  split <;> simp_all

namespace Build.Recorded

variable (recorded : Build.Recorded plan t plan.order (Build.run plan t)) (placed : plan.Placed)
  (h : Plan.make t root config = .ok plan)
include recorded placed h

theorem keeps_manifest :
    Keeps [plan.manifestPath.location] (Build.run plan t).tree (build t root config).1 := by
  rw [build_fst h]
  exact recorded.keeps.wellFormed.keeps_store placed.manifest _

/-- A build writes artifacts and the manifest and leaves all other files alone. -/
theorem keeps_written : Keeps plan.written t (build t root config).1 :=
  (recorded.keeps.mono (List.subset_cons_self _ _)).trans
    ((recorded.keeps_manifest placed h).mono (List.cons_subset_cons _ (List.nil_subset _)))

/-- A build that ends well has its manifest on disk. -/
theorem build_eq_ok {after : Tree} {summary : BuildSummary}
    (built : build t root config = (after, .ok summary)) :
    summary = { failures := (Build.run plan t).failures, manifest := (Build.run plan t).manifest,
                manifestPath := plan.manifestPath } ∧
      after.readText plan.manifestPath = .ok (Build.run plan t).manifest.serialize := by
  simp only [build, h] at built
  split at built
  · cases built
  · next stored =>
    cases built
    exact ⟨rfl, recorded.keeps.wellFormed.readText_store placed.manifest stored⟩

end Build.Recorded

/-- After a build that ends well, each document is listed or has failed, in the order of the plan,
and each entry has its artifacts on disk, the interface made from the text that the document had in
its turn. That is the document's text before and after the build, unless the build writes in its
place, which takes a backslash in the output. The manifest is read back as it is. -/
theorem build_matches_manifest (ht : t.WellFormed) (output : config.PlainOutput) {after : Tree}
    {summary : BuildSummary} (built : build t root config = (after, .ok summary)) :
    ∃ plan, Plan.make t root config = .ok plan ∧
      plan.order.Perm (discover t root config) ∧
      summary.manifest.sources.Sublist (plan.order.map plan.relative) ∧
      (summary.failures.map BuildFailure.source).Sublist (plan.order.map plan.relative) ∧
      (summary.manifest.sources ++ summary.failures.map BuildFailure.source).Perm
        (plan.order.map plan.relative) ∧
      (plan.order.map plan.relative).Nodup ∧
      (∀ e ∈ summary.manifest.entries, ∃ d ∈ plan.order, e.source = plan.relative d ∧
        (∃ context,
          after.readText ((Path.absolute t.workPath root).join e.buildPath) = .ok context ∧
            Text.sha256 context = e.hash) ∧
        ∃ content, (Build.turn plan t d).tree.readText d = .ok content ∧
          after.readText ((Path.absolute t.workPath root).join e.interfacePath) =
            .ok (Interface.project d.fileName content) ∧
          ('\\' ∉ config.output ∨ d.location ∉ plan.written →
            t.readText d = .ok content ∧ after.readText d = .ok content)) ∧
      Manifest.read after summary.manifestPath = .ok summary.manifest := by
  obtain ⟨plan, h⟩ := exists_make built
  have ordered := Plan.ordered ht h
  have placed := Plan.placed ht h output
  have recorded := Build.recorded_run ordered placed ht
  have kept := recorded.keeps_written placed h
  have apart := recorded.keeps_manifest placed h
  rw [built] at kept apart
  obtain ⟨rfl, stored⟩ := recorded.build_eq_ok placed h built
  have accounted := recorded.accounted
  refine ⟨plan, h, Plan.perm_order ht h, accounted.sources, ?_, accounted.perm ordered,
    ordered.nodup_relative, fun e he => ?_, ?_⟩
  · rw [accounted.failures]
    exact List.filter_sublist
  · obtain ⟨d, hd, content, read, backed⟩ := recorded.entries e he
    have backed := backed.kept placed hd recorded.keeps.wellFormed apart fun l hl same =>
      placed.artifact_ne_manifest d hd (List.mem_singleton.1 same ▸ hl)
    obtain ⟨build, interface⟩ := Plan.join_relative_artifactPaths ht h output hd
    rw [← Plan.root_eq ht h, backed.buildPath, backed.interfacePath, build, interface]
    refine ⟨d, hd, backed.source, backed.build, content, read, backed.interface, fun clear => ?_⟩
    have outside : d.location ∉ plan.written := clear.elim
      (fun clear => Plan.spares_documents ht h output clear ht rfl d ((Plan.mem_order ht h).1 hd)) id
    have rooted := ordered.document d hd
    have before : t.readText d = .ok content :=
      ((Build.keeps_turn ht ordered placed hd).readText_iff ht rooted outside).1 read
    exact ⟨before, (kept.readText_iff ht rooted outside).2 before⟩
  · have nodup : (Build.run plan t).manifest.sources.Nodup :=
      ordered.nodup_relative.sublist accounted.sources
    simp only [Manifest.read, stored]
    exact Manifest.parse_serialize nodup

/-! ### A project with leftovers -/

def leftoverText : Text := "> **Reference**: [a](a.isl.md)\n> **Reference**: [c](c.isl.md)".toList

/-- A document that is no text any more but has an interface, one that refers to it and to a third,
and the third. -/
def leftover : Tree where
  entries :=
    [(["a.isl.md".toList], .file ⟨#[0xff]⟩),
     (["b.isl.md".toList], .file leftoverText.bytes),
     (["build".toList], .directory),
     (["build".toList, "a.ref.md".toList], .file (Text.bytes "# A".toList)),
     (["c.isl.md".toList], .file (Text.bytes "# C".toList))]
  workDir := []

def leftoverPlan : Plan where
  config := .default
  graph :=
    { root := ⟨"/".toList⟩
      nodes := [⟨"/a.isl.md".toList⟩, ⟨"/b.isl.md".toList⟩, ⟨"/c.isl.md".toList⟩]
      edges :=
        [{ dependency := ⟨"/a.isl.md".toList⟩, dependent := ⟨"/b.isl.md".toList⟩ },
         { dependency := ⟨"/c.isl.md".toList⟩, dependent := ⟨"/b.isl.md".toList⟩ }] }
  order := [⟨"/a.isl.md".toList⟩, ⟨"/c.isl.md".toList⟩, ⟨"/b.isl.md".toList⟩]

theorem wellFormed_leftover : leftover.WellFormed := by decide

theorem sorted_leftover : Path.sort leftoverPlan.graph.nodes = leftoverPlan.graph.nodes :=
  Path.sort_of_pairwise (by decide)

theorem discover_leftover :
    discover leftover ⟨".".toList⟩ .default = leftoverPlan.graph.nodes :=
  .trans (congrArg Path.sort (Path.map_text_injective (by decide))) sorted_leftover

theorem make_leftover : Plan.make leftover ⟨".".toList⟩ .default = .ok leftoverPlan := by
  refine Plan.make_of_swept leftoverPlan discover_leftover (List.cons_ne_nil _ _) rfl ?_ (by decide)
  rw [Graph.swept, Sweep.start, sorted_leftover]
  exact Path.map_text_injective (by decide +kernel)

theorem build_matches_manifest_leftover : ∃ after summary,
    build leftover ⟨".".toList⟩ .default = (after, .ok summary) ∧
      (summary.manifest.sources ++ summary.failures.map BuildFailure.source).Perm
        ["a.isl.md".toList, "c.isl.md".toList, "b.isl.md".toList] ∧
      (∀ e ∈ summary.manifest.entries, ∃ context,
        after.readText ((Path.absolute leftover.workPath ⟨".".toList⟩).join e.buildPath) =
            .ok context ∧ Text.sha256 context = e.hash) ∧
      Manifest.read after summary.manifestPath = .ok summary.manifest := by
  have ended : (build leftover ⟨".".toList⟩ .default).2.toOption.isSome = true := by
    rw [build, make_leftover]
    decide +kernel
  obtain ⟨summary, ended⟩ := Option.isSome_iff_exists.1 ended
  rw [toOption_eq_some_iff] at ended
  have built : build leftover ⟨".".toList⟩ .default =
      ((build leftover ⟨".".toList⟩ .default).1, .ok summary) := Prod.ext rfl ended
  obtain ⟨plan, made, -, -, -, all, -, entries, manifest⟩ :=
    build_matches_manifest wellFormed_leftover (by decide) built
  obtain rfl := Except.ok.inj (make_leftover.symm.trans made)
  have relative : leftoverPlan.order.map leftoverPlan.relative =
      ["a.isl.md".toList, "c.isl.md".toList, "b.isl.md".toList] := by decide +kernel
  rw [relative] at all
  refine ⟨_, summary, built, all, fun e he => ?_, manifest⟩
  obtain ⟨-, -, -, build, -⟩ := entries e he
  exact build

/-! ### A backslash in the output -/

/-- The scan does not recognize this output directory. -/
def crossedConfig : Config :=
  { Config.default with output := "o\\o".toList, suffix := ".md".toList }

/-- A document, and an interface of it from an earlier build, which is another document. -/
def buried : Tree where
  entries :=
    [(["o\\o".toList], .directory),
     (["o\\o".toList, "x.ref.md".toList], .file (Text.bytes "old".toList)),
     (["x.md".toList], .file (Text.bytes "# X".toList))]
  workDir := []

def buriedPlan : Plan where
  config := crossedConfig
  graph :=
    { root := ⟨"/".toList⟩
      nodes := [⟨"/o\\o/x.ref.md".toList⟩, ⟨"/x.md".toList⟩]
      edges := [] }
  order := [⟨"/o\\o/x.ref.md".toList⟩, ⟨"/x.md".toList⟩]

theorem sorted_buried : Path.sort buriedPlan.graph.nodes = buriedPlan.graph.nodes :=
  Path.sort_of_pairwise (by decide)

theorem discover_buried :
    discover buried ⟨".".toList⟩ crossedConfig = buriedPlan.graph.nodes :=
  .trans (congrArg Path.sort (Path.map_text_injective (by decide))) sorted_buried

theorem make_buried : Plan.make buried ⟨".".toList⟩ crossedConfig = .ok buriedPlan := by
  refine Plan.make_of_swept buriedPlan discover_buried (List.cons_ne_nil _ _) rfl ?_ (by decide)
  rw [Graph.swept, Sweep.start, sorted_buried]
  exact Path.map_text_injective (by decide +kernel)

/-- The old interface is built as a document and then written over, so what was made from it is not
its interface any more. -/
theorem buried_interface_outdated :
    let after := (build buried ⟨".".toList⟩ crossedConfig).1
    (build buried ⟨".".toList⟩ crossedConfig).2.toOption.map BuildSummary.failures = some [] ∧
      (after.readText ⟨"/o\\o/x.ref.md".toList⟩).toOption =
        some "<!-- INTERFACE (REF) FOR: x.md -->\n# X".toList ∧
      (after.readText ⟨"/o\\o/o\\o/x.ref.ref.md".toList⟩).toOption =
        some (Interface.project "x.ref.md".toList "old".toList) := by
  rw [build, make_buried]
  decide +kernel

end IslDocs
