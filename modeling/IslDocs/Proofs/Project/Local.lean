import IslDocs.Proofs.Project.Freshness

/-! Staleness is local. What a check renders for a document and the status it reports depend on the
document's own text, on the interfaces of the documents that its reference lines name, and on the
manifest. Two trees that agree on these may have other graphs and other build orders: in both, the
interfaces at hand in the document's turn are those of its own dependencies as they are. -/

namespace IslDocs

open Project (discover referencesOf)

variable {t t' : Tree} {root d p : Path} {config : Config} {plan plan' : Plan} {m : Manifest}
  {content : Text} {f g : Path → Option Text}

/-! ### Plans of one project -/

/-- Plans with the same root, configuration and documents; their edges and orders may differ. -/
structure Plan.SameDocuments (plan plan' : Plan) : Prop where
  config : plan'.config = plan.config
  root : plan'.graph.root = plan.graph.root
  contains : ∀ p, plan'.graph.contains p = plan.graph.contains p

namespace Plan

theorem sameDocuments (ht : t.WellFormed) (ht' : t'.WellFormed)
    (h : make t root config = .ok plan) (h' : make t' root config = .ok plan')
    (place : Path.absolute t'.workPath root = Path.absolute t.workPath root)
    (documents : ∀ p, p ∈ discover t' root config ↔ p ∈ discover t root config) :
    plan.SameDocuments plan' where
  config := (make_eq_ok h').2.1.trans (make_eq_ok h).2.1.symm
  root := by rw [root_eq ht' h', root_eq ht h, place]
  contains := by
    intro p
    rw [contains_graph ht' h', contains_graph ht h, Bool.eq_iff_iff,
      List.contains_iff_exists_mem_beq, List.contains_iff_exists_mem_beq]
    simp only [documents]

namespace SameDocuments

variable (same : plan.SameDocuments plan')
include same

theorem relative (p : Path) : plan'.relative p = plan.relative p := by
  simp [Plan.relative, Graph.relative, same.root]

theorem artifactPaths (p : Path) : plan'.artifactPaths p = plan.artifactPaths p := by
  simp [Plan.artifactPaths, artifactDir, stem, outputDir, Graph.relative, same.root, same.config]

theorem manifestPath : plan'.manifestPath = plan.manifestPath := by
  simp [Plan.manifestPath, outputDir, same.root, same.config]

theorem dependencyWith : plan'.dependencyWith = plan.dependencyWith := by
  funext p text
  rw [Plan.dependencyWith, Plan.dependencyWith, same.artifactPaths]

/-- Where the plans agree, so do the artifacts, given the same interfaces for what is referred to. -/
theorem renderContent (read : t.readText d = .ok content)
    (interfaces : ∀ p ∈ referencesOf t d, plan.graph.contains p = true → f p = g p) :
    plan'.renderContent d g content = plan.renderContent d f content := by
  have dependencies : plan'.dependency? d g = plan.dependency? d g := by
    funext target
    simp only [dependency?, same.contains, same.dependencyWith]
  rw [Plan.renderContent_congr read interfaces]
  simp [Plan.renderContent, renderedWith, dependencies, same.artifactPaths, same.relative]

end SameDocuments
end Plan

/-! ### One document of a check -/

namespace Freshness

/-- A check when it comes to a document. -/
def turn (plan : Plan) (t : Tree) (m : Manifest) (d : Path) : Progress :=
  (plan.before d).foldl (step plan t m) start

/-- The artifacts of a document as a check renders them in its turn. -/
def rendered (plan : Plan) (t : Tree) (m : Manifest) (d : Path) : Except Fault Rendered :=
  plan.render t d fun p => List.lookup p (turn plan t m d).interfaces

theorem rendered_eq (ordered : plan.Ordered t) (hd : d ∈ plan.order) (m : Manifest) :
    rendered plan t m d = plan.render t d (Plan.currentInterface t) := by
  obtain ⟨before, after, split⟩ := List.append_of_mem hd
  have checked : Checked plan t m before (turn plan t m d) := by
    rw [turn, ordered.before_eq split]
    exact (checked_start plan t m).foldl ordered (by simpa using split)
  rw [rendered, Plan.render, Plan.render]
  cases read : t.readText d with
  | error fault => rfl
  | ok content => exact congrArg Except.ok (checked.renderContent_eq ordered split read)

/-- The status of a document by its artifacts as the texts in the tree give them. -/
theorem statusOf_eq (plan : Plan) (t : Tree) (m : Manifest) (d : Path) :
    statusOf plan t m d = match (plan.render t d (Plan.currentInterface t)).toOption with
      | none => .stale
      | some r => ofEntry (m.entry? (plan.relative d)) r.entry.hash := by
  rw [statusOf, Plan.render]
  cases t.readText d <;> rfl

theorem filter_source_of_notMem {statuses : List DocumentStatus} {source : Text}
    (new : source ∉ statuses.map DocumentStatus.source) :
    statuses.filter (·.source == source) = [] :=
  List.filter_eq_nil_iff.2 fun s hs same => new (List.mem_map.2 ⟨s, hs, beq_iff_eq.1 same⟩)

theorem filter_source_of_mem {statuses : List DocumentStatus} {s : DocumentStatus}
    (nodup : (statuses.map DocumentStatus.source).Nodup) (hs : s ∈ statuses) :
    statuses.filter (·.source == s.source) = [s] := by
  obtain ⟨before, after, rfl⟩ := List.append_of_mem hs
  rw [List.map_append, List.map_cons, List.nodup_middle, List.nodup_cons, List.mem_append,
    not_or] at nodup
  simp [filter_source_of_notMem nodup.1.1, filter_source_of_notMem nodup.1.2]

/-- A check has one status for each document. -/
theorem filter_statuses (ordered : plan.Ordered t) (hd : d ∈ plan.order) (m : Manifest) :
    (current plan t m ++ removedFrom m ((current plan t m).map DocumentStatus.source)).filter
        (·.source == plan.relative d) =
      [{ source := plan.relative d, status := statusOf plan t m d }] := by
  have listed : { source := plan.relative d, status := statusOf plan t m d } ∈
      current plan t m := by
    rw [current_eq ordered]
    exact List.mem_map_of_mem hd
  have nodup : ((current plan t m).map DocumentStatus.source).Nodup := by
    rw [current_eq ordered, List.map_map]
    exact ordered.nodup_relative
  have gone : plan.relative d ∉ (removedFrom m
      ((current plan t m).map DocumentStatus.source)).map DocumentStatus.source := by
    intro removed
    rw [removedFrom, List.map_map] at removed
    obtain ⟨e, he, same⟩ := List.mem_map.1 removed
    have known := List.mem_map_of_mem (f := DocumentStatus.source) listed
    have absent := (List.mem_filter.1 he).2
    rw [show e.source = plan.relative d from same, List.contains_iff_mem.2 known] at absent
    cases absent
  rw [List.filter_append, filter_source_of_notMem gone, List.append_nil]
  exact filter_source_of_mem nodup listed

end Freshness

/-! ### Two trees -/

/-- Where the manifest of a project belongs. -/
def Project.manifestPath (t : Tree) (root : Path) (config : Config) : Path :=
  ((Path.absolute t.workPath root).join config.output).join Manifest.fileName

/-- Trees with the same project at a root as far as its documents' names and its manifest go. -/
structure SameProject (t t' : Tree) (root : Path) (config : Config) : Prop where
  place : Path.absolute t'.workPath root = Path.absolute t.workPath root
  documents : ∀ p, p ∈ discover t' root config ↔ p ∈ discover t root config
  manifest : t'.readText (Project.manifestPath t root config) =
    t.readText (Project.manifestPath t root config)

/-- Trees in which a document has the same bytes and what it refers to has the same interface, or is
not readable in either. -/
structure Alike (t t' : Tree) (root : Path) (config : Config) (d : Path) : Prop where
  bytes : t'.content? d.location = t.content? d.location
  interfaces : ∀ p ∈ referencesOf t d, p ∈ discover t root config →
    Plan.currentInterface t' p = Plan.currentInterface t p

theorem SameProject.manifest_read (same : SameProject t t' root config) (ht : t.WellFormed)
    (ht' : t'.WellFormed) (h : Plan.make t root config = .ok plan)
    (h' : Plan.make t' root config = .ok plan') :
    Manifest.read t' plan'.manifestPath = Manifest.read t plan.manifestPath := by
  have place : plan.manifestPath = Project.manifestPath t root config := by
    rw [Plan.manifestPath, Plan.outputDir, Plan.root_eq ht h, (Plan.make_eq_ok h).2.1]
    rfl
  simp [(Plan.sameDocuments ht ht' h h' same.place same.documents).manifestPath, place,
    Manifest.read, same.manifest]

/-- From the interfaces as they are, a document has the same artifacts in both trees. -/
theorem Alike.render (alike : Alike t t' root config d) (ht : t.WellFormed) (ht' : t'.WellFormed)
    (h : Plan.make t root config = .ok plan) (same : plan.SameDocuments plan')
    (hd : d ∈ plan.order) :
    (plan'.render t' d (Plan.currentInterface t')).toOption =
      (plan.render t d (Plan.currentInterface t)).toOption := by
  obtain ⟨loc, plain, place⟩ := Plan.rooted_document ht h hd
  have text : (t'.readText d).toOption = (t.readText d).toOption := by
    have bytes := alike.bytes
    rw [place, Path.location_ofLocation plain] at bytes
    rw [place]
    exact ht.toOption_readText_congr ht' plain bytes
  rw [Plan.render, Plan.render]
  cases read : t.readText d with
  | error fault =>
    cases read' : t'.readText d with
    | error fault' => rfl
    | ok content => simp [read, read', Except.toOption] at text
  | ok content =>
    rw [read] at text
    rw [toOption_eq_some_iff.1 text]
    refine congrArg some (same.renderContent read fun p hp known => ?_)
    have listed := (Plan.ordered ht h).mem_of_split (List.append_nil _).symm hd hp known
    exact (alike.interfaces p hp ((Plan.mem_order ht h).1 listed)).symm

/-- A check renders a document alike and gives it the same status in both trees, whatever else
they hold. -/
theorem check_local (ht : t.WellFormed) (ht' : t'.WellFormed)
    (project : SameProject t t' root config) {statuses statuses' : List DocumentStatus}
    (checked : check t root config = .ok statuses) (checked' : check t' root config = .ok statuses')
    (hd : d ∈ discover t root config) (alike : Alike t t' root config d) :
    ∃ plan plan' m,
      Plan.make t root config = .ok plan ∧ Plan.make t' root config = .ok plan' ∧
      Manifest.read t plan.manifestPath = .ok m ∧ Manifest.read t' plan'.manifestPath = .ok m ∧
      (Freshness.rendered plan' t' m d).toOption = (Freshness.rendered plan t m d).toOption ∧
      ∃ status : DocumentStatus, status.source = plan.relative d ∧
        statuses.filter (·.source == plan.relative d) = [status] ∧
        statuses'.filter (·.source == plan.relative d) = [status] := by
  obtain ⟨plan, h, checked⟩ := bind_eq_ok_iff.1 checked
  obtain ⟨m, read, checked⟩ := bind_eq_ok_iff.1 checked
  obtain ⟨plan', h', checked'⟩ := bind_eq_ok_iff.1 checked'
  obtain ⟨m', read', checked'⟩ := bind_eq_ok_iff.1 checked'
  obtain rfl := Except.ok.inj checked
  obtain rfl := Except.ok.inj checked'
  have same := Plan.sameDocuments ht ht' h h' project.place project.documents
  have again := project.manifest_read ht ht' h h'
  rw [read, read'] at again
  obtain rfl := Except.ok.inj again
  have listed := (Plan.mem_order ht h).2 hd
  have listed' := (Plan.mem_order ht' h').2 ((project.documents d).2 hd)
  have rendered := alike.render ht ht' h same listed
  refine ⟨plan, plan', m', h, h', read, read', ?_, ?_⟩
  · rw [Freshness.rendered_eq (Plan.ordered ht h) listed,
      Freshness.rendered_eq (Plan.ordered ht' h') listed', rendered]
  · refine ⟨{ source := plan.relative d, status := Freshness.statusOf plan t m' d }, rfl,
      Freshness.filter_statuses (Plan.ordered ht h) listed m', ?_⟩
    have status : Freshness.statusOf plan' t' m' d = Freshness.statusOf plan t m' d := by
      rw [Freshness.statusOf_eq, Freshness.statusOf_eq, rendered, same.relative]
    have := Freshness.filter_statuses (Plan.ordered ht' h') listed' m'
    rwa [status, same.relative] at this

/-! ### Orders turned around -/

/-- Three documents, the second of which refers to the first, and a manifest that has another hash
for it. -/
def trio (first third : Text) : Tree where
  entries :=
    [(["a.isl.md".toList], .file first.bytes),
     (["b.isl.md".toList], .file (Text.bytes "> **Reference**: [a](a.isl.md)".toList)),
     (["build".toList], .directory),
     (["build".toList, Manifest.fileName],
      .file (Text.bytes "[[\"\", \"\", null, \"\", \"b.isl.md\"]]".toList)),
     (["c.isl.md".toList], .file third.bytes)]
  workDir := []

/-- The third document comes last. -/
def endsInC : Tree :=
  trio "# A\n**Flow**:\n1. Wait".toList "> **Reference**: [b](b.isl.md)".toList

/-- The third document comes first, since the flow of the first one refers to it. -/
def startsFromC : Tree := trio "# A\n**Flow**:\n> **Reference**: [c](c.isl.md)".toList "# C".toList

def trioNodes : List Path :=
  [⟨"/a.isl.md".toList⟩, ⟨"/b.isl.md".toList⟩, ⟨"/c.isl.md".toList⟩]

def planToC : Plan where
  config := .default
  graph :=
    { root := ⟨"/".toList⟩
      nodes := trioNodes
      edges :=
        [{ dependency := ⟨"/a.isl.md".toList⟩, dependent := ⟨"/b.isl.md".toList⟩ },
         { dependency := ⟨"/b.isl.md".toList⟩, dependent := ⟨"/c.isl.md".toList⟩ }] }
  order := trioNodes

def planFromC : Plan where
  config := .default
  graph :=
    { root := ⟨"/".toList⟩
      nodes := trioNodes
      edges :=
        [{ dependency := ⟨"/c.isl.md".toList⟩, dependent := ⟨"/a.isl.md".toList⟩ },
         { dependency := ⟨"/a.isl.md".toList⟩, dependent := ⟨"/b.isl.md".toList⟩ }] }
  order := [⟨"/c.isl.md".toList⟩, ⟨"/a.isl.md".toList⟩, ⟨"/b.isl.md".toList⟩]

theorem workPath_trio (first third : Text) : (trio first third).workPath = .ofLocation [] := rfl

theorem sorted_trio : Path.sort trioNodes = trioNodes :=
  Path.sort_of_pairwise (by decide)

theorem discover_endsInC : discover endsInC ⟨".".toList⟩ .default = trioNodes :=
  .trans (congrArg Path.sort (Path.map_text_injective (by decide))) sorted_trio

theorem discover_startsFromC : discover startsFromC ⟨".".toList⟩ .default = trioNodes :=
  .trans (congrArg Path.sort (Path.map_text_injective (by decide))) sorted_trio

theorem make_endsInC : Plan.make endsInC ⟨".".toList⟩ .default = .ok planToC := by
  have sorted : Path.sort planToC.graph.nodes = planToC.graph.nodes := sorted_trio
  refine Plan.make_of_swept planToC discover_endsInC (List.cons_ne_nil _ _) rfl ?_ (by decide)
  rw [Graph.swept, Sweep.start, sorted]
  exact Path.map_text_injective (by decide +kernel)

theorem make_startsFromC : Plan.make startsFromC ⟨".".toList⟩ .default = .ok planFromC := by
  have sorted : Path.sort planFromC.graph.nodes = planFromC.graph.nodes := sorted_trio
  refine Plan.make_of_swept planFromC discover_startsFromC (List.cons_ne_nil _ _) rfl ?_ (by decide)
  rw [Graph.swept, Sweep.start, sorted]
  exact Path.map_text_injective (by decide +kernel)

theorem sameProject_trio : SameProject endsInC startsFromC ⟨".".toList⟩ .default where
  place := by rw [startsFromC, endsInC, workPath_trio, workPath_trio]
  documents := by
    rw [discover_endsInC, discover_startsFromC]
    exact fun _ => Iff.rfl
  manifest := by
    have path : ((Path.absolute (.ofLocation []) ⟨".".toList⟩).join Config.default.output).join
        Manifest.fileName = ⟨"/build/build-manifest.json".toList⟩ :=
      List.singleton_inj.1 (Path.map_text_injective (by decide))
    rw [Project.manifestPath, endsInC, workPath_trio, path]
    decide

theorem alike_trio :
    Alike endsInC startsFromC ⟨".".toList⟩ .default ⟨"/b.isl.md".toList⟩ where
  bytes := by decide
  interfaces := by
    have references : referencesOf endsInC ⟨"/b.isl.md".toList⟩ = [⟨"/a.isl.md".toList⟩] :=
      Path.map_text_injective (by decide)
    rw [references]
    intro p hp _
    rw [List.mem_singleton.1 hp]
    decide

/-- The orders differ, but the second document has one status. -/
theorem check_local_trio : ∃ status, ∀ t ∈ [endsInC, startsFromC], ∃ statuses,
    check t ⟨".".toList⟩ .default = .ok statuses ∧
      statuses.filter (·.source == "b.isl.md".toList) = [status] := by
  have checks : ∀ t plan, Plan.make t ⟨".".toList⟩ .default = .ok plan →
      (Manifest.read t plan.manifestPath).toOption.isSome = true →
        ∃ statuses, check t ⟨".".toList⟩ .default = .ok statuses := by
    intro t plan made read
    obtain ⟨m, read⟩ := Option.isSome_iff_exists.1 read
    rw [toOption_eq_some_iff] at read
    exact ⟨_, bind_eq_ok_iff.2 ⟨plan, made, bind_eq_ok_iff.2 ⟨m, read, rfl⟩⟩⟩
  obtain ⟨_, checked⟩ := checks _ _ make_endsInC (by decide +kernel)
  obtain ⟨_, checked'⟩ := checks _ _ make_startsFromC (by decide +kernel)
  have document : ⟨"/b.isl.md".toList⟩ ∈ discover endsInC ⟨".".toList⟩ .default := by
    rw [discover_endsInC]
    exact List.mem_cons_of_mem _ List.mem_cons_self
  obtain ⟨plan, -, -, made, -, -, -, -, status, -, first, second⟩ :=
    check_local (by decide +kernel) (by decide +kernel) sameProject_trio checked checked' document
      alike_trio
  obtain rfl := Except.ok.inj (make_endsInC.symm.trans made)
  refine ⟨status, ?_⟩
  rw [List.forall_mem_cons, List.forall_mem_singleton]
  exact ⟨⟨_, checked, first⟩, _, checked', second⟩

end IslDocs
