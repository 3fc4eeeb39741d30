import IslDocs.Proofs.Project.Inlined

/-! The dependencies of a document against the interfaces that its rendering asks for. Both come from
its reference lines, once when the graph is made and once when the build context is put together. To
see what is asked for and in which order, the rendering is written with an interface function that
may have effects; recording each question then gives exactly the dependencies in the graph, all of
which come earlier in the build order. -/

namespace IslDocs

open Project (discover referencesOf)

variable {t : Tree} {root d p : Path} {config : Config} {plan : Plan} {content : Text}
  {m : Type → Type} [Monad m]

/-! ### Rendering with effects -/

/-- The build context of a document, each reference target looked up when its line is reached. -/
def BuildContext.composeAsking (name content : Text) (lookup : Text → m (Option Dependency)) :
    m BuildContext := do
  return assemble name content (← (targets content).filterMapM lookup)

/-- Look-ups that write down what they ask for write it down one after the other. -/
theorem BuildContext.run_filterMapM_writing {α β γ : Type} {g : α → StateM (List β) (Option γ)}
    {answer : α → Option γ} {asked : α → List β}
    (each : ∀ a log, (g a).run log = pure (answer a, log ++ asked a)) {as : List α}
    {log : List β} :
    (as.filterMapM g).run log = pure (as.filterMap answer, log ++ as.flatMap asked) := by
  induction as generalizing log with
  | nil => simp
  | cons a rest ih =>
    rw [List.filterMapM_cons, StateT.run_bind, each, pure_bind, List.filterMap_cons,
      List.flatMap_cons, ← List.append_assoc]
    cases answer a with
    | none => exact ih
    | some c => simp [ih]

namespace Plan

/-- The interface of a reference target, asked for only if it is a document. -/
def dependencyAsking (plan : Plan) (document : Path) (interfaceOf : Path → m (Option Text))
    (target : Text) : m (Option Dependency) := do
  let path := Path.resolveAgainst document target
  if plan.graph.contains path then
    return (← interfaceOf path).map (plan.dependencyWith path)
  else return none

def renderAsking (plan : Plan) (t : Tree) (document : Path)
    (interfaceOf : Path → m (Option Text)) : m (Except Fault Rendered) :=
  match t.readText document with
  | .error fault => return .error fault
  | .ok content => do
    let context ← BuildContext.composeAsking document.fileName content
      (plan.dependencyAsking document interfaceOf)
    return .ok (plan.renderedWith document content context)

/-- Answers as `f` does and writes the question down. -/
def recording (f : Path → Option Text) (p : Path) : StateM (List Path) (Option Text) := do
  modify (· ++ [p])
  return f p

variable {f : Path → Option Text} {log : List Path}

theorem run_dependencyAsking (target : Text) :
    (plan.dependencyAsking d (recording f) target).run log =
      pure (plan.dependency? d f target,
        log ++ [Path.resolveAgainst d target].filter plan.graph.contains) := by
  rw [dependencyAsking, dependency?]
  cases known : plan.graph.contains (Path.resolveAgainst d target) with
  | false => simp [known]
  | true =>
    simp [known, recording]

/-- Looking up targets one after the other asks for the documents among them, in order. -/
theorem run_filterMapM (targets : List Text) :
    (targets.filterMapM (plan.dependencyAsking d (recording f))).run log =
      pure (targets.filterMap (plan.dependency? d f),
        log ++ (targets.map (Path.resolveAgainst d)).filter plan.graph.contains) := by
  have each (target : Text) (log : List Path) :
      (plan.dependencyAsking d (recording f) target).run log = pure (plan.dependency? d f target,
        log ++ [Path.resolveAgainst d target].filter plan.graph.contains) :=
    run_dependencyAsking target
  rw [BuildContext.run_filterMapM_writing each, ← List.filter_flatMap, List.map_eq_flatMap]

/-- The rendering with effects is the rendering, and what it asks for are the documents that the
reference lines name. -/
theorem run_renderAsking (read : t.readText d = .ok content) :
    (plan.renderAsking t d (recording f)).run [] =
      pure (plan.render t d f, ((BuildContext.targets content).map (Path.resolveAgainst d)).filter
        plan.graph.contains) := by
  rw [renderAsking, read, render, read]
  simp only [BuildContext.composeAsking, StateT.run_bind, run_filterMapM, pure_bind]
  rfl

/-- One block for each document named, from the answer for it. -/
theorem context_renderContent_eq (f : Path → Option Text) :
    (plan.renderContent d f content).context =
      BuildContext.textWith d.fileName content
        ((((BuildContext.targets content).map (Path.resolveAgainst d)).filter
          plan.graph.contains).filterMap fun p => (f p).map (plan.dependencyWith p)) := by
  have each : (BuildContext.targets content).filterMap (plan.dependency? d f) =
      (((BuildContext.targets content).map (Path.resolveAgainst d)).filter
        plan.graph.contains).filterMap fun p => (f p).map (plan.dependencyWith p) := by
    rw [List.filterMap_filter, List.filterMap_map]
    rfl
  rw [← each]
  rfl

end Plan

/-- The dependencies of a readable document in the graph are the documents that its reference lines
name, line by line. Its rendering asks for the interfaces of exactly these, in this order, and each
of them stands before it in the build order. -/
theorem dependencies_asked_in_order (ht : t.WellFormed) (h : Plan.make t root config = .ok plan)
    (hd : d ∈ plan.order) (read : t.readText d = .ok content) :
    let documents := discover t root config
    let named := (((Text.dropMark content).lines.filterMap Reference.target?).map
      (Path.resolveAgainst d)).filter documents.contains
    plan.graph.dependenciesOf d = named ∧
      (∀ f, (plan.renderAsking t d (Plan.recording f)).run [] = pure (plan.render t d f, named)) ∧
      (∀ f, ∃ r, plan.render t d f = .ok r ∧
        r.context = BuildContext.textWith d.fileName content
          (named.filterMap fun p => (f p).map (plan.dependencyWith p))) ∧
      (∃ after, plan.order = plan.before d ++ d :: after ∧ d ∉ plan.before d ∧ d ∉ after) ∧
      ∀ p ∈ named, p ∈ documents ∧ p ∈ plan.before d := by
  intro documents named
  have ordered := Plan.ordered ht h
  have known : plan.graph.contains = documents.contains :=
    funext fun p => Plan.contains_graph ht h p
  have references : (referencesOf t d).filter documents.contains = named := by
    rw [referencesOf, read]
    rfl
  obtain ⟨before, after, split⟩ := List.append_of_mem hd
  have here := ordered.before_eq split
  refine ⟨?_, fun f => ?_, fun f => ⟨_, congrArg _ read, ?_⟩, ⟨after, ?_⟩, fun p hp => ?_⟩
  · rw [(Plan.make_eq_ok h).2.2.1, ← references]
    exact Project.dependenciesOf_graph (Project.distinct_discover ht) ((Plan.mem_order ht h).1 hd)
  · rw [Plan.run_renderAsking read, known]
    rfl
  · rw [Plan.context_renderContent_eq, known]
    rfl
  · have nodup := ordered.nodup
    rw [split, List.nodup_middle, List.nodup_cons, List.mem_append, not_or] at nodup
    exact here ▸ ⟨split, nodup.1⟩
  · rw [← references, List.mem_filter] at hp
    have earlier := ordered.before before d after split p hp.1 (known ▸ hp.2)
    exact ⟨(Plan.mem_order ht h).1 (by simp [split, earlier]), here ▸ earlier⟩

/-! ### References in many spellings -/

/-- Behind a byte-order mark, the same document twice and between them one that does not exist. -/
def spelledText : Text :=
  ("\uFEFF> **Reference**: [a](./a.isl.md)\n> **Reference**: [n](n.isl.md)\n" ++
    "> **Reference**: [a](/a.isl.md)").toList

def spelled : Tree where
  entries :=
    [(["a.isl.md".toList], .file (Text.bytes "# A".toList)),
     (["b.isl.md".toList], .file spelledText.bytes)]
  workDir := []

def spelledDependencies : List Path := [⟨"/a.isl.md".toList⟩, ⟨"/a.isl.md".toList⟩]

def spelledPlan : Plan where
  config := .default
  graph :=
    { root := ⟨"/".toList⟩
      nodes := [⟨"/a.isl.md".toList⟩, ⟨"/b.isl.md".toList⟩]
      edges := spelledDependencies.map
        ({ dependency := ·, dependent := ⟨"/b.isl.md".toList⟩ }) }
  order := [⟨"/a.isl.md".toList⟩, ⟨"/b.isl.md".toList⟩]

theorem sorted_spelled : Path.sort spelledPlan.graph.nodes = spelledPlan.graph.nodes :=
  Path.sort_of_pairwise (by decide)

theorem discover_spelled : discover spelled ⟨".".toList⟩ .default = spelledPlan.graph.nodes :=
  .trans (congrArg Path.sort (Path.map_text_injective (by decide))) sorted_spelled

theorem make_spelled : Plan.make spelled ⟨".".toList⟩ .default = .ok spelledPlan := by
  refine Plan.make_of_swept spelledPlan discover_spelled (List.cons_ne_nil _ _) rfl ?_ (by decide)
  rw [Graph.swept, Sweep.start, sorted_spelled]
  exact Path.map_text_injective (by decide +kernel)

theorem spelled_asked_in_order :
    let b : Path := ⟨"/b.isl.md".toList⟩
    spelledPlan.graph.dependenciesOf b = spelledDependencies ∧
      (∀ f, (spelledPlan.renderAsking spelled b (Plan.recording f)).run [] =
        pure (spelledPlan.render spelled b f, spelledDependencies)) ∧
      ∀ p ∈ spelledDependencies, p ∈ spelledPlan.before b := by
  intro b
  have listed : b ∈ spelledPlan.order := by simp [b, spelledPlan]
  have read : spelled.readText b = .ok spelledText := rfl
  have named : (((Text.dropMark spelledText).lines.filterMap Reference.target?).map
      (Path.resolveAgainst b)).filter (discover spelled ⟨".".toList⟩ .default).contains =
        spelledDependencies := by
    rw [discover_spelled]
    exact Path.map_text_injective (by decide)
  obtain ⟨dependencies, asked, -, -, earlier⟩ :=
    dependencies_asked_in_order (by decide) make_spelled listed read
  rw [named] at dependencies earlier
  refine ⟨dependencies, fun f => ?_, fun p hp => (earlier p hp).2⟩
  rw [asked f, named]

end IslDocs
