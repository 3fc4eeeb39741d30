import IslDocs.Proofs.Interface.Spacing
import IslDocs.Proofs.Json.Lexing
import IslDocs.Proofs.Project.Local
import IslDocs.Proofs.Tree.Contents

/-! Blank lines make nothing stale. In two trees whose texts differ in blank lines only, a project
has the same documents, references and build order, and every build context is the same text, though
the interfaces in it may have ended differently before it was put together. The manifest, too, may
differ in blank lines. -/

namespace IslDocs

open Project (discover referencesOf)
open Text (Equispaced)

variable {t t' : Tree} {root d p : Path} {config : Config} {plan : Plan} {m : Manifest}

/-! ### Trees that differ in blank lines -/

/-- Trees with the same files, in which every path is read as the same text but for blank lines, or
fails alike. -/
structure Respaced (t t' : Tree) : Prop where
  workDir : t'.workDir = t.workDir
  files : ∀ loc, t'.filesBelow loc = t.filesBelow loc
  texts : ∀ p, (t'.readText p).map Text.collapse = (t.readText p).map Text.collapse

theorem Manifest.parse_collapse (t : Text) : parse (Text.collapse t) = parse t := by
  simp [parse, Json.parse?]

namespace Respaced

variable (h : Respaced t t')
include h

/-- A path is read in both trees or in neither. -/
theorem cases_readText (p : Path) :
    (∃ fault, t.readText p = .error fault ∧ t'.readText p = .error fault) ∨
      ∃ content content', t.readText p = .ok content ∧ t'.readText p = .ok content' ∧
        Text.collapse content = Text.collapse content' := by
  have same := h.texts p
  cases read : t.readText p with
  | error fault =>
    cases read' : t'.readText p with
    | error fault' =>
      rw [read, read'] at same
      exact Or.inl ⟨fault, rfl, congrArg _ (Except.error.inj same)⟩
    | ok content' =>
      rw [read, read'] at same
      cases same
  | ok content =>
    cases read' : t'.readText p with
    | error fault' =>
      rw [read, read'] at same
      cases same
    | ok content' =>
      rw [read, read'] at same
      exact Or.inr ⟨content, content', rfl, rfl, (Except.ok.inj same).symm⟩

theorem workPath : t'.workPath = t.workPath := by rw [Tree.workPath, Tree.workPath, h.workDir]

theorem discover_eq (root : Path) (config : Config) :
    discover t' root config = discover t root config := by
  simp only [discover, h.workPath, h.files]

theorem referencesOf_eq (d : Path) : referencesOf t' d = referencesOf t d := by
  rw [referencesOf, referencesOf]
  rcases h.cases_readText d with ⟨fault, read, read'⟩ | ⟨content, content', read, read', same⟩
  · rw [read, read']
  · have targets : BuildContext.targets content' = BuildContext.targets content := by
      rw [← BuildContext.targets_collapse, ← same, BuildContext.targets_collapse]
    simp only [read, read', targets]

theorem make_eq (root : Path) (config : Config) :
    Plan.make t' root config = Plan.make t root config := by
  rw [Plan.make, Plan.make, h.discover_eq,
    Project.graph_congr h.workDir fun d _ => h.referencesOf_eq d]

theorem manifest_read_eq (p : Path) : Manifest.read t' p = Manifest.read t p := by
  rw [Manifest.read, Manifest.read]
  rcases h.cases_readText p with ⟨fault, read, read'⟩ | ⟨content, content', read, read', same⟩
  · rw [read, read']
  · have parsed : Manifest.parse content' = Manifest.parse content := by
      rw [← Manifest.parse_collapse, ← same, Manifest.parse_collapse]
    simp only [read, read', parsed]

/-! ### Artifacts -/

theorem rel_currentInterface (p : Path) :
    Option.Rel Equispaced (Plan.currentInterface t p) (Plan.currentInterface t' p) := by
  rw [Plan.currentInterface, Plan.currentInterface]
  rcases h.cases_readText p with ⟨fault, read, read'⟩ | ⟨content, content', read, read', same⟩
  · rw [read, read']
    exact .none
  · rw [read, read']
    exact .some (equispaced_project p.fileName same)

theorem rel_dependency? (plan : Plan) (d : Path) (target : Text) :
    Option.Rel Dependency.Alike (plan.dependency? d (Plan.currentInterface t) target)
      (plan.dependency? d (Plan.currentInterface t') target) := by
  have interfaces := h.rel_currentInterface (Path.resolveAgainst d target)
  rw [Plan.dependency?, Plan.dependency?]
  generalize Plan.currentInterface t (Path.resolveAgainst d target) = interface at *
  generalize Plan.currentInterface t' (Path.resolveAgainst d target) = interface' at *
  split
  · cases interfaces with
    | none => exact .none
    | some same => exact .some ⟨rfl, same⟩
  · exact .none

/-- The interfaces may differ; everything else that is rendered is the same. -/
theorem render_eq (plan : Plan) (d : Path) :
    (plan.render t' d (Plan.currentInterface t')).map (fun r => (r.context, r.entry)) =
      (plan.render t d (Plan.currentInterface t)).map fun r => (r.context, r.entry) := by
  rw [Plan.render, Plan.render]
  rcases h.cases_readText d with ⟨fault, read, read'⟩ | ⟨content, content', read, read', same⟩
  · rw [read, read']
    rfl
  · let dependencies := fun t =>
      (BuildContext.targets content).filterMap (plan.dependency? d (Plan.currentInterface t))
    have alike : List.Forall₂ Dependency.Alike (dependencies t) (dependencies t') := by
      refine List.rel_filterMap (R := (· = ·)) ?_ (List.forall₂_same.2 fun _ _ => rfl)
      rintro target _ rfl
      exact h.rel_dependency? plan d target
    have context := BuildContext.compose_congr_of_collapse d.fileName same alike
    simp [read, read', Except.map, Plan.renderContent, Plan.renderedWith, context]

theorem statusOf_eq (plan : Plan) (m : Manifest) (d : Path) :
    Freshness.statusOf plan t' m d = Freshness.statusOf plan t m d := by
  have rendered := h.render_eq plan d
  rw [Freshness.statusOf, Freshness.statusOf]
  rcases h.cases_readText d with ⟨fault, read, read'⟩ | ⟨content, content', read, read', -⟩
  · rw [read, read']
  · simp only [Plan.render, read, read', Except.map, Except.ok.injEq, Prod.mk.injEq] at rendered
    simp only [read, read', rendered.2]

/-! ### The check -/

section
variable (ht : t.WellFormed) (ht' : t'.WellFormed) (made : Plan.make t root config = .ok plan)
include ht ht' made

theorem ordered : plan.Ordered t ∧ plan.Ordered t' :=
  ⟨Plan.ordered ht made, Plan.ordered ht' ((h.make_eq root config).trans made)⟩

theorem rendered_eq (hd : d ∈ plan.order) (m : Manifest) :
    (Freshness.rendered plan t' m d).map (fun r => (r.context, r.entry)) =
      (Freshness.rendered plan t m d).map fun r => (r.context, r.entry) := by
  obtain ⟨ordered, ordered'⟩ := h.ordered ht ht' made
  rw [Freshness.rendered_eq ordered hd, Freshness.rendered_eq ordered' hd, h.render_eq]

theorem current_eq (m : Manifest) : Freshness.current plan t' m = Freshness.current plan t m := by
  obtain ⟨ordered, ordered'⟩ := h.ordered ht ht' made
  rw [Freshness.current_eq ordered, Freshness.current_eq ordered']
  simp only [h.statusOf_eq]

theorem check_eq : check t' root config = check t root config := by
  have made' := (h.make_eq root config).trans made
  rw [check, check, made, made']
  simp only [bind, Except.bind, h.manifest_read_eq, h.current_eq ht ht' made]

end
end Respaced

/-! ### Blank lines collapsed -/

/-- The encoding of the collapsed text, or the same bytes if they are no text. -/
def Text.collapseBytes (bytes : ByteArray) : ByteArray :=
  match ofBytes? bytes with
  | some text => (collapse text).bytes
  | none => bytes

theorem Text.ofBytes?_collapseBytes (bytes : ByteArray) :
    ofBytes? (collapseBytes bytes) = (ofBytes? bytes).map collapse := by
  rw [collapseBytes]
  cases decoded : ofBytes? bytes with
  | none => simpa using decoded
  | some text => simp

namespace Tree

/-- The tree with blank lines collapsed in those text files that are chosen. -/
def tighten (chosen : Location → Bool) : Tree → Tree :=
  mapFiles fun loc bytes => if chosen loc then Text.collapseBytes bytes else bytes

variable {loc : Location} {chosen : Location → Bool}

@[simp] theorem locate_tighten (chosen : Location → Bool) (t : Tree) (p : Path) :
    (t.tighten chosen).locate p = t.locate p := locate_mapFiles _ t p

theorem readText_tighten (found : t.locate p = .ok loc) :
    (t.tighten chosen).readText p =
      (t.readText p).map fun content => if chosen loc then Text.collapse content else content := by
  simp only [tighten, readText, read_mapFiles found]
  cases t.read p with
  | error fault => rfl
  | ok bytes =>
    cases chosen loc with
    | true =>
      have decoded := Text.ofBytes?_collapseBytes bytes
      cases text : Text.ofBytes? bytes <;> simp_all [bind, Except.bind, Except.map]
    | false => cases text : Text.ofBytes? bytes <;> simp_all [bind, Except.bind, Except.map]

theorem respaced_tighten (t : Tree) (chosen : Location → Bool) : Respaced t (t.tighten chosen) where
  workDir := rfl
  files := filesBelow_mapFiles _ t
  texts := by
    intro p
    cases found : t.locate p with
    | error fault =>
      rw [readText_of_locate_error found,
        readText_of_locate_error ((locate_tighten chosen t p).trans found)]
    | ok loc =>
      rw [readText_tighten found]
      cases t.readText p with
      | error fault => rfl
      | ok content => cases chosen loc <;> simp [Except.map]

end Tree

theorem Project.readText_tighten (ht : t.WellFormed) (hd : d ∈ discover t root config)
    (chosen : Location → Bool) : (t.tighten chosen).readText d = (t.readText d).map fun content =>
      if chosen d.location then Text.collapse content else content := by
  obtain ⟨-, rel, rfl, -, -, content, held⟩ := (mem_discover ht).1 hd
  have plain := ht.plain_of_content? held
  rw [Path.location_ofLocation plain]
  cases found : t.locate (.ofLocation (base t root ++ rel)) with
  | error fault =>
    rw [Tree.readText_of_locate_error found,
      Tree.readText_of_locate_error ((Tree.locate_tighten chosen t _).trans found)]
    rfl
  | ok loc =>
    obtain ⟨rfl, -⟩ := (ht.locate_ofLocation plain).1 found
    exact Tree.readText_tighten found

/-- Whichever texts have their blank lines collapsed, the project has the same documents and plan,
each document in its turn gets the same build context and entry, and so every status is the same
against any manifest and against its own. -/
theorem check_tighten (ht : t.WellFormed) (h : Plan.make t root config = .ok plan)
    (chosen : Location → Bool) :
    let t' := t.tighten chosen
    (∀ d ∈ discover t root config, t'.readText d = (t.readText d).map fun content =>
        if chosen d.location then Text.collapse content else content) ∧
      discover t' root config = discover t root config ∧
      Plan.make t' root config = .ok plan ∧
      (∀ m, ∀ d ∈ plan.order,
        (Freshness.rendered plan t' m d).map (fun r => (r.context, r.entry)) =
          (Freshness.rendered plan t m d).map fun r => (r.context, r.entry)) ∧
      (∀ m, Freshness.current plan t' m = Freshness.current plan t m) ∧
      check t' root config = check t root config := by
  intro t'
  have same := t.respaced_tighten chosen
  have ht' : t'.WellFormed := ht.mapFiles _
  exact ⟨fun d hd => Project.readText_tighten ht hd chosen, same.discover_eq root config,
    (same.make_eq root config).trans h, fun m d hd => same.rendered_eq ht ht' h hd m,
    same.current_eq ht ht' h, same.check_eq ht ht' h⟩

/-! ### An interface that ends in empty lines -/

/-- The interface of the first document ends in one empty line, and in none if the blank lines of
the document are collapsed before. -/
def trailing : Tree := trio "# A\n\n\n".toList "> **Reference**: [b](b.isl.md)".toList

theorem discover_trailing : discover trailing ⟨".".toList⟩ .default = trioNodes :=
  .trans (congrArg Path.sort (Path.map_text_injective (by decide))) sorted_trio

theorem make_trailing : Plan.make trailing ⟨".".toList⟩ .default = .ok planToC := by
  have sorted : Path.sort planToC.graph.nodes = planToC.graph.nodes := sorted_trio
  refine Plan.make_of_swept planToC discover_trailing (List.cons_ne_nil _ _) rfl ?_ (by decide)
  rw [Graph.swept, Sweep.start, sorted]
  exact Path.map_text_injective (by decide +kernel)

theorem check_tighten_trailing :
    let a : Path := ⟨"/a.isl.md".toList⟩
    let b : Path := ⟨"/b.isl.md".toList⟩
    let t' := trailing.tighten fun loc => loc == a.location
    Plan.currentInterface t' a ≠ Plan.currentInterface trailing a ∧
      (∀ m, (Freshness.rendered planToC t' m b).map (fun r => (r.context, r.entry)) =
        (Freshness.rendered planToC trailing m b).map fun r => (r.context, r.entry)) ∧
      check t' ⟨".".toList⟩ .default = check trailing ⟨".".toList⟩ .default := by
  intro a b t'
  obtain ⟨-, -, -, rendered, -, checked⟩ :=
    check_tighten (by decide +kernel) make_trailing fun loc => loc == a.location
  exact ⟨by decide +kernel, fun m => rendered m b (by simp [planToC, trioNodes, b]), checked⟩

end IslDocs
