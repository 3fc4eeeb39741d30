import IslDocs.Proofs.Project.Layout

/-! What the artifacts of a document depend on: its text, and the interfaces of those documents that
its reference lines name. Nothing else of the interfaces at hand matters. -/

namespace IslDocs

theorem BuildContext.compose_congr {name content : Text} {lookup lookup' : Text → Option Dependency}
    (same : ∀ target ∈ targets content, lookup target = lookup' target) :
    compose name content lookup = compose name content lookup' := by
  rw [compose, compose, List.filterMap_congr same]

namespace Plan

variable {plan : Plan} {t t' : Tree} {d p : Path} {m : Manifest} {content : Text}
  {f g : Path → Option Text}

theorem renderContent_congr (read : t.readText d = .ok content)
    (same : ∀ p ∈ Project.referencesOf t d, plan.graph.contains p = true → f p = g p) :
    plan.renderContent d f content = plan.renderContent d g content := by
  have context : BuildContext.compose d.fileName content (plan.dependency? d f) =
      BuildContext.compose d.fileName content (plan.dependency? d g) := by
    refine BuildContext.compose_congr fun target htarget => ?_
    rw [dependency?, dependency?]
    split
    · next known =>
      have named : Path.resolveAgainst d target ∈ Project.referencesOf t d := by
        rw [Project.referencesOf, read]
        exact List.mem_map_of_mem htarget
      rw [same _ named known]
    · rfl
  rw [renderContent, renderContent, context]

theorem render_eq_ok {r : Rendered} (h : plan.render t d f = .ok r) :
    ∃ content, t.readText d = .ok content ∧ r = plan.renderContent d f content := by
  unfold render at h
  cases read : t.readText d with
  | error fault => simp [read, Except.map] at h
  | ok content =>
    rw [read] at h
    exact ⟨content, rfl, (Except.ok.inj h).symm⟩

theorem render_eq_error {fault : Fault} (h : plan.render t d f = .error fault) :
    t.readText d = .error fault := by
  unfold render at h
  cases read : t.readText d with
  | error fault' =>
    rw [read] at h
    exact congrArg Except.error (Except.error.inj h)
  | ok content => simp [read, Except.map] at h

/-! ### Interfaces -/

/-- The interface of a document as it is in the tree. -/
def currentInterface (t : Tree) (d : Path) : Option Text :=
  (t.readText d).toOption.map (Interface.project d.fileName)

/-- The interface of a document as it is in the tree, provided that the manifest lists it. -/
def listedInterface (plan : Plan) (t : Tree) (m : Manifest) (d : Path) : Option Text :=
  if plan.relative d ∈ m.sources then currentInterface t d else none

theorem currentInterface_of_readText (read : t.readText d = .ok content) :
    currentInterface t d = some (Interface.project d.fileName content) := by
  rw [currentInterface, read]
  rfl

theorem currentInterface_congr (h : (t'.readText d).toOption = (t.readText d).toOption) :
    currentInterface t' d = currentInterface t d := by
  rw [currentInterface, currentInterface, h]

theorem Laid.mem_of_split (laid : plan.Laid t) {done rest : List Path}
    (split : plan.order = done ++ rest) (hd : d ∈ done) (hp : p ∈ Project.referencesOf t d)
    (known : plan.graph.contains p = true) : p ∈ done :=
  laid.ordered.mem_of_split split hd hp known

end Plan

end IslDocs
