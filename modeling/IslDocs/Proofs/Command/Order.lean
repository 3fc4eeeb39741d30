import IslDocs.Command.Run
import IslDocs.Proofs.Graph.Breadth
import IslDocs.Proofs.Project.Record

/-! The order command and the build go through the documents in one order. The command prints levels
and the build takes the plan's order as it is, and the levels put together are that order. -/

namespace IslDocs

open IslDocs.Graph (Operation ofOperations)

variable {t : Tree} {config : Config} {plan : Plan}

namespace Command

/-- What the order command prints for the documents of each level. -/
def printedLevels (json : Bool) (levels : List (List Text)) : Printed where
  code := 0
  output := if json then line [(Json.Value.ofLevels levels).pretty]
    else levels.zipIdx.flatMap levelOutput

theorem runOrder_eq (loaded : Config.load t here = .ok config)
    (h : Plan.make t here config = .ok plan) (json : Bool) :
    runOrder t json = .ok (printedLevels json
      ((plan.graph.levels plan.order).map fun level => level.map plan.relative)) :=
  bind_eq_ok_iff.2 ⟨config, loaded, bind_eq_ok_iff.2 ⟨plan, h, rfl⟩⟩

end Command

theorem Plan.flatten_levels {root : Path} (h : make t root config = .ok plan) :
    (plan.graph.levels plan.order).flatten = plan.order := by
  obtain ⟨-, -, graph, ordered⟩ := make_eq_ok h
  exact (graph ▸ Project.wellFormed_graph t root _ : plan.graph.WellFormed).flatten_levels ordered

/-- The levels of a build order put together are that order: it never goes back to a lower level. So
a build takes the documents one after the other as the order command prints them. -/
theorem order_lists_build_order (root : Path) (ops : List Operation) {listed : List Path}
    (h : (ofOperations root ops).order = .ok listed) :
    let g := ofOperations root ops
    (g.levels listed).flatten = listed ∧
      (g.annotate listed).Pairwise (fun a b => a.2 ≤ b.2) ∧
      ∀ t config plan, Config.load t Command.here = .ok config →
        Plan.make t Command.here config = .ok plan →
        let levels := plan.graph.levels plan.order
        (∀ json, Command.runOrder t json =
          .ok (Command.printedLevels json (levels.map fun level => level.map plan.relative))) ∧
        Build.run plan t = levels.flatten.foldl (Build.step plan) (Build.start t) := by
  intro g
  have wellFormed : g.WellFormed := Graph.wellFormed_ofOperations root ops
  refine ⟨wellFormed.flatten_levels h, wellFormed.pairwise_annotate h, ?_⟩
  intro t config plan loaded made
  refine ⟨Command.runOrder_eq loaded made, ?_⟩
  rw [Plan.flatten_levels made, Build.run]

/-- The order of a diamond takes the document that stands alone with the first level. -/
theorem diamond_lists_build_order :
    let g := ofOperations ⟨"/p".toList⟩ Graph.diamond
    let levels := leftoverPlan.graph.levels leftoverPlan.order
    (∃ listed, g.order = .ok listed ∧ (g.levels listed).flatten = listed) ∧
      (∀ json, Command.runOrder leftover json = .ok (Command.printedLevels json
        (levels.map fun level => level.map leftoverPlan.relative))) ∧
      Build.run leftoverPlan leftover =
        levels.flatten.foldl (Build.step leftoverPlan) (Build.start leftover) := by
  intro g levels
  have sorted : Path.sort g.nodes = g.nodes := Path.sort_of_pairwise (by decide)
  have ordered : g.order = .ok [⟨"/p/lone".toList⟩, ⟨"/p/top".toList⟩, ⟨"/p/left".toList⟩,
      ⟨"/p/right".toList⟩, ⟨"/p/bottom".toList⟩] := by
    rw [Graph.order, Graph.swept, Sweep.start, sorted, if_neg (by decide +kernel)]
    exact congrArg Except.ok (Path.map_text_injective (by decide +kernel))
  have loaded : Config.load leftover Command.here = .ok .default := rfl
  obtain ⟨flat, -, commands⟩ := order_lists_build_order ⟨"/p".toList⟩ Graph.diamond ordered
  exact ⟨⟨_, ordered, flat⟩, commands leftover .default leftoverPlan loaded make_leftover⟩

end IslDocs
