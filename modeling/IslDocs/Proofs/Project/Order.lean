import IslDocs.Project.Plan
import IslDocs.Proofs.Project.Documents

/-! The order of a plan. It lists every document once, spelled as it was discovered, and whatever a
document refers to and is a document itself stands before it. A plan depends on nothing but the
documents, so a tree that keeps them has the same one. -/

namespace IslDocs.Plan

open IslDocs.Path (Distinct)
open Project (discover base isDocument referencesOf)

variable {t t' : Tree} {root d p : Path} {config : Config} {plan : Plan}

theorem make_eq_ok (h : make t root config = .ok plan) :
    root.text ≠ [] ∧ plan.config = config ∧
      plan.graph = Project.graph t root (discover t root config) ∧
      plan.graph.order = .ok plan.order := by
  unfold make at h
  simp only at h
  split at h
  · cases h
  · next found =>
    split at h
    · cases h
    · next ordered =>
      cases h
      refine ⟨fun empty => found ?_, rfl, rfl, ordered⟩
      simp [discover, empty]

/-- A plan is made where the sweep of the documents' graph takes all of them. -/
theorem make_of_swept (plan : Plan) (documents : discover t root plan.config = plan.graph.nodes)
    (any : plan.graph.nodes ≠ []) (graph : Project.graph t root plan.graph.nodes = plan.graph)
    (swept : plan.graph.swept = plan.order)
    (all : plan.graph.nodes.length ≤ plan.order.length) : make t root plan.config = .ok plan := by
  have order : plan.graph.order = .ok plan.order := by
    rw [Graph.order, swept, if_neg (Nat.not_lt.2 all)]
  rw [make, documents, if_neg (by simpa using any), graph]
  simp only [order]

theorem root_eq (ht : t.WellFormed) (h : make t root config = .ok plan) :
    plan.graph.root = Path.absolute t.workPath root := by
  obtain ⟨-, -, graph, -⟩ := make_eq_ok h
  rw [graph, Project.graph_eq (Project.distinct_discover ht)]

theorem root_eq_ofLocation (ht : t.WellFormed) (h : make t root config = .ok plan) :
    plan.graph.root = .ofLocation (base t root) := by
  rw [root_eq ht h]
  exact (Project.rooted_absolute t (make_eq_ok h).1).eq_ofLocation

/-- What lies below the root is told apart by the names that lead to it. -/
theorem relative_graph (ht : t.WellFormed) (h : make t root config = .ok plan) {rel : Location}
    (plain : Path.Plain (base t root ++ rel)) (hne : rel ≠ []) :
    plan.graph.relative (.ofLocation (base t root ++ rel)) = ⟨Path.joined rel⟩ := by
  rw [Graph.relative, root_eq_ofLocation ht h, Path.relativeTo_ofLocation plain hne]

theorem relative_ofLocation (ht : t.WellFormed) (h : make t root config = .ok plan)
    {rel : Location} (plain : Path.Plain (base t root ++ rel)) (hne : rel ≠ []) :
    plan.relative (.ofLocation (base t root ++ rel)) = Path.joined rel := by
  simp [Plan.relative, relative_graph ht h plain hne, plain.right, hne]

/-- A relative path leads back from the root. -/
theorem join_relative (ht : t.WellFormed) (h : make t root config = .ok plan) {rel : Location}
    (plain : Path.Plain (base t root ++ rel)) (hne : rel ≠ []) :
    plan.graph.root.join (plan.relative (.ofLocation (base t root ++ rel))) =
      .ofLocation (base t root ++ rel) := by
  rw [root_eq_ofLocation ht h, relative_ofLocation ht h plain hne]
  exact Path.join_joined plain.left plain.right hne

theorem contains_graph (ht : t.WellFormed) (h : make t root config = .ok plan) (p : Path) :
    plan.graph.contains p = (discover t root config).contains p := by
  obtain ⟨-, -, graph, -⟩ := make_eq_ok h
  rw [graph, Project.graph_eq (Project.distinct_discover ht)]
  rfl

theorem distinct_order (h : make t root config = .ok plan) : Distinct plan.order := by
  obtain ⟨-, -, graph, ordered⟩ := make_eq_ok h
  rw [(Graph.order_eq_ok ordered).1, graph]
  exact (Project.wellFormed_graph t root _).distinct_swept

theorem nodup_order (h : make t root config = .ok plan) : plan.order.Nodup :=
  (Path.distinct_iff.1 (distinct_order h)).of_map _

/-- The order lists the documents as they were discovered. -/
theorem mem_order (ht : t.WellFormed) (h : make t root config = .ok plan) :
    d ∈ plan.order ↔ d ∈ discover t root config := by
  have distinct : Distinct (discover t root config) := Project.distinct_discover ht
  have wellFormed := Project.wellFormed_graph t root (discover t root config)
  obtain ⟨-, -, graph, ordered⟩ := make_eq_ok h
  obtain ⟨swept, all⟩ := Graph.order_eq_ok ordered
  have nodes : Project.graph t root (discover t root config) = _ := Project.graph_eq distinct
  rw [← graph] at wellFormed nodes
  have spelled : ∀ q ∈ plan.order, q ∈ discover t root config := by
    intro q hq
    rw [swept] at hq
    rcases wellFormed.spells_of_mem_swept hq with node | ⟨e, he, rfl⟩
    · rwa [nodes] at node
    · rw [nodes] at he
      obtain ⟨d, hd, made⟩ := List.mem_flatMap.1 he
      obtain ⟨-, -, rfl⟩ := List.mem_map.1 made
      exact hd
  refine ⟨spelled d, fun hd => ?_⟩
  have listed : plan.order.contains d = true := by
    rw [swept, wellFormed.contains_swept all, contains_graph ht h]
    exact Path.contains_of_mem hd
  obtain ⟨q, hq, same⟩ := List.contains_iff_exists_mem_beq.1 listed
  rwa [distinct.eq_of_beq hd (spelled q hq) same]

theorem perm_order (ht : t.WellFormed) (h : make t root config = .ok plan) :
    plan.order.Perm (discover t root config) :=
  (List.perm_ext_iff_of_nodup (nodup_order h)
    ((Path.distinct_iff.1 (Project.distinct_discover ht)).of_map _)).2 fun _ => mem_order ht h

/-! ### Where documents are -/

/-- Below the root, under plain names. -/
theorem document_location (ht : t.WellFormed) (h : make t root config = .ok plan)
    (hd : d ∈ plan.order) : ∃ rel, d = .ofLocation (base t root ++ rel) ∧ rel ≠ [] ∧
      Path.Plain (base t root ++ rel) ∧
      isDocument config (base t root) (base t root ++ rel) = true := by
  obtain ⟨-, rel, place, hne, document, content, held⟩ :=
    (Project.mem_discover ht).1 ((mem_order ht h).1 hd)
  exact ⟨rel, place, hne, ht.plain_of_content? held, document⟩

theorem rooted_document (ht : t.WellFormed) (h : make t root config = .ok plan)
    (hd : d ∈ plan.order) : d.Rooted := by
  obtain ⟨rel, place, -, plain, -⟩ := document_location ht h hd
  exact ⟨_, plain, place⟩

theorem location_ne_nil (ht : t.WellFormed) (h : make t root config = .ok plan)
    (hd : d ∈ plan.order) : d.location ≠ [] := by
  obtain ⟨rel, rfl, hne, plain, -⟩ := document_location ht h hd
  rw [Path.location_ofLocation plain]
  simp [hne]

theorem rooted_of_mem_referencesOf (hd : d.Rooted) (hne : d.location ≠ [])
    (hp : p ∈ referencesOf t d) : p.Rooted := by
  obtain ⟨loc, plain, rfl⟩ := hd
  rw [Path.location_ofLocation plain] at hne
  obtain ⟨init, last, rfl⟩ := List.eq_nil_or_concat' loc |>.resolve_left hne
  unfold referencesOf at hp
  split at hp
  · obtain ⟨target, -, rfl⟩ := List.mem_map.1 hp
    rw [Path.resolveAgainst, Path.parent?_ofLocation plain]
    exact Path.rooted_normalize (Path.isAbsolute_join (Path.isAbsolute_ofLocation _) _)
  · cases hp

/-- What a document refers to comes before it, if it is a document. -/
theorem mem_before (ht : t.WellFormed) (h : make t root config = .ok plan)
    {before after : List Path} (split : plan.order = before ++ d :: after)
    (hp : p ∈ referencesOf t d) (known : plan.graph.contains p = true) : p ∈ before := by
  have hd : d ∈ plan.order := by simp [split]
  have rooted := rooted_document ht h hd
  have edge : p ∈ plan.graph.dependenciesOf d := by
    rw [contains_graph ht h] at known
    rw [(make_eq_ok h).2.2.1, Project.graph_eq (Project.distinct_discover ht),
      Graph.mem_dependenciesOf]
    refine ⟨⟨p, d⟩, List.mem_flatMap.2 ⟨d, (mem_order ht h).1 hd, ?_⟩, BEq.rfl, rfl⟩
    exact List.mem_map.2 ⟨p, List.mem_filter.2 ⟨hp, known⟩, rfl⟩
  have wellFormed := Project.wellFormed_graph t root (discover t root config)
  obtain ⟨-, -, graph, ordered⟩ := make_eq_ok h
  rw [← graph] at wellFormed
  rw [(Graph.order_eq_ok ordered).1] at split
  obtain ⟨q, hq, same⟩ :=
    List.contains_iff_exists_mem_beq.1 (wellFormed.swept_ordered split edge)
  have listed : q ∈ plan.order := by
    rw [(Graph.order_eq_ok ordered).1, split]
    exact List.mem_append_left _ hq
  rwa [(rooted_of_mem_referencesOf rooted (location_ne_nil ht h hd) hp).eq_of_beq
    (rooted_document ht h listed) same]

/-- Documents with the same relative path are the same. -/
theorem eq_of_relative (ht : t.WellFormed) (h : make t root config = .ok plan)
    {d e : Path} (hd : d ∈ plan.order) (he : e ∈ plan.order)
    (same : plan.relative d = plan.relative e) : d = e := by
  obtain ⟨rel, rfl, hne, plain, -⟩ := document_location ht h hd
  obtain ⟨rel', rfl, hne', plain', -⟩ := document_location ht h he
  rw [relative_ofLocation ht h plain hne, relative_ofLocation ht h plain' hne'] at same
  have cut := congrArg (List.splitOn '/') same
  rw [Path.splitOn_joined plain.right hne, Path.splitOn_joined plain'.right hne'] at cut
  rw [cut]

/-- Each document is listed once and has a source of its own, and what it refers to comes before
it. -/
structure Ordered (plan : Plan) (t : Tree) : Prop where
  nodup : plan.order.Nodup
  document : ∀ d ∈ plan.order, d.Rooted
  source : ∀ d ∈ plan.order, ∀ e ∈ plan.order, plan.relative d = plan.relative e → d = e
  before : ∀ before d after, plan.order = before ++ d :: after →
    ∀ p ∈ referencesOf t d, plan.graph.contains p = true → p ∈ before

theorem ordered (ht : t.WellFormed) (h : make t root config = .ok plan) : plan.Ordered t where
  nodup := nodup_order h
  document := fun _ hd => rooted_document ht h hd
  source := fun _ hd _ he => eq_of_relative ht h hd he
  before := fun _ _ _ split _ hp known => mem_before ht h split hp known

/-- The documents that come before another one. -/
def before (plan : Plan) (d : Path) : List Path := plan.order.takeWhile fun p => !(p == d)

namespace Ordered

variable {done rest after : List Path}

theorem nodup_relative (h : plan.Ordered t) : (plan.order.map plan.relative).Nodup :=
  h.nodup.map_on h.source

theorem ne_of_split (h : plan.Ordered t) (split : plan.order = done ++ d :: after)
    (hp : p ∈ done) : p ≠ d := by
  have nodup := h.nodup
  rw [split] at nodup
  exact (List.nodup_append.1 nodup).2.2 p hp d List.mem_cons_self

theorem beq_eq_false (h : plan.Ordered t) (hp : p ∈ plan.order) (hd : d ∈ plan.order)
    (other : p ≠ d) : (p == d) = false :=
  Bool.eq_false_iff.2 fun same => other ((h.document p hp).eq_of_beq (h.document d hd) same)

/-- In an order, what a listed document refers to is listed too, if it is a document. -/
theorem mem_of_split (h : plan.Ordered t) (split : plan.order = done ++ rest) (hd : d ∈ done)
    (hp : p ∈ referencesOf t d) (known : plan.graph.contains p = true) : p ∈ done := by
  obtain ⟨before, after, rfl⟩ := List.append_of_mem hd
  have := h.before before d (after ++ rest) (by simpa using split) p hp known
  exact List.mem_append_left _ this

theorem before_eq (h : plan.Ordered t) (split : plan.order = done ++ d :: after) :
    plan.before d = done := by
  have different : ∀ p ∈ done, (!(p == d)) = true := fun p hp => by
    rw [h.beq_eq_false (by simp [split, hp]) (by simp [split]) (h.ne_of_split split hp)]
    rfl
  rw [Plan.before, split, List.takeWhile_append_of_pos different]
  simp

end Ordered

/-- A tree that keeps the documents has the same plan. -/
theorem make_congr (ht : t.WellFormed) {apart : List Location} (kept : Tree.Keeps apart t t')
    (spared : ∀ d ∈ discover t root config, d.location ∉ apart)
    (spared' : ∀ d ∈ discover t' root config, d.location ∉ apart) :
    make t' root config = make t root config := by
  have same : ∀ d ∈ discover t root config, referencesOf t' d = referencesOf t d := by
    intro d hd
    have outside := spared d hd
    obtain ⟨-, rel, rfl, -, -, content, held⟩ := (Project.mem_discover ht).1 hd
    have plain := ht.plain_of_content? held
    exact Project.referencesOf_congr (kept.toOption_readText ht ⟨_, plain, rfl⟩ outside)
  unfold make
  simp only [Project.discover_congr kept spared ht spared',
    Project.graph_congr kept.workDir same]

end IslDocs.Plan
