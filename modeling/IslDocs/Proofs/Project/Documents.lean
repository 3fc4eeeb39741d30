import IslDocs.Project.Documents
import IslDocs.Proofs.Graph.Order
import IslDocs.Proofs.Tree.Change

/-! The documents of a project and the edges between them. The documents are files strictly below
the root, spelled from the tree's root with plain names; the edges are the references that name
documents, document by document. Both are the same in a tree that keeps every document. -/

namespace IslDocs.Project

open IslDocs.Path (Plain ofLocation Distinct)

variable {t t' : Tree} {root d p : Path} {config : Config} {loc l : Location}

/-- Where the root of a project lies. -/
def base (t : Tree) (root : Path) : Location := (Path.absolute t.workPath root).location

theorem rooted_absolute (t : Tree) (hr : root.text ≠ []) :
    (Path.absolute t.workPath root).Rooted := by
  rw [Path.absolute, List.isEmpty_eq_false_iff.2 hr, if_neg Bool.false_ne_true]
  exact Path.rooted_normalize (Path.isAbsolute_join (Path.isAbsolute_ofLocation _) _)

/-! ### Discovery -/

theorem mem_filesBelow (ht : t.WellFormed) :
    l ∈ t.filesBelow loc ↔ loc <+: l ∧ l ≠ loc ∧ ∃ content, t.content? l = some content := by
  simp only [Tree.content?_eq_some, Tree.filesBelow, List.mem_filterMap]
  constructor
  · rintro ⟨⟨l', node⟩, he, found⟩
    cases node with
    | directory => simp at found
    | file content =>
      have held := (ht.mem_entries (ht.ne_root _ he)).1 he
      simp only [Option.ite_none_right_eq_some, Bool.and_eq_true, List.isPrefixOf_iff_prefix,
        bne_iff_ne, Option.some.injEq] at found
      obtain ⟨⟨below, other⟩, rfl⟩ := found
      exact ⟨below, other, content, held⟩
  · rintro ⟨below, other, content, held⟩
    have hne : l ≠ [] := by
      rintro rfl
      simp at held
    exact ⟨(l, .file content), (ht.mem_entries hne).2 held, by simp [below, other]⟩

theorem nodup_filesBelow (ht : t.WellFormed) : (t.filesBelow loc).Nodup := by
  have nodup := ht.nodup
  rw [List.Nodup, List.pairwise_map] at nodup
  refine nodup.filterMap _ fun e e' other l hl l' hl' => ?_
  obtain ⟨at', node⟩ := e
  obtain ⟨at'', node'⟩ := e'
  cases node <;> cases node' <;> simp_all

/-- The documents below a location, read off the files elsewhere than where no documents are. -/
theorem filter_filesBelow {apart : List Location}
    (spared : ∀ l ∈ t.filesBelow loc, isDocument config loc l = true → l ∉ apart) :
    (t.filesBelow loc).filter (isDocument config loc) =
      (t.filesApart apart).filterMap fun file =>
        if loc.isPrefixOf file.1 && file.1 != loc && isDocument config loc file.1 then some file.1
        else none := by
  rw [Tree.filesBelow, Tree.filesApart, List.filter_filterMap, List.filterMap_filterMap]
  refine List.filterMap_congr fun entry he => ?_
  obtain ⟨l, node⟩ := entry
  cases node with
  | directory => rfl
  | file content =>
    by_cases inside : l ∈ apart <;> by_cases below : loc <+: l ∧ ¬ l = loc
    · have found : l ∈ t.filesBelow loc :=
        List.mem_filterMap.2 ⟨_, he, by simp [below]⟩
      have other : isDocument config loc l = false :=
        Bool.eq_false_iff.2 fun document => spared l found document inside
      simp [inside, below, other]
    · simp [inside, below]
    · simp [inside, below, Option.filter_some]
    · simp [inside, below]

theorem mem_discover (ht : t.WellFormed) :
    d ∈ discover t root config ↔ root.text ≠ [] ∧ ∃ rel, d = ofLocation (base t root ++ rel) ∧
      rel ≠ [] ∧ isDocument config (base t root) (base t root ++ rel) = true ∧
      ∃ content, t.content? (base t root ++ rel) = some content := by
  rw [discover]
  split
  · next empty => simp [List.isEmpty_iff.1 empty]
  · next rooted =>
    rw [List.isEmpty_iff] at rooted
    rw [Path.mem_sort, List.mem_map]
    simp only [List.mem_filter]
    constructor
    · rintro ⟨l, ⟨below, document⟩, rfl⟩
      obtain ⟨⟨rel, rfl⟩, other, held⟩ := (mem_filesBelow ht).1 below
      exact ⟨rooted, rel, rfl, by rintro rfl; simp at other, document, held⟩
    · rintro ⟨-, rel, rfl, hne, document, held⟩
      refine ⟨_, ⟨(mem_filesBelow ht).2 ⟨List.prefix_append _ _, ?_, held⟩, document⟩, rfl⟩
      simpa using hne

theorem content?_of_mem_discover (ht : t.WellFormed) (hd : d ∈ discover t root config) :
    ∃ content, t.content? d.location = some content := by
  obtain ⟨-, rel, rfl, -, -, content, held⟩ := (mem_discover ht).1 hd
  rw [Path.location_ofLocation (ht.plain_of_content? held)]
  exact ⟨content, held⟩

theorem distinct_discover (ht : t.WellFormed) : Distinct (discover t root config) := by
  rw [discover]
  split
  · exact List.Pairwise.nil
  · refine Distinct.sort (List.pairwise_map.2 ?_)
    have nodup : ((t.filesBelow (base t root)).filter (isDocument config (base t root))).Nodup :=
      (nodup_filesBelow ht).filter _
    refine nodup.imp_of_mem fun hl hl' other => Bool.eq_false_iff.2 fun same => other ?_
    have plain : ∀ {l}, l ∈ (t.filesBelow (base t root)).filter (isDocument config (base t root)) →
        Plain l := by
      intro l hl
      obtain ⟨-, -, content, held⟩ := (mem_filesBelow ht).1 (List.mem_of_mem_filter hl)
      exact ht.plain_of_content? held
    exact (Path.ofLocation_beq_iff (plain hl) (plain hl')).1 same

theorem spares_filesBelow (ht : t.WellFormed) (hr : root.text ≠ []) {apart : List Location}
    (spared : ∀ d ∈ discover t root config, d.location ∉ apart) :
    ∀ l ∈ t.filesBelow (base t root), isDocument config (base t root) l = true → l ∉ apart := by
  intro l hl document
  obtain ⟨⟨rel, rfl⟩, other, content, held⟩ := (mem_filesBelow ht).1 hl
  have hne : rel ≠ [] := by
    rintro rfl
    simp at other
  have outside := spared _ ((mem_discover ht).2 ⟨hr, rel, rfl, hne, document, content, held⟩)
  rwa [Path.location_ofLocation (ht.plain_of_content? held)] at outside

theorem base_congr {apart : List Location} (h : Tree.Keeps apart t t') :
    base t' root = base t root := by
  simp [base, Tree.workPath, h.workDir]

section
variable {apart : List Location} (h : Tree.Keeps apart t t')
  (spared : ∀ d ∈ discover t root config, d.location ∉ apart)
include h spared

/-- A document that is kept is still discovered. -/
theorem discover_subset (ht : t.WellFormed) :
    discover t root config ⊆ discover t' root config := by
  intro d hd
  have outside := spared d hd
  obtain ⟨hr, rel, rfl, hne, document, content, held⟩ := (mem_discover ht).1 hd
  rw [Path.location_ofLocation (ht.plain_of_content? held)] at outside
  refine (mem_discover h.wellFormed).2 ⟨hr, rel, ?_⟩
  rw [base_congr h]
  exact ⟨rfl, hne, document, content, (h.content? ht outside).trans held⟩

theorem discover_congr (ht : t.WellFormed)
    (spared' : ∀ d ∈ discover t' root config, d.location ∉ apart) :
    discover t' root config = discover t root config := by
  rw [discover, discover]
  split
  · rfl
  · next rooted =>
    rw [List.isEmpty_iff] at rooted
    have before := filter_filesBelow (spares_filesBelow ht rooted spared)
    have after := filter_filesBelow (spares_filesBelow h.wellFormed rooted spared')
    rw [base_congr h, h.files, ← before] at after
    change Path.sort (((t'.filesBelow (base t' root)).filter
      (isDocument config (base t' root))).map ofLocation) = _
    rw [base_congr h, after]
    rfl

end

/-! ### The graph -/

variable {g : Graph} {documents : List Path}

theorem foldl_addNode (h : Distinct (g.nodes ++ documents)) :
    documents.foldl Graph.addNode g = { g with nodes := g.nodes ++ documents } := by
  induction documents generalizing g with
  | nil => simp
  | cons d rest ih =>
    have unknown : g.contains d = false := by
      refine Bool.eq_false_iff.2 fun known => ?_
      obtain ⟨q, hq, same⟩ := List.contains_iff_exists_mem_beq.1 known
      have apart := (List.pairwise_append.1 h).2.2 q hq d List.mem_cons_self
      rw [Path.beq_comm, same] at apart
      cases apart
    have added : g.addNode d = { g with nodes := g.nodes ++ [d] } := by
      rw [Graph.addNode, unknown, if_neg Bool.false_ne_true]
    rw [List.foldl_cons, added, ih (by simpa using h)]
    simp

/-- The edges that the references of one document make. -/
def edgesOf (t : Tree) (documents : List Path) (d : Path) : List Edge :=
  ((referencesOf t d).filter documents.contains).map ({ dependency := ·, dependent := d })

theorem foldl_addEdge (hd : g.contains d = true) (references : List Path) :
    references.foldl (fun g p => g.addEdge p d) g =
      { g with edges := g.edges ++
          (references.filter g.contains).map ({ dependency := ·, dependent := d }) } := by
  induction references generalizing g with
  | nil => simp
  | cons p rest ih =>
    have same : (g.addEdge p d).contains = g.contains := by
      funext q
      exact g.contains_addEdge p d q
    rw [List.foldl_cons, ih (by rwa [same]), same, List.filter_cons, Graph.addEdge, hd,
      Bool.and_true]
    split <;> simp

theorem foldl_addReferences {ds : List Path} (hds : ∀ d ∈ ds, g.contains d = true) :
    ds.foldl (addReferences t) g =
      { g with edges := g.edges ++ ds.flatMap (edgesOf t g.nodes) } := by
  induction ds generalizing g with
  | nil => simp
  | cons d rest ih =>
    have added : addReferences t g d = { g with edges := g.edges ++ edgesOf t g.nodes d } :=
      foldl_addEdge (hds d List.mem_cons_self) _
    have known : ∀ e ∈ rest, (addReferences t g d).contains e = true := by
      rw [added]
      exact fun e he => hds e (List.mem_cons_of_mem _ he)
    rw [List.foldl_cons, ih known, added]
    simp

/-- The nodes are the documents, and the edges their references to documents. -/
theorem graph_eq (h : Distinct documents) :
    graph t root documents =
      { root := Path.absolute t.workPath root, nodes := documents
        edges := documents.flatMap (edgesOf t documents) } := by
  rw [graph, foldl_addNode (by simpa [Graph.empty] using h),
    foldl_addReferences fun d hd => Path.contains_of_mem (by simpa [Graph.empty] using hd)]
  simp [Graph.empty]

/-- Only one member of a list without repetition contributes. -/
theorem flatMap_eq_of_mem {α β : Type} {l : List α} {a : α} {f : α → List β} (nodup : l.Nodup)
    (ha : a ∈ l) (none : ∀ b ∈ l, b ≠ a → f b = []) : l.flatMap f = f a := by
  obtain ⟨before, after, rfl⟩ := List.append_of_mem ha
  rw [List.nodup_middle, List.nodup_cons, List.mem_append, not_or] at nodup
  obtain ⟨⟨notBefore, notAfter⟩, -⟩ := nodup
  have left : before.flatMap f = [] := List.flatMap_eq_nil_iff.2 fun b hb =>
    none b (List.mem_append_left _ hb) fun same => notBefore (same ▸ hb)
  have right : after.flatMap f = [] := List.flatMap_eq_nil_iff.2 fun b hb =>
    none b (by simp [hb]) fun same => notAfter (same ▸ hb)
  simp [left, right]

/-- The dependencies of a document are its references to documents, line by line. -/
theorem dependenciesOf_graph (h : Distinct documents) (hd : d ∈ documents) :
    (graph t root documents).dependenciesOf d =
      (referencesOf t d).filter documents.contains := by
  have into : ∀ e, (edgesOf t documents e).filter (·.dependent == d) =
      if e == d then edgesOf t documents e else [] := by
    intro e
    rw [edgesOf, List.filter_map]
    cases same : e == d <;> simp [Function.comp_def, same]
  rw [graph_eq h, Graph.dependenciesOf]
  simp only [List.filter_flatMap, into]
  rw [flatMap_eq_of_mem ((Path.distinct_iff.1 h).of_map _) hd]
  · simp [edgesOf, Function.comp_def]
  · intro e he other
    exact if_neg fun same => other (h.eq_of_beq he hd same)

theorem wellFormed_graph (t : Tree) (root : Path) (documents : List Path) :
    (graph t root documents).WellFormed := by
  have nodes := Graph.wellFormed_foldl Graph.addNode (fun _ p hg => hg.addNode p) documents _
    (Graph.wellFormed_empty (Path.absolute t.workPath root))
  refine Graph.wellFormed_foldl _ (fun g d hg => ?_) documents _ nodes
  exact Graph.wellFormed_foldl _ (fun _ p hg => hg.addEdge p d) _ _ hg

theorem graph_congr (workDir : t'.workDir = t.workDir)
    (same : ∀ d ∈ documents, referencesOf t' d = referencesOf t d) :
    graph t' root documents = graph t root documents := by
  simp only [graph, Tree.workPath, workDir]
  refine List.foldl_ext _ _ _ fun g d hd => ?_
  rw [addReferences, addReferences, same d hd]

theorem referencesOf_congr (h : (t'.readText d).toOption = (t.readText d).toOption) :
    referencesOf t' d = referencesOf t d := by
  rw [referencesOf, referencesOf]
  cases ht' : t'.readText d <;> cases ht : t.readText d <;> simp_all [Except.toOption]

end IslDocs.Project
