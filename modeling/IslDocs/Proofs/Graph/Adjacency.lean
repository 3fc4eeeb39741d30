import IslDocs.Proofs.Graph.Records
import Mathlib.Data.List.Induction

/-! A graph kept as three maps by node: what each depends on, what depends on it, and how many edges
lead to it. An edge is written down in all three, so the maps say the same thing three times. They
are those of the list of recorded edges, and so agree with each other, whatever the operations. -/

namespace IslDocs

/-- A map by path, as its entries in the order in which their keys were added. -/
abbrev Table (α : Type) := List (Path × α)

namespace Table

variable {α : Type} {nodes : List Path} {f f' : Path → α} {g : α → α} {p q : Path} {a : α}

def keys (m : Table α) : List Path := m.map Prod.fst

/-- Changes the value at a key, a missing one being added with the default value first. -/
def upsert [Inhabited α] (m : Table α) (p : Path) (g : α → α) : Table α :=
  match m with
  | [] => [(p, g default)]
  | (q, a) :: rest => if q == p then (q, g a) :: rest else (q, a) :: upsert rest p g

def get [Inhabited α] (m : Table α) (p : Path) : α := (m.lookup p).getD default

/-- The table of a function on given nodes. -/
def tabulate (nodes : List Path) (f : Path → α) : Table α := nodes.map fun p => (p, f p)

@[simp] theorem keys_tabulate (nodes : List Path) (f : Path → α) :
    (tabulate nodes f).keys = nodes := by
  simp [keys, tabulate, Function.comp_def]

theorem tabulate_congr (h : ∀ q ∈ nodes, f q = f' q) : tabulate nodes f = tabulate nodes f' :=
  List.map_congr_left fun q hq => by rw [h q hq]

@[simp] theorem tabulate_cons (q : Path) (nodes : List Path) (f : Path → α) :
    tabulate (q :: nodes) f = (q, f q) :: tabulate nodes f := rfl

variable [Inhabited α]

@[simp] theorem upsert_same (h : (q == p) = true) (m : Table α) (g : α → α) :
    upsert ((q, a) :: m) p g = (q, g a) :: m := if_pos h

@[simp] theorem upsert_other (h : (q == p) = false) (m : Table α) (g : α → α) :
    upsert ((q, a) :: m) p g = (q, a) :: m.upsert p g := if_neg (Bool.eq_false_iff.1 h)

theorem upsert_of_new (h : nodes.contains p = false) (f : Path → α) (g : α → α) :
    (tabulate nodes f).upsert p g = tabulate nodes f ++ [(p, g default)] := by
  induction nodes with
  | nil => rfl
  | cons q rest ih =>
    rw [List.contains_cons, Bool.or_eq_false_iff, Path.beq_comm] at h
    simp [upsert_other h.1, ih h.2]

theorem upsert_of_known (distinct : Path.Distinct nodes) (h : nodes.contains p = true)
    (f : Path → α) (g : α → α) :
    (tabulate nodes f).upsert p g =
      tabulate nodes fun q => if q == p then g (f q) else f q := by
  induction nodes with
  | nil => cases h
  | cons q rest ih =>
    obtain ⟨apart, distinct⟩ := List.pairwise_cons.1 distinct
    rw [List.contains_cons, Bool.or_eq_true, Path.beq_comm] at h
    rw [tabulate_cons, tabulate_cons]
    rcases same : (q == p) with _ | _
    · simp [same, ih distinct (h.resolve_left (by simp [same]))]
    · have unchanged : ∀ r ∈ rest, f r = if r == p then g (f r) else f r := by
        intro r hr
        rw [← BEq.congr_right same, Path.beq_comm, apart r hr]
        rfl
      simp [same, tabulate_congr unchanged]

/-- A key without a change is added if it is new. -/
theorem upsert_id (distinct : Path.Distinct nodes)
    (new : nodes.contains p = false → f p = default) :
    (tabulate nodes f).upsert p id =
      tabulate (if nodes.contains p then nodes else nodes ++ [p]) f := by
  rcases known : nodes.contains p with _ | _
  · rw [upsert_of_new known, if_neg Bool.false_ne_true, tabulate, tabulate, List.map_append,
      List.map_singleton, new known]
    rfl
  · rw [upsert_of_known distinct known, if_pos rfl]
    exact tabulate_congr fun q _ => ite_self (f q)

theorem get_tabulate (congr : ∀ q, (q == p) = true → f q = f p)
    (unknown : nodes.contains p = false → f p = default) : (tabulate nodes f).get p = f p := by
  induction nodes with
  | nil => exact (unknown rfl).symm
  | cons q rest ih =>
    rcases same : (p == q) with _ | _
    · have ih := ih fun new => unknown (by rw [List.contains_cons, same, new]; rfl)
      rw [← ih, get, get, tabulate, List.map_cons, List.lookup_cons, same]
      rfl
    · rw [get, tabulate, List.map_cons, List.lookup_cons, same]
      exact congr q (BEq.symm same)

end Table

structure Adjacency where
  dependencies : Table (List Path)
  dependents : Table (List Path)
  inDegree : Table ℕ

namespace Adjacency

def empty : Adjacency := { dependencies := [], dependents := [], inDegree := [] }

def contains (a : Adjacency) (p : Path) : Bool := a.inDegree.keys.contains p

def addNode (a : Adjacency) (p : Path) : Adjacency where
  dependencies := a.dependencies.upsert p id
  dependents := a.dependents.upsert p id
  inDegree := a.inDegree.upsert p id

def addEdge (a : Adjacency) (dependency dependent : Path) : Adjacency :=
  if a.contains dependency && a.contains dependent then
    { dependencies := a.dependencies.upsert dependent (· ++ [dependency])
      dependents := a.dependents.upsert dependency (· ++ [dependent])
      inDegree := a.inDegree.upsert dependent (· + 1) }
  else a

def apply (a : Adjacency) : Graph.Operation → Adjacency
  | .addNode p => a.addNode p
  | .addEdge dependency dependent => a.addEdge dependency dependent

/-- The maps that a sequence of operations makes. -/
def ofOperations (ops : List Graph.Operation) : Adjacency := ops.foldl apply empty

end Adjacency

namespace Graph

variable {g : Graph} {p q d e : Path}

/-- The maps of a graph, read off its recorded edges. -/
def adjacency (g : Graph) : Adjacency where
  dependencies := .tabulate g.nodes g.dependenciesOf
  dependents := .tabulate g.nodes g.dependentsOf
  inDegree := .tabulate g.nodes g.inDegree

@[simp] theorem contains_adjacency (g : Graph) (p : Path) :
    g.adjacency.contains p = g.contains p := by
  rw [Adjacency.contains, adjacency, Table.keys_tabulate, contains]

/-- No edge leads from or to what is no node. -/
theorem filter_edges_of_unknown {side : Edge → Path}
    (known : ∀ e ∈ g.edges, g.contains (side e) = true) (h : g.contains p = false) :
    g.edges.filter (side · == p) = [] := by
  refine List.filter_eq_nil_iff.2 fun e he same => ?_
  rw [← g.contains_congr same, known e he] at h
  cases h

theorem WellFormed.dependenciesOf_of_unknown (hg : g.WellFormed) (h : g.contains p = false) :
    g.dependenciesOf p = [] := by
  rw [dependenciesOf, filter_edges_of_unknown hg.dependent h, List.map_nil]

theorem WellFormed.dependentsOf_of_unknown (hg : g.WellFormed) (h : g.contains p = false) :
    g.dependentsOf p = [] := by
  rw [dependentsOf, filter_edges_of_unknown hg.dependency h, List.map_nil]

theorem WellFormed.inDegree_of_unknown (hg : g.WellFormed) (h : g.contains p = false) :
    g.inDegree p = 0 := by
  rw [inDegree, List.countP_eq_length_filter, filter_edges_of_unknown hg.dependent h,
    List.length_nil]

/-! ### The degrees -/

theorem inDegree_eq_length (g : Graph) (p : Path) : g.inDegree p = (g.dependenciesOf p).length := by
  rw [inDegree, dependenciesOf, List.length_map, List.countP_eq_length_filter]

theorem countP_dependenciesOf (g : Graph) (p d : Path) :
    (g.dependenciesOf p).countP (· == d) = (g.dependentsOf d).countP (· == p) := by
  simp [dependenciesOf, dependentsOf, List.countP_filter, Bool.and_comm]

/-- Every edge is counted with the one node that it leads from. -/
theorem countP_flatMap_dependentsOf {nodes : List Path} (distinct : Path.Distinct nodes)
    (g : Graph) (p : Path) : (nodes.flatMap g.dependentsOf).countP (· == p) =
      g.edges.countP fun e => e.dependent == p && nodes.contains e.dependency := by
  induction nodes with
  | nil => simp
  | cons q rest ih =>
    obtain ⟨apart, distinct⟩ := List.pairwise_cons.1 distinct
    have new : ∀ e : Edge, (e.dependency == q) = true → rest.contains e.dependency = false := by
      intro e same
      rw [Path.contains_congr same, ← Bool.not_eq_true, List.contains_iff_exists_mem_beq]
      rintro ⟨r, hr, again⟩
      rw [apart r hr] at again
      cases again
    simp only [List.flatMap_cons, List.countP_append, ih distinct, dependentsOf, List.countP_map,
      List.countP_filter, List.countP_eq_countP_filter_add g.edges (fun e =>
        e.dependent == p && (q :: rest).contains e.dependency) (fun e => e.dependency == q)]
    congr 1
    · refine List.countP_congr fun e _ => ?_
      rw [List.contains_cons]
      cases e.dependency == q <;> simp
    · refine List.countP_congr fun e _ => ?_
      rw [List.contains_cons]
      rcases same : (e.dependency == q) with _ | _
      · simp
      · simp [new e same]

theorem WellFormed.countP_dependents (hg : g.WellFormed) (p : Path) :
    (g.nodes.flatMap g.dependentsOf).countP (· == p) = g.inDegree p := by
  rw [countP_flatMap_dependentsOf hg.distinct]
  refine List.countP_congr fun e he => ?_
  have known : g.nodes.contains e.dependency = true := hg.dependency e he
  rw [known, Bool.and_true]

/-! ### Operations -/

theorem addNode_eq (g : Graph) (p : Path) : g.addNode p =
    { g with nodes := if g.nodes.contains p then g.nodes else g.nodes ++ [p] } := by
  rw [Graph.addNode, contains]
  split <;> rfl

theorem WellFormed.adjacency_addNode (hg : g.WellFormed) (p : Path) :
    (g.addNode p).adjacency = g.adjacency.addNode p := by
  simp only [addNode_eq, Adjacency.addNode, adjacency,
    Table.upsert_id hg.distinct hg.dependenciesOf_of_unknown,
    Table.upsert_id hg.distinct hg.dependentsOf_of_unknown,
    Table.upsert_id hg.distinct hg.inDegree_of_unknown]
  rfl

theorem WellFormed.adjacency_addEdge (hg : g.WellFormed) (d p : Path) :
    (g.addEdge d p).adjacency = g.adjacency.addEdge d p := by
  rw [Graph.addEdge, Adjacency.addEdge, contains_adjacency, contains_adjacency]
  split
  · next known =>
    obtain ⟨dependency, dependent⟩ := Bool.and_eq_true_iff.1 known
    simp only [adjacency, Table.upsert_of_known hg.distinct dependency,
      Table.upsert_of_known hg.distinct dependent]
    congr 1
    · refine Table.tabulate_congr fun q _ => ?_
      rw [dependenciesOf, dependenciesOf, List.filter_append, Path.beq_comm q p]
      cases same : p == q <;> simp [same]
    · refine Table.tabulate_congr fun q _ => ?_
      rw [dependentsOf, dependentsOf, List.filter_append, Path.beq_comm q d]
      cases same : d == q <;> simp [same]
    · refine Table.tabulate_congr fun q _ => ?_
      rw [inDegree, inDegree, List.countP_append, Path.beq_comm q p]
      cases same : p == q <;> simp [same]
  · rfl

/-- However a graph has come about, its maps are those of its recorded edges. -/
theorem adjacency_ofOperations (root : Path) (ops : List Operation) :
    Adjacency.ofOperations ops = (ofOperations root ops).adjacency := by
  induction ops using List.reverseRecOn with
  | nil => rfl
  | append_singleton ops op ih =>
    have hg : (ofOperations root ops).WellFormed := wellFormed_ofOperations root ops
    rw [Adjacency.ofOperations, ofOperations, List.foldl_concat, List.foldl_concat,
      ← Adjacency.ofOperations, ih, ← ofOperations]
    cases op with
    | addNode p => exact (hg.adjacency_addNode p).symm
    | addEdge d p => exact (hg.adjacency_addEdge d p).symm

/-- A repeated edge counts twice, an edge from a node to itself too, and one from elsewhere not at
all. -/
example :
    (Adjacency.ofOperations [.addNode ⟨"/a".toList⟩, .addNode ⟨"/b".toList⟩,
      .addEdge ⟨"/a".toList⟩ ⟨"/b".toList⟩, .addEdge ⟨"/a".toList⟩ ⟨"//b/".toList⟩,
      .addEdge ⟨"/b".toList⟩ ⟨"/b".toList⟩, .addEdge ⟨"/c".toList⟩ ⟨"/b".toList⟩]).inDegree.map
      Prod.snd = [0, 3] := by decide

/-! ### The maps compared -/

theorem dependentsOf_congr (g : Graph) (h : (p == q) = true) :
    g.dependentsOf p = g.dependentsOf q := by
  simp only [dependentsOf]
  congr 2
  funext e
  exact BEq.congr_right h

theorem WellFormed.get_dependencies (hg : g.WellFormed) (p : Path) :
    g.adjacency.dependencies.get p = g.dependenciesOf p :=
  Table.get_tabulate (fun _ same => g.dependenciesOf_congr same) hg.dependenciesOf_of_unknown

theorem WellFormed.get_dependents (hg : g.WellFormed) (p : Path) :
    g.adjacency.dependents.get p = g.dependentsOf p :=
  Table.get_tabulate (fun _ same => g.dependentsOf_congr same) hg.dependentsOf_of_unknown

theorem WellFormed.get_inDegree (hg : g.WellFormed) (p : Path) :
    g.adjacency.inDegree.get p = g.inDegree p := by
  refine Table.get_tabulate (fun q same => ?_) hg.inDegree_of_unknown
  rw [inDegree_eq_length, inDegree_eq_length, g.dependenciesOf_congr same]

end Graph

/-- The three maps have the same keys and tell the same of every edge. -/
structure Adjacency.Agrees (a : Adjacency) : Prop where
  distinct : Path.Distinct a.inDegree.keys
  dependencies_keys : a.dependencies.keys = a.inDegree.keys
  dependents_keys : a.dependents.keys = a.inDegree.keys
  degree : ∀ p, a.inDegree.get p = (a.dependencies.get p).length
  occurrences : ∀ p, a.inDegree.get p = (a.dependents.flatMap Prod.snd).countP (· == p)
  mirrored : ∀ p d,
    (a.dependencies.get p).countP (· == d) = (a.dependents.get d).countP (· == p)

theorem Graph.WellFormed.agrees_adjacency {g : Graph} (hg : g.WellFormed) :
    g.adjacency.Agrees where
  distinct := by
    rw [Graph.adjacency, Table.keys_tabulate]
    exact hg.distinct
  dependencies_keys := by simp only [Graph.adjacency, Table.keys_tabulate]
  dependents_keys := by simp only [Graph.adjacency, Table.keys_tabulate]
  degree p := by rw [hg.get_inDegree, hg.get_dependencies, g.inDegree_eq_length]
  occurrences p := by
    rw [hg.get_inDegree, ← hg.countP_dependents]
    simp only [Graph.adjacency, Table.tabulate, List.flatMap_map]
  mirrored p d := by rw [hg.get_dependencies, hg.get_dependents, g.countP_dependenciesOf]

end IslDocs
