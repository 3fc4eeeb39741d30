import IslDocs.Proofs.Tree.Location

/-! Trees that differ in what their files hold. Paths lead to the same places in them, and the same
files lie below a location. -/

namespace IslDocs

def Node.mapContent (f : ByteArray → ByteArray) : Node → Node
  | .directory => .directory
  | .file content => .file (f content)

namespace Tree

variable {t : Tree} {f : Location → ByteArray → ByteArray} {loc : Location} {p : Path}

/-- The tree with other contents in its files. -/
def mapFiles (f : Location → ByteArray → ByteArray) (t : Tree) : Tree where
  entries := t.entries.map fun entry => (entry.1, entry.2.mapContent (f entry.1))
  workDir := t.workDir

@[simp] theorem node?_mapFiles (f : Location → ByteArray → ByteArray) (t : Tree) (loc : Location) :
    (t.mapFiles f).node? loc = (t.node? loc).map (Node.mapContent (f loc)) := by
  rcases eq_or_ne loc [] with rfl | hne
  · rfl
  · rw [node?_of_ne_nil hne, node?_of_ne_nil hne, mapFiles]
    induction t.entries with
    | nil => rfl
    | cons entry rest ih =>
      rw [List.map_cons, List.lookup_cons, List.lookup_cons]
      rcases eq_or_ne loc entry.1 with rfl | other
      · simp
      · simpa [beq_eq_false_iff_ne.2 other] using ih

@[simp] theorem isDirectoryAt_mapFiles :
    (t.mapFiles f).isDirectoryAt loc = t.isDirectoryAt loc := by
  rw [isDirectoryAt, isDirectoryAt, node?_mapFiles]
  cases t.node? loc with
  | none => rfl
  | some node => cases node <;> rfl

theorem WellFormed.mapFiles (ht : t.WellFormed) (f : Location → ByteArray → ByteArray) :
    (t.mapFiles f).WellFormed where
  nodup := by simpa [Tree.mapFiles, Function.comp_def] using ht.nodup
  ne_root := List.forall_mem_map.2 ht.ne_root
  names := List.forall_mem_map.2 ht.names
  parent := List.forall_mem_map.2 fun entry held =>
    isDirectoryAt_mapFiles.trans (ht.parent entry held)
  workDir := isDirectoryAt_mapFiles.trans ht.workDir

@[simp] theorem advance_mapFiles (f : Location → ByteArray → ByteArray) (t : Tree) :
    (t.mapFiles f).advance = t.advance := by
  funext loc s
  simp only [advance, node?_mapFiles]
  cases t.node? loc with
  | none => rfl
  | some node => cases node <;> rfl

@[simp] theorem locate_mapFiles (f : Location → ByteArray → ByteArray) (t : Tree) (p : Path) :
    (t.mapFiles f).locate p = t.locate p := by
  rw [locate, locate, advance_mapFiles]
  rfl

@[simp] theorem filesBelow_mapFiles (f : Location → ByteArray → ByteArray) (t : Tree)
    (loc : Location) : (t.mapFiles f).filesBelow loc = t.filesBelow loc := by
  rw [filesBelow, filesBelow, mapFiles, List.filterMap_map]
  refine List.filterMap_congr fun entry _ => ?_
  obtain ⟨l, node⟩ := entry
  cases node <;> rfl

theorem read_mapFiles (found : t.locate p = .ok loc) :
    (t.mapFiles f).read p = (t.read p).map (f loc) := by
  simp only [read, locate_mapFiles, found, node?_mapFiles, bind, Except.bind]
  cases t.node? loc with
  | none => rfl
  | some node => cases node <;> rfl

theorem readText_of_locate_error {fault : Fault} (lost : t.locate p = .error fault) :
    t.readText p = .error fault := by
  simp [readText, read, lost, bind, Except.bind]

end Tree
end IslDocs
