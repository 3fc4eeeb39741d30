import IslDocs.Proofs.Project.Order
import IslDocs.Proofs.Reference.Inlining

/-! A document resolved as a whole: which files are inlined below it, how often, and how far down.
Every file is inlined once, within the depth, where a chain of reference lines leads to it. The
converse is less: a file that is first met at the greatest depth is inlined without the files it
names, and is passed over where a shorter chain leads to it. -/

namespace IslDocs.Inline

open IslDocs.Project (referencesOf)

/-- The document at `p`, at the top, makes the text `body`; the files inlined below it are `below`,
each with the levels left below it. -/
inductive Resolves (t : Tree) (maxDepth : Nat) (p : Path) (seen : List Path) : (body : Text) →
    (below : List (Path × Nat)) → (seen' : List Path) → Prop where
  | fault {fault : Fault} : t.readText p = .error fault →
      Resolves t maxDepth p seen (faultNotice p fault) [] seen
  | inlined {content : Text} {out : List Text} {below : List (Path × Nat)} {seen' : List Path} :
      t.readText p = .ok content →
      Inlines t maxDepth maxDepth p (Text.dropMark content).lines (addSeen seen p) out below seen' →
      Resolves t maxDepth p seen (Text.collapse (Text.unlines out)) below seen'

variable {t : Tree} {maxDepth n bound : Nat} {p q r : Path} {body : Text}
  {seen seen' : List Path} {below : List (Path × Nat)} {via : Path → Prop}

theorem exists_resolves (t : Tree) (path : Path) (maxDepth : Nat) (seen : List Path) :
    ∃ body below seen', Resolves t maxDepth (Path.absolute t.workPath path) seen body below seen' ∧
      resolve t path maxDepth seen = (Text.collapse (contextMap seen' ++ '\n' :: body), seen') := by
  cases read : t.readText (Path.absolute t.workPath path) with
  | error fault =>
    refine ⟨_, _, _, .fault read, ?_⟩
    simp [resolve, atDepth, read]
  | ok content =>
    obtain ⟨out, below, seen', runs, same⟩ := exists_inlines (t := t) (Nat.le_refl maxDepth)
      (Path.absolute t.workPath path) (Text.dropMark content).lines
      (addSeen seen (Path.absolute t.workPath path))
    refine ⟨_, _, _, .inlined read runs, ?_⟩
    simp [resolve, atDepth, read, same]

theorem Resolves.unique {body' : Text} {below' : List (Path × Nat)} {seen'' : List Path}
    (h : Resolves t maxDepth p seen body below seen')
    (h' : Resolves t maxDepth p seen body' below' seen'') :
    body = body' ∧ below = below' ∧ seen' = seen'' := by
  cases h with
  | fault fault =>
    cases h' with
    | fault fault' =>
      obtain rfl := Except.error.inj (fault.symm.trans fault')
      exact ⟨rfl, rfl, rfl⟩
    | inlined read => simp_all
  | inlined read runs =>
    cases h' with
    | fault fault => simp_all
    | inlined read' runs' =>
      obtain rfl := Except.ok.inj (read.symm.trans read')
      obtain ⟨rfl, rfl, rfl⟩ := runs.unique runs'
      exact ⟨rfl, rfl, rfl⟩

/-! ### Every file once -/

/-- The document itself, unless it has been seen. -/
def ownPath (seen : List Path) (p : Path) : List Path := if seen.contains p then [] else [p]

theorem addSeen_eq (seen : List Path) (p : Path) : addSeen seen p = seen ++ ownPath seen p := by
  unfold addSeen ownPath
  split
  · rw [List.append_nil]
  · rfl

theorem fresh_ownPath (seen : List Path) (p : Path) : Fresh seen (ownPath seen p) := by
  unfold ownPath
  split
  · exact fresh_nil seen
  · next new => exact fresh_singleton (Bool.eq_false_iff.2 new)

theorem mem_ownPath (h : q ∈ ownPath seen p) : q = p := by
  unfold ownPath at h
  split at h
  · cases h
  · exact List.mem_singleton.1 h

theorem contains_addSeen (seen : List Path) (p : Path) : (addSeen seen p).contains p = true := by
  unfold addSeen
  split
  · assumption
  · simp

/-- What is new below the document is not the document itself. -/
theorem filter_ownPath {new : List Path} (h : Fresh (addSeen seen p) new) :
    (ownPath seen p ++ new).filter (· != p) = new := by
  have own : (ownPath seen p).filter (· != p) = [] := List.filter_eq_nil_iff.2 fun q hq => by
    simp [mem_ownPath hq, bne]
  have others : ∀ q ∈ new, (q != p) = true := fun q hq => by
    rw [bne, Bool.not_eq_true', Bool.eq_false_iff]
    intro same
    have known := Path.contains_congr same (addSeen seen p)
    rw [contains_addSeen, h.unseen q hq] at known
    cases known
  simp [own, List.filter_eq_self.2 others]

/-- Every file is inlined once at most, within the depth, and only if a chain of reference lines of
files that are inlined leads to it. -/
theorem resolve_inlines_once (t : Tree) (path : Path) (maxDepth : Nat) (seen : List Path) :
    let top := Path.absolute t.workPath path
    ∃ body below fresh, Resolves t maxDepth top seen body below (seen ++ fresh) ∧
      resolve t path maxDepth seen =
        (Text.collapse (contextMap (seen ++ fresh) ++ '\n' :: body), seen ++ fresh) ∧
      Fresh seen fresh ∧
      (∀ q ∈ fresh, Readable t q ∧
        ∃ n ≤ maxDepth, Chain t (fun r => r = top ∨ r ∈ below.map Prod.fst) n top q) ∧
      below.map Prod.fst = fresh.filter (· != top) := by
  intro top
  obtain ⟨body, below, seen', resolves, same⟩ := exists_resolves t path maxDepth seen
  cases resolves with
  | @fault fault read =>
    refine ⟨faultNotice top fault, [], [], ?_, ?_, fresh_nil seen, fun _ none => ?_, rfl⟩
    · rw [List.append_nil]
      exact .fault read
    · rw [List.append_nil]
      exact same
    · cases none
  | @inlined content out below seen' read runs =>
    have total : seen' = seen ++ (ownPath seen top ++ below.map Prod.fst) := by
      rw [runs.seen_eq, addSeen_eq, List.append_assoc]
    have fresh : Fresh (addSeen seen top) (below.map Prod.fst) := runs.fresh
    subst total
    refine ⟨_, below, _, .inlined read runs, same, ?_, fun q hq => ?_, (filter_ownPath fresh).symm⟩
    · rw [addSeen_eq] at fresh
      exact (fresh_ownPath seen top).append fresh
    · rcases List.mem_append.1 hq with own | hq
      · rw [mem_ownPath own]
        exact ⟨⟨content, read⟩, 0, Nat.zero_le _, .nil _⟩
      · obtain ⟨f, hf, rfl⟩ := List.mem_map.1 hq
        obtain ⟨n, levels, chain⟩ := runs.chain (linesOf_content read) f hf
        exact ⟨runs.readable f hf, n, by omega, chain⟩

/-! ### Chains by their last link -/

theorem Chain.snoc (h : Chain t via n p q) (inside : via q) (names : Names t q r) :
    Chain t via (n + 1) p r := by
  induction h with
  | nil p => exact .cons inside names (.nil r)
  | cons first names' _ ih => exact .cons first names' (ih inside names)

theorem Chain.last (h : Chain t via (n + 1) p r) :
    ∃ q, Chain t via n p q ∧ via q ∧ Names t q r := by
  induction n generalizing p with
  | zero =>
    cases h with
    | cons inside names rest =>
      cases rest
      exact ⟨p, .nil p, inside, names⟩
  | succ n ih =>
    cases h with
    | cons inside names rest =>
      obtain ⟨q, chain, last⟩ := ih rest
      exact ⟨q, .cons inside names chain, last⟩

/-- Whatever a chain of at most `bound` links leads to is known, if what the files in it name is. -/
theorem Chain.mem_of_closed (start : Readable t p → p ∈ seen')
    (closed : ∀ n < bound, ∀ q ∈ seen', Chain t via n p q → via q →
      ∀ r, Names t q r → Readable t r → r ∈ seen')
    (within : n ≤ bound) (h : Chain t via n p q) (readable : Readable t q) : q ∈ seen' := by
  induction n generalizing q with
  | zero =>
    cases h
    exact start readable
  | succ n ih =>
    obtain ⟨r, chain, inside, names⟩ := h.last
    have known := ih (Nat.le_of_succ_le within) chain names.readable
    exact closed n within r known chain inside q names readable

/-! ### Spelling -/

theorem Readable.text_ne_nil (h : Readable t p) : p.text ≠ [] := by
  intro empty
  obtain ⟨content, read⟩ := h
  obtain ⟨loc, bytes, found, -⟩ := Tree.readText_eq_ok_iff.1 read
  rw [Tree.locate, empty] at found
  cases found

theorem Readable.location_ne_nil (rooted : p.Rooted) (h : Readable t p) : p.location ≠ [] := by
  intro root
  obtain ⟨content, read⟩ := h
  obtain ⟨loc, bytes, found, held, -⟩ := Tree.readText_eq_ok_iff.1 read
  rw [rooted.eq_ofLocation, root] at found
  obtain rfl : [] = loc := Except.ok.inj found
  cases held

theorem Names.rooted (names : Names t p q) (rooted : p.Rooted) : q.Rooted :=
  Plan.rooted_of_mem_referencesOf rooted (names.readable.location_ne_nil rooted) names

theorem Chain.rooted (h : Chain t via n p q) (rooted : p.Rooted) : q.Rooted := by
  induction h with
  | nil => exact rooted
  | cons _ names _ ih => exact ih (names.rooted rooted)

theorem rooted_of_readable {path : Path} (h : Readable t (Path.absolute t.workPath path)) :
    (Path.absolute t.workPath path).Rooted := by
  refine Project.rooted_absolute t fun empty => h.text_ne_nil ?_
  simp [Path.absolute, empty]

/-! ### How far down -/

/-- The file at `q` was inlined with no levels left below it. -/
def Exhausted (maxDepth : Nat) (top : Path) (below : List (Path × Nat)) (q : Path) : Prop :=
  (q, 0) ∈ (top, maxDepth) :: below

theorem Resolves.start (h : Resolves t maxDepth p [] body below seen') (readable : Readable t p) :
    p ∈ seen' := by
  cases h with
  | fault fault =>
    obtain ⟨content, read⟩ := readable
    rw [read] at fault
    cases fault
  | inlined _ runs =>
    rw [runs.seen_eq]
    exact List.mem_cons_self

/-- What is seen has been inlined. -/
theorem Resolves.listed (h : Resolves t maxDepth p [] body below seen') (hq : q ∈ seen') :
    ∃ left, (q, left) ∈ (p, maxDepth) :: below := by
  cases h with
  | fault => cases hq
  | inlined _ runs =>
    have total : seen' = ((p, maxDepth) :: below).map Prod.fst := runs.seen_eq
    obtain ⟨⟨q, left⟩, hf, rfl⟩ := List.mem_map.1 (total ▸ hq)
    exact ⟨left, hf⟩

theorem Resolves.rooted (h : Resolves t maxDepth p [] body below seen')
    (rooted : Readable t p → p.Rooted) (hq : q ∈ seen') : q.Rooted := by
  obtain ⟨left, hf⟩ := h.listed hq
  cases h with
  | fault => cases hq
  | @inlined content _ _ _ read runs =>
    have rooted := rooted ⟨content, read⟩
    rcases List.mem_cons.1 hf with same | hf
    · cases same
      exact rooted
    · obtain ⟨n, -, chain⟩ := runs.chain (linesOf_content read) _ hf
      exact chain.rooted rooted

/-- What a file names is seen, unless no levels were left below the file. -/
theorem Resolves.closed (h : Resolves t maxDepth p [] body below seen')
    (rooted : Readable t p → p.Rooted) (hq : q ∈ seen') (levels : ¬ Exhausted maxDepth p below q)
    (names : Names t q r) (readable : Readable t r) : r ∈ seen' := by
  obtain ⟨left, hf⟩ := h.listed hq
  have positive : 0 < left := by
    rcases Nat.eq_zero_or_pos left with rfl | positive
    · exact (levels hf).elim
    · exact positive
  have known : seen'.contains r = true := by
    cases h with
    | fault => cases hq
    | inlined read runs =>
      rcases List.mem_cons.1 hf with same | hf
      · cases same
        obtain ⟨line, found, target, named, rfl⟩ := (names_iff read).1 names
        exact runs.reached positive line found target named readable
      · exact runs.closed _ hf positive r names readable
  obtain ⟨r', hr', same⟩ := List.contains_iff_exists_mem_beq.1 known
  rwa [(names.rooted (h.rooted rooted hq)).eq_of_beq (h.rooted rooted hr') same]

/-- A file is seen, and so inlined, if a chain leads to it and levels were left below every other
file in the chain. The files within the depth are all seen exactly if those are that the files
without levels left name. -/
theorem resolve_reaches (t : Tree) (path : Path) (maxDepth : Nat) :
    let top := Path.absolute t.workPath path
    ∃ body below seen', Resolves t maxDepth top [] body below seen' ∧
      resolve t path maxDepth [] = (Text.collapse (contextMap seen' ++ '\n' :: body), seen') ∧
      (∀ q ∈ seen', ∃ left, (q, left) ∈ (top, maxDepth) :: below) ∧
      (∀ n q, Chain t (fun r => ¬ Exhausted maxDepth top below r) n top q → Readable t q →
        q ∈ seen') ∧
      ((∀ n ≤ maxDepth, ∀ q, Chain t (fun _ => True) n top q → Readable t q → q ∈ seen') ↔
        ∀ n < maxDepth, ∀ r, Chain t (fun _ => True) n top r → Exhausted maxDepth top below r →
          ∀ q, Names t r q → Readable t q → q ∈ seen') := by
  intro top
  obtain ⟨body, below, seen', resolves, same⟩ := exists_resolves t path maxDepth []
  refine ⟨body, below, seen', resolves, same, fun q => resolves.listed, fun n q chain readable => ?_,
    fun all n within r chain _ q names readable =>
      all (n + 1) within q (chain.snoc trivial names) readable,
    fun named n within q chain readable => ?_⟩
  · exact chain.mem_of_closed resolves.start (fun n _ q hq _ levels r names readable =>
      resolves.closed rooted_of_readable hq levels names readable) (Nat.le_refl n) readable
  · refine chain.mem_of_closed resolves.start (fun n within q hq chain _ r names readable => ?_)
      within readable
    by_cases exhausted : Exhausted maxDepth top below q
    · exact named n within q chain exhausted r names readable
    · exact resolves.closed rooted_of_readable hq exhausted names readable

/-! ### A file met too far down -/

/-- The first document names the third both through the second and itself. -/
def shortcut : Tree where
  entries :=
    [(["a.md".toList], .file "> **Reference**: [b](b.md)\n> **Reference**: [c](c.md)\n".toUTF8),
     (["b.md".toList], .file "> **Reference**: [c](c.md)\n".toUTF8),
     (["c.md".toList], .file "> **Reference**: [d](d.md)\n".toUTF8),
     (["d.md".toList], .file "# D\n".toUTF8)]
  workDir := []

/-- A chain of two reference lines leads to the last document, but the third is met two levels down
before and leaves nothing where a level would be left for the last. -/
theorem shortcut_missed : shortcut.WellFormed ∧ ∃ q, Chain shortcut (fun _ => True) 2
    (Path.absolute shortcut.workPath ⟨"a.md".toList⟩) q ∧ Readable shortcut q ∧
      q ∉ (resolve shortcut ⟨"a.md".toList⟩ 2 []).2 := by
  have first : referencesOf shortcut ⟨"/a.md".toList⟩ = [⟨"/b.md".toList⟩, ⟨"/c.md".toList⟩] :=
    Path.map_text_injective (by decide +kernel)
  have third : referencesOf shortcut ⟨"/c.md".toList⟩ = [⟨"/d.md".toList⟩] :=
    Path.map_text_injective (by decide +kernel)
  have top : Path.absolute shortcut.workPath ⟨"a.md".toList⟩ = ⟨"/a.md".toList⟩ :=
    List.singleton_inj.1 (Path.map_text_injective (by decide +kernel))
  have seen : (resolve shortcut ⟨"a.md".toList⟩ 2 []).2 =
      [⟨"/a.md".toList⟩, ⟨"/b.md".toList⟩, ⟨"/c.md".toList⟩] :=
    Path.map_text_injective (by decide +kernel)
  refine ⟨by decide +kernel, ⟨"/d.md".toList⟩, ?_, ⟨"# D\n".toList, by decide +kernel⟩, ?_⟩
  · rw [top]
    refine .cons trivial (q := ⟨"/c.md".toList⟩) ?_ (.cons trivial ?_ (.nil _))
    · rw [Names, first]
      exact List.mem_cons_of_mem _ List.mem_cons_self
    · rw [Names, third]
      exact List.mem_cons_self
  · rw [seen]
    intro missed
    have texts := List.mem_map_of_mem (f := Path.text) missed
    revert texts
    decide

end IslDocs.Inline
