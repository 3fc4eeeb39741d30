import IslDocs.Proofs.Reference.Walk

/-! Inlining with as many levels as the tree has files. The levels never run out, since every file
on the way down has been seen, so the rules need no account of them; and what is seen is the
depth-first walk. -/

namespace IslDocs.Inline

open IslDocs.Path (Distinct)
open IslDocs.Project (referencesOf)

/-! ### Inlining without a greatest depth -/

/-- Inlining the lines of the file at `p`, however far down references go, makes the lines `out`;
the files inlined are `new`, in the order in which they are met. -/
inductive Follows (t : Tree) : (p : Path) → (lines : List Text) → (seen : List Path) →
    (out : List Text) → (new : List Path) → Prop where
  | done {p seen} : Follows t p [] seen [] []
  | line {p line lines seen out new} :
      Reference.target? line = none →
      Follows t p lines seen out new →
      Follows t p (line :: lines) seen (line :: out) new
  | repeated {p line target lines seen out new} :
      Reference.target? line = some target →
      seen.contains (Path.resolveAgainst p target) = true →
      Follows t p lines seen out new →
      Follows t p (line :: lines) seen (line :: block target [] ++ out) new
  | fault {p line target q fault lines seen out new} :
      Reference.target? line = some target →
      Path.resolveAgainst p target = q →
      seen.contains q = false →
      t.readText q = .error fault →
      Follows t p lines seen out new →
      Follows t p (line :: lines) seen (line :: block target (faultNotice q fault) ++ out) new
  | inlined {p line target q content lines seen inner below out new} :
      Reference.target? line = some target →
      Path.resolveAgainst p target = q →
      seen.contains q = false →
      t.readText q = .ok content →
      Follows t q (Text.dropMark content).lines (seen ++ [q]) inner below →
      Follows t p lines (seen ++ q :: below) out new →
      Follows t p (line :: lines) seen
        (line :: block target (Text.collapse (Text.unlines inner)) ++ out) (q :: below ++ new)

/-- The document at `p`, with all that it leads to, makes the text `body`; the files inlined are
`order`. -/
inductive Unfolds (t : Tree) (p : Path) : (body : Text) → (order : List Path) → Prop where
  | fault {fault : Fault} : t.readText p = .error fault → Unfolds t p (faultNotice p fault) []
  | inlined {content : Text} {out : List Text} {new : List Path} :
      t.readText p = .ok content →
      Follows t p (Text.dropMark content).lines [p] out new →
      Unfolds t p (Text.collapse (Text.unlines out)) (p :: new)

variable {t : Tree} {maxDepth left : Nat} {p q top : Path} {line target content body : Text}
  {lines out : List Text} {seen seen' new order : List Path} {files : List (Path × Nat)}

/-! ### As many levels as files -/

/-- Different files that can be read, each spelled as a normal path. -/
structure Visited (t : Tree) (seen : List Path) : Prop where
  fresh : Fresh [] seen
  readable : ∀ q ∈ seen, Readable t q
  rooted : ∀ q ∈ seen, q.Rooted

theorem Visited.length_le (ht : t.WellFormed) (h : Visited t seen) :
    seen.length ≤ (t.filesBelow []).length := by
  have nodup : (seen.map Path.location).Nodup := by
    have distinct := Path.distinct_iff.1 h.fresh.distinct
    refine List.Nodup.map_on (fun p hp q hq same => ?_) distinct.of_map
    rw [(h.rooted p hp).eq_ofLocation, (h.rooted q hq).eq_ofLocation, same]
  have files : seen.map Path.location ⊆ t.filesBelow [] := by
    intro loc hloc
    obtain ⟨q, hq, rfl⟩ := List.mem_map.1 hloc
    have rooted := h.rooted q hq
    obtain ⟨text, read⟩ := h.readable q hq
    rw [rooted.eq_ofLocation, ht.readText_ofLocation rooted.plain] at read
    obtain ⟨-, content, held, -⟩ := read
    exact (Project.mem_filesBelow ht).2
      ⟨List.nil_prefix, (h.readable q hq).location_ne_nil rooted, content, held⟩
  simpa using (List.subperm_of_subset nodup files).length_le

theorem Visited.append (h : Visited t seen) (fresh : Fresh seen new)
    (readable : ∀ q ∈ new, Readable t q) (rooted : ∀ q ∈ new, q.Rooted) :
    Visited t (seen ++ new) where
  fresh := h.fresh.append fresh
  readable := fun q hq => (List.mem_append.1 hq).elim (h.readable q) (readable q)
  rooted := fun q hq => (List.mem_append.1 hq).elim (h.rooted q) (rooted q)

theorem Inlines.visited (h : Inlines t maxDepth left p lines seen out files seen')
    (visited : Visited t seen) (rooted : p.Rooted) (of : LinesOf t p lines) : Visited t seen' := by
  rw [h.seen_eq]
  refine visited.append h.fresh (fun q hq => ?_) (fun q hq => ?_)
  · obtain ⟨f, hf, rfl⟩ := List.mem_map.1 hq
    exact h.readable f hf
  · obtain ⟨f, hf, rfl⟩ := List.mem_map.1 hq
    obtain ⟨n, -, chain⟩ := h.chain of f hf
    exact chain.rooted rooted

theorem LinesOf.tail {line : Text} (h : LinesOf t p (line :: lines)) : LinesOf t p lines :=
  fun other listed => h other (List.mem_cons_of_mem _ listed)

/-- The levels do not run out as long as there are more of them than files not yet seen. -/
theorem Inlines.follows (ht : t.WellFormed)
    (h : Inlines t maxDepth left p lines seen out files seen') (visited : Visited t seen)
    (rooted : p.Rooted) (of : LinesOf t p lines)
    (enough : (t.filesBelow []).length < seen.length + left) :
    Follows t p lines seen out (files.map Prod.fst) := by
  induction h with
  | done => exact .done
  | line none _ ih => exact .line none (ih visited rooted of.tail enough)
  | withheld found withheld _ ih =>
    have rest := ih visited rooted of.tail enough
    cases withheld with
    | cut =>
      have few := visited.length_le ht
      omega
    | repeated known => exact .repeated found known rest
    | fault new fault => exact .fault found rfl new fault rest
  | @inlined left p line target q content _ seen _ _ _ _ _ _ found same new read inner _ below ih =>
    have names : Names t p q := same ▸ of line List.mem_cons_self target found
    have entered : Visited t (seen ++ [q]) := visited.append (fresh_singleton new)
      (fun r hr => List.mem_singleton.1 hr ▸ ⟨content, read⟩)
      (fun r hr => List.mem_singleton.1 hr ▸ names.rooted rooted)
    have between := inner.visited entered (names.rooted rooted) (linesOf_content read)
    have inside := below entered (names.rooted rooted) (linesOf_content read) (by simp; omega)
    have rest := ih between rooted of.tail (by rw [inner.seen_eq]; simp; omega)
    rw [inner.seen_eq, List.append_assoc, List.singleton_append] at rest
    rw [List.map_append, List.map_cons]
    exact .inlined found same new read inside rest

/-- Conversely, with more levels than files that are inlined, no level matters. -/
theorem Follows.inlines (h : Follows t p lines seen out new) (maxDepth : Nat)
    (enough : new.length < left) :
    ∃ files, files.map Prod.fst = new ∧
      Inlines t maxDepth left p lines seen out files (seen ++ new) := by
  induction h generalizing left with
  | @done _ seen =>
    rw [List.append_nil]
    exact ⟨[], rfl, .done⟩
  | line none _ ih =>
    obtain ⟨files, rfl, runs⟩ := ih enough
    exact ⟨files, rfl, .line none runs⟩
  | repeated found known _ ih =>
    obtain ⟨files, rfl, runs⟩ := ih enough
    cases left with
    | zero => cases enough
    | succ left => exact ⟨files, rfl, .withheld found (.repeated known) runs⟩
  | fault found same new fault _ ih =>
    obtain ⟨files, rfl, runs⟩ := ih enough
    subst same
    cases left with
    | zero => cases enough
    | succ left => exact ⟨files, rfl, .withheld found (.fault new fault) runs⟩
  | @inlined _ _ _ q _ _ seen _ below _ new found same unseen read _ _ inside ih =>
    cases left with
    | zero => cases enough
    | succ left =>
      simp only [List.length_append, List.length_cons] at enough
      have deep : below.length < left := by omega
      have wide : new.length < left + 1 := by omega
      obtain ⟨below, rfl, inner⟩ := inside deep
      obtain ⟨files, rfl, runs⟩ := ih wide
      have between : seen ++ q :: below.map Prod.fst = seen ++ [q] ++ below.map Prod.fst := by simp
      refine ⟨(q, left) :: below ++ files, by simp, ?_⟩
      rw [between] at runs
      rw [List.cons_append, ← List.append_assoc, between]
      exact .inlined found same unseen read inner runs

/-! ### Inlining as a walk -/

/-- What the references in lines of the file at `p` name. -/
def referencesIn (p : Path) (lines : List Text) : List Path :=
  (lines.filterMap Reference.target?).map (Path.resolveAgainst p)

/-- A walk has come to the file at `p` and, below it, to all that the lines before `lines` lead to;
the files after `p` name nothing new any more. -/
structure Stands (t : Tree) (top p : Path) (lines : List Text) (seen : List Path) : Prop where
  walk : Walk t top seen
  latest : ∃ earlier later, seen = earlier ++ p :: later ∧
    ∀ r ∈ later, firstNew? t seen r = none
  passed : ∃ before, referencesOf t p = before ++ referencesIn p lines ∧
    ∀ r ∈ before, isNew t seen r = false

theorem referencesIn_cons (found : Reference.target? line = some target) :
    referencesIn p (line :: lines) = Path.resolveAgainst p target :: referencesIn p lines := by
  simp [referencesIn, List.filterMap_cons_some found]

theorem referencesOf_eq (read : t.readText p = .ok content) :
    referencesOf t p = referencesIn p (Text.dropMark content).lines := by
  rw [referencesOf, read]
  rfl

namespace Stands

theorem skip (h : Stands t top p (line :: lines) seen) (none : Reference.target? line = none) :
    Stands t top p lines seen where
  walk := h.walk
  latest := h.latest
  passed := by
    obtain ⟨before, split, old⟩ := h.passed
    rw [referencesIn, List.filterMap_cons_none none] at split
    exact ⟨before, split, old⟩

/-- Past a reference, once what it names is new no more. -/
theorem pass (h : Stands t top p (line :: lines) seen)
    (found : Reference.target? line = some target) (walk : Walk t top (seen ++ new))
    (spent : ∀ r ∈ new, firstNew? t (seen ++ new) r = none)
    (old : isNew t (seen ++ new) (Path.resolveAgainst p target) = false) :
    Stands t top p lines (seen ++ new) where
  walk := walk
  latest := by
    obtain ⟨earlier, later, split, done⟩ := h.latest
    refine ⟨earlier, later ++ new, by rw [split]; simp, fun r hr => ?_⟩
    rcases List.mem_append.1 hr with hr | hr
    · exact firstNew?_append (done r hr) new
    · exact spent r hr
  passed := by
    obtain ⟨before, split, old'⟩ := h.passed
    rw [referencesIn_cons found, List.append_cons] at split
    refine ⟨_, split, fun r hr => ?_⟩
    rcases List.mem_append.1 hr with hr | hr
    · exact isNew_append (old' r hr) new
    · rw [List.mem_singleton.1 hr]
      exact old

theorem passOld (h : Stands t top p (line :: lines) seen)
    (found : Reference.target? line = some target)
    (old : isNew t seen (Path.resolveAgainst p target) = false) : Stands t top p lines seen := by
  rw [← List.append_nil seen] at old ⊢
  exact h.pass found (by simpa using h.walk) (by simp) old

/-- Down to what a reference names, if it is new. -/
theorem enter (h : Stands t top p (line :: lines) seen)
    (found : Reference.target? line = some target) (same : Path.resolveAgainst p target = q)
    (new : seen.contains q = false) (read : t.readText q = .ok content) :
    Stands t top q (Text.dropMark content).lines (seen ++ [q]) where
  walk := by
    obtain ⟨earlier, later, split, done⟩ := h.latest
    obtain ⟨before, named, old⟩ := h.passed
    refine h.walk.snoc (next?_eq_some_iff.2 ⟨earlier, p, later, split, ?_, done⟩)
    rw [referencesIn_cons found, same] at named
    rw [firstNew?, List.find?_eq_some_iff_append]
    exact ⟨isNew_iff.2 ⟨⟨content, read⟩, new⟩, before, _, named, fun r hr => by simp [old r hr]⟩
  latest := ⟨seen, [], rfl, by simp⟩
  passed := ⟨[], referencesOf_eq read, by simp⟩

theorem done (h : Stands t top p [] seen) : firstNew? t seen p = none := by
  obtain ⟨before, named, old⟩ := h.passed
  rw [firstNew?, named, List.find?_eq_none]
  intro r hr
  rw [referencesIn, List.filterMap_nil, List.map_nil, List.append_nil] at hr
  simp [old r hr]

end Stands

/-- What inlining has seen in the end is a walk; the files that are inlined name nothing new any
more, and neither does the file at `p`. -/
theorem Follows.walk (h : Follows t p lines seen out new) (stands : Stands t top p lines seen) :
    Walk t top (seen ++ new) ∧ ∀ r ∈ p :: new, firstNew? t (seen ++ new) r = none := by
  induction h with
  | done =>
    rw [List.append_nil]
    exact ⟨stands.walk, fun r hr => List.mem_singleton.1 hr ▸ stands.done⟩
  | line none _ ih => exact ih (stands.skip none)
  | repeated found known _ ih => exact ih (stands.passOld found (by simp [isNew, known]))
  | @fault _ _ _ q _ _ seen _ _ found same _ fault _ ih =>
    have unread : isNew t seen q = false := by
      rw [isNew, fault]
      rfl
    exact ih (stands.passOld found (same ▸ unread))
  | @inlined p _ _ q _ _ seen _ below _ new found same unseen read _ _ inside ih =>
    obtain ⟨walk, spent⟩ := inside (stands.enter found same unseen read)
    rw [List.append_assoc, List.singleton_append] at walk spent
    have old : isNew t (seen ++ q :: below) q = false := by simp [isNew]
    obtain ⟨walk, spent'⟩ := ih (stands.pass found walk spent (same ▸ old))
    rw [List.append_assoc] at walk spent'
    refine ⟨walk, fun r hr => ?_⟩
    rw [List.mem_cons, List.mem_append] at hr
    rcases hr with rfl | hr | hr
    · exact spent' r List.mem_cons_self
    · rw [← List.append_assoc]
      exact firstNew?_append (spent r hr) new
    · exact spent' r (List.mem_cons_of_mem _ hr)

theorem Unfolds.completeWalk (h : Unfolds t top body order) : CompleteWalk t top order := by
  cases h with
  | fault fault =>
    refine ⟨.nil, fun ⟨content, read⟩ => ?_, rfl⟩
    rw [read] at fault
    cases fault
  | inlined read follows =>
    have stands : Stands t top top _ [top] :=
      ⟨.start ⟨_, read⟩, ⟨[], [], rfl, by simp⟩, ⟨[], referencesOf_eq read, by simp⟩⟩
    obtain ⟨walk, spent⟩ := follows.walk stands
    exact ⟨walk, fun _ => List.cons_ne_nil _ _, next?_eq_none_iff.2 spent⟩

/-! ### Documents as a whole -/

theorem Resolves.resolve_eq {path : Path} {below : List (Path × Nat)}
    (h : Resolves t maxDepth (Path.absolute t.workPath path) [] body below seen') :
    resolve t path maxDepth [] = (Text.collapse (contextMap seen' ++ '\n' :: body), seen') := by
  obtain ⟨_, _, _, resolves, same⟩ := exists_resolves t path maxDepth []
  obtain ⟨rfl, -, rfl⟩ := h.unique resolves
  exact same

/-- The result does not depend on the levels, if there are as many as files. -/
theorem exists_unfolds (ht : t.WellFormed) (path : Path) :
    ∃ body order, Unfolds t (Path.absolute t.workPath path) body order ∧
      ∀ maxDepth, (t.filesBelow []).length ≤ maxDepth →
        resolve t path maxDepth [] = (Text.collapse (contextMap order ++ '\n' :: body), order) := by
  obtain ⟨body, below, seen', resolves, -⟩ := exists_resolves t path (t.filesBelow []).length []
  cases resolves with
  | fault fault => exact ⟨_, [], .fault fault, fun _ _ => Resolves.resolve_eq (.fault fault)⟩
  | @inlined content out _ _ read runs =>
    have rooted := rooted_of_readable ⟨content, read⟩
    have start : Visited t [Path.absolute t.workPath path] :=
      ⟨fresh_singleton rfl, by simpa using ⟨content, read⟩, by simpa using rooted⟩
    have follows := runs.follows ht start rooted (linesOf_content read) (by simp [addSeen])
    have few := (runs.visited start rooted (linesOf_content read)).length_le ht
    rw [runs.seen_eq, List.length_append] at few
    refine ⟨_, _, .inlined read follows, fun maxDepth levels => ?_⟩
    have deep : (below.map Prod.fst).length < maxDepth := by
      simp [addSeen] at few ⊢
      omega
    obtain ⟨_, -, runs'⟩ := follows.inlines maxDepth deep
    exact Resolves.resolve_eq (.inlined read runs')

/-- With at least as many levels as the tree has files, a document is inlined as if there were no
greatest depth. The files seen are those that can be read and that chains of reference lines lead
to, each once and in the order of the depth-first walk. -/
theorem resolve_lists_preorder (ht : t.WellFormed) (path : Path) :
    let top := Path.absolute t.workPath path
    ∃ body order, Unfolds t top body order ∧
      (∀ maxDepth, (t.filesBelow []).length ≤ maxDepth →
        resolve t path maxDepth [] = (Text.collapse (contextMap order ++ '\n' :: body), order)) ∧
      Distinct order ∧
      (∀ q, q ∈ order ↔ Readable t q ∧ ∃ n, Chain t (fun _ => True) n top q) ∧
      (order = [] ↔ ¬ Readable t top) ∧
      ∀ order', CompleteWalk t top order' ↔ order' = order := by
  intro top
  obtain ⟨body, order, unfolds, same⟩ := exists_unfolds ht path
  have complete := unfolds.completeWalk
  have reached : ∀ q, q ∈ order ↔ Readable t q ∧ ∃ n, Chain t (fun _ => True) n top q := fun q =>
    complete.mem_iff rooted_of_readable
  refine ⟨body, order, unfolds, same, complete.walk.distinct, reached, ⟨fun empty readable => ?_,
    fun unread => ?_⟩, fun order' => ⟨fun other => ?_, fun same => same ▸ complete⟩⟩
  · exact complete.start readable empty
  · refine List.eq_nil_iff_forall_not_mem.2 fun q hq => unread ?_
    obtain ⟨readable, n, chain⟩ := (reached q).1 hq
    exact chain.readable readable
  · exact other.unique complete

/-! ### Documents in a circle -/

/-- The first document leads through the second and the fourth to the third before it names the
third itself; the second is named by the first and the third, and one name leads to nothing. -/
def circle : Tree where
  entries :=
    [(["a.md".toList], .file "> **Reference**: [b](b.md)\n> **Reference**: [c](c.md)\n".toUTF8),
     (["b.md".toList], .file "> **Reference**: [d](d.md)\n> **Reference**: [a](a.md)\n".toUTF8),
     (["c.md".toList], .file "> **Reference**: [b](b.md)\n".toUTF8),
     (["d.md".toList], .file "> **Reference**: [e](e.md)\n> **Reference**: [c](c.md)\n".toUTF8)]
  workDir := []

theorem circle_lists_preorder : circle.WellFormed ∧ (circle.filesBelow []).length ≤ 4 ∧
    (resolve circle ⟨"a.md".toList⟩ 4 []).2 =
      [⟨"/a.md".toList⟩, ⟨"/b.md".toList⟩, ⟨"/d.md".toList⟩, ⟨"/c.md".toList⟩] ∧
    CompleteWalk circle (Path.absolute circle.workPath ⟨"a.md".toList⟩)
      [⟨"/a.md".toList⟩, ⟨"/b.md".toList⟩, ⟨"/d.md".toList⟩, ⟨"/c.md".toList⟩] := by
  have wellFormed : circle.WellFormed := by decide +kernel
  have levels : (circle.filesBelow []).length ≤ 4 := by decide
  have seen : (resolve circle ⟨"a.md".toList⟩ 4 []).2 =
      [⟨"/a.md".toList⟩, ⟨"/b.md".toList⟩, ⟨"/d.md".toList⟩, ⟨"/c.md".toList⟩] :=
    Path.map_text_injective (by decide +kernel)
  obtain ⟨body, order, -, same, -, -, -, unique⟩ :=
    resolve_lists_preorder wellFormed ⟨"a.md".toList⟩
  refine ⟨wellFormed, levels, seen, (unique _).2 ?_⟩
  rw [← seen, same 4 levels]

end IslDocs.Inline
