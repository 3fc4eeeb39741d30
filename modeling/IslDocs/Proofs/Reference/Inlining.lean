import IslDocs.Project.Documents
import IslDocs.Proofs.Path.Same
import IslDocs.Reference.Inline

/-! Inlining as a relation. The rules say line by line what stands in the text after a reference
line and which files have been seen by then, and they keep account of the files that are inlined,
each with the number of levels left below it. What holds of every run is proved rule by rule. -/

namespace IslDocs.Inline

open IslDocs.Path (Distinct)

/-! ### Chains of reference lines -/

def Readable (t : Tree) (p : Path) : Prop := ∃ content, t.readText p = .ok content

/-- A reference line of the file at `p` names the path `q`. -/
def Names (t : Tree) (p q : Path) : Prop := q ∈ Project.referencesOf t p

/-- Reference lines of files in `via` lead from `p` to `q`. -/
inductive Chain (t : Tree) (via : Path → Prop) : (length : Nat) → Path → Path → Prop where
  | nil (p : Path) : Chain t via 0 p p
  | cons {n : Nat} {p q r : Path} : via p → Names t p q → Chain t via n q r →
      Chain t via (n + 1) p r

/-! ### The rules -/

/-- What is put after a reference line. -/
def block (target inlined : Text) : List Text := [[], opening target, inlined, closing, []]

/-- The file at `q` is not inlined, if references may go down `left` more levels, and `text` stands
for it. -/
inductive Withheld (t : Tree) (maxDepth : Nat) (seen : List Path) (q : Path) :
    (left : Nat) → (text : Text) → Prop where
  | cut : Withheld t maxDepth seen q 0 (depthNotice maxDepth q)
  | repeated {left : Nat} : seen.contains q = true → Withheld t maxDepth seen q (left + 1) []
  | fault {left : Nat} {fault : Fault} : seen.contains q = false → t.readText q = .error fault →
      Withheld t maxDepth seen q (left + 1) (faultNotice q fault)

/-- Inlining the lines of the file at `p`, whose references may go down `left` more levels, makes
the lines `out`; the files inlined are `files`, each with the levels left below it. -/
inductive Inlines (t : Tree) (maxDepth : Nat) : (left : Nat) → (p : Path) → (lines : List Text) →
    (seen : List Path) → (out : List Text) → (files : List (Path × Nat)) → (seen' : List Path) →
    Prop where
  | done {left p seen} : Inlines t maxDepth left p [] seen [] [] seen
  | line {left p line lines seen out files seen'} :
      Reference.target? line = none →
      Inlines t maxDepth left p lines seen out files seen' →
      Inlines t maxDepth left p (line :: lines) seen (line :: out) files seen'
  | withheld {left p line target text lines seen out files seen'} :
      Reference.target? line = some target →
      Withheld t maxDepth seen (Path.resolveAgainst p target) left text →
      Inlines t maxDepth left p lines seen out files seen' →
      Inlines t maxDepth left p (line :: lines) seen (line :: block target text ++ out) files seen'
  | inlined {left p line target q content lines seen inner below between out files seen'} :
      Reference.target? line = some target →
      Path.resolveAgainst p target = q →
      seen.contains q = false →
      t.readText q = .ok content →
      Inlines t maxDepth left q (Text.dropMark content).lines (seen ++ [q]) inner below between →
      Inlines t maxDepth (left + 1) p lines between out files seen' →
      Inlines t maxDepth (left + 1) p (line :: lines) seen
        (line :: block target (Text.collapse (Text.unlines inner)) ++ out)
        ((q, left) :: below ++ files) seen'

variable {t : Tree} {maxDepth left n : Nat} {p q r : Path} {lines out : List Text}
  {seen seen' : List Path} {files : List (Path × Nat)} {via via' : Path → Prop}

/-! ### Every run goes by the rules -/

theorem expand_target {inner : Path → List Path → Text × List Path} {line target : Text}
    (h : Reference.target? line = some target) :
    expand inner p (line :: lines) seen =
      let inlined := inner (Path.resolveAgainst p target) seen
      let rest := expand inner p lines inlined.2
      (line :: block target inlined.1 ++ rest.1, rest.2) := by
  rw [expand]
  simp only [h]
  rfl

/-- The file at `q` is inlined or withheld. -/
theorem withheld_or_inlined (below : left ≤ maxDepth) (q : Path) (seen : List Path) :
    (∃ text, Withheld t maxDepth seen q left text ∧ atDepth t maxDepth left q seen = (text, seen)) ∨
      ∃ less content, left = less + 1 ∧ seen.contains q = false ∧ t.readText q = .ok content ∧
        atDepth t maxDepth left q seen =
          let inner :=
            expand (atDepth t maxDepth less) q (Text.dropMark content).lines (seen ++ [q])
          (Text.collapse (Text.unlines inner.1), inner.2) := by
  cases left with
  | zero => exact Or.inl ⟨_, .cut, rfl⟩
  | succ left =>
    have levels : decide (left < maxDepth) = true := decide_eq_true (Nat.lt_of_succ_le below)
    rw [atDepth, levels, Bool.true_and]
    cases known : seen.contains q with
    | true => exact Or.inl ⟨_, .repeated known, rfl⟩
    | false =>
      cases read : t.readText q with
      | error fault => exact Or.inl ⟨_, .fault known read, rfl⟩
      | ok content =>
        refine Or.inr ⟨left, content, rfl, rfl, rfl, ?_⟩
        simp only [addSeen, known]
        rfl

theorem exists_inlines (below : left ≤ maxDepth) (p : Path) (lines : List Text)
    (seen : List Path) : ∃ out files seen', Inlines t maxDepth left p lines seen out files seen' ∧
      expand (atDepth t maxDepth left) p lines seen = (out, seen') := by
  induction left using Nat.strongRecOn generalizing p lines seen with
  | ind left above =>
    induction lines generalizing seen with
    | nil => exact ⟨_, _, _, .done, rfl⟩
    | cons line lines ih =>
      cases found : Reference.target? line with
      | none =>
        obtain ⟨out, files, seen', runs, same⟩ := ih seen
        refine ⟨_, _, _, .line found runs, ?_⟩
        simp only [expand, found, same]
      | some target =>
        rw [expand_target found]
        obtain ⟨text, withheld, made⟩ | ⟨less, content, rfl, new, read, made⟩ :=
          withheld_or_inlined below (Path.resolveAgainst p target) seen
        · obtain ⟨out, files, seen', runs, same⟩ := ih seen
          refine ⟨_, _, _, .withheld found withheld runs, ?_⟩
          simp only [made, same]
        · obtain ⟨inner, inside, between, innerRuns, innerSame⟩ :=
            above less (Nat.lt_succ_self less) (Nat.le_of_succ_le below)
              (Path.resolveAgainst p target) (Text.dropMark content).lines
              (seen ++ [Path.resolveAgainst p target])
          obtain ⟨out, files, seen', runs, same⟩ := ih between
          refine ⟨_, _, _, .inlined found rfl new read innerRuns runs, ?_⟩
          simp only [made, innerSame, same]

/-! ### The rules leave no choice -/

theorem Withheld.unique {text text' : Text} (h : Withheld t maxDepth seen q left text)
    (h' : Withheld t maxDepth seen q left text') : text = text' := by
  cases h <;> cases h' <;> simp_all

theorem Withheld.not_new {text content : Text} (h : Withheld t maxDepth seen q (left + 1) text)
    (new : seen.contains q = false) (read : t.readText q = .ok content) : False := by
  cases h <;> simp_all

/-- A text is inlined in one way, with one account of the files. -/
theorem Inlines.unique {out' : List Text} {files' : List (Path × Nat)} {seen'' : List Path}
    (h : Inlines t maxDepth left p lines seen out files seen')
    (h' : Inlines t maxDepth left p lines seen out' files' seen'') :
    out = out' ∧ files = files' ∧ seen' = seen'' := by
  induction h generalizing out' files' seen'' with
  | done =>
    cases h'
    exact ⟨rfl, rfl, rfl⟩
  | line plain _ ih =>
    cases h' with
    | line _ runs =>
      obtain ⟨rfl, rfl, rfl⟩ := ih runs
      exact ⟨rfl, rfl, rfl⟩
    | withheld found => simp_all
    | inlined found => simp_all
  | withheld found withheld _ ih =>
    cases h' with
    | line plain => simp_all
    | withheld found' withheld' runs =>
      obtain rfl := Option.some.inj (found.symm.trans found')
      obtain rfl := withheld.unique withheld'
      obtain ⟨rfl, rfl, rfl⟩ := ih runs
      exact ⟨rfl, rfl, rfl⟩
    | inlined found' same new read =>
      obtain rfl := Option.some.inj (found.symm.trans found')
      exact (withheld.not_new (same ▸ new) (same ▸ read)).elim
  | inlined found same new read _ _ below ih =>
    cases h' with
    | line plain => simp_all
    | withheld found' withheld =>
      obtain rfl := Option.some.inj (found.symm.trans found')
      exact (withheld.not_new (same ▸ new) (same ▸ read)).elim
    | inlined found' same' _ read' inner' runs =>
      obtain rfl := Option.some.inj (found.symm.trans found')
      subst same same'
      obtain rfl := Except.ok.inj (read.symm.trans read')
      obtain ⟨rfl, rfl, rfl⟩ := below inner'
      obtain ⟨rfl, rfl, rfl⟩ := ih runs
      exact ⟨rfl, rfl, rfl⟩

/-! ### The files that are inlined -/

theorem Inlines.seen_eq (h : Inlines t maxDepth left p lines seen out files seen') :
    seen' = seen ++ files.map Prod.fst := by
  induction h with
  | done => rw [List.map_nil, List.append_nil]
  | line _ _ ih => exact ih
  | withheld _ _ _ ih => exact ih
  | inlined _ _ _ _ _ _ below ih =>
    rw [ih, below]
    simp

theorem Inlines.contains (h : Inlines t maxDepth left p lines seen out files seen')
    (known : seen.contains q = true) : seen'.contains q = true := by
  simp [h.seen_eq, known]

/-- Different paths, none of them seen. -/
structure Fresh (seen new : List Path) : Prop where
  distinct : Distinct new
  unseen : ∀ q ∈ new, seen.contains q = false

theorem fresh_nil (seen : List Path) : Fresh seen [] := ⟨List.Pairwise.nil, fun _ h => by cases h⟩

theorem fresh_singleton (h : seen.contains q = false) : Fresh seen [q] :=
  ⟨List.pairwise_singleton _ q, fun _ same => List.mem_singleton.1 same ▸ h⟩

theorem Fresh.append {new more : List Path} (h : Fresh seen new) (h' : Fresh (seen ++ new) more) :
    Fresh seen (new ++ more) := by
  have unseen : ∀ q ∈ more, seen.contains q = false ∧ new.contains q = false := fun q hq => by
    simpa only [List.contains_append, Bool.or_eq_false_iff] using h'.unseen q hq
  refine ⟨List.pairwise_append.2 ⟨h.distinct, h'.distinct, fun p hp q hq => ?_⟩, fun q hq => ?_⟩
  · rw [Path.beq_comm, Bool.eq_false_iff]
    exact fun same => Bool.eq_false_iff.1 (unseen q hq).2
      (List.contains_iff_exists_mem_beq.2 ⟨p, hp, same⟩)
  · rcases List.mem_append.1 hq with hq | hq
    · exact h.unseen q hq
    · exact (unseen q hq).1

theorem Inlines.fresh (h : Inlines t maxDepth left p lines seen out files seen') :
    Fresh seen (files.map Prod.fst) := by
  induction h with
  | done => exact fresh_nil _
  | line _ _ ih => exact ih
  | withheld _ _ _ ih => exact ih
  | inlined _ _ new _ inner _ below ih =>
    rw [inner.seen_eq, List.append_assoc] at ih
    rw [List.map_append, List.map_cons]
    exact ((fresh_singleton new).append below).append ih

theorem Inlines.readable (h : Inlines t maxDepth left p lines seen out files seen') :
    ∀ f ∈ files, Readable t f.1 := by
  induction h with
  | done => exact fun _ h => by cases h
  | line _ _ ih => exact ih
  | withheld _ _ _ ih => exact ih
  | inlined _ _ _ read _ _ below ih =>
    intro f hf
    rcases List.mem_append.1 hf with hf | hf
    · rcases List.mem_cons.1 hf with rfl | hf
      · exact ⟨_, read⟩
      · exact below f hf
    · exact ih f hf

/-! ### Chains to them -/

theorem Names.readable (h : Names t p q) : Readable t p := by
  rw [Names, Project.referencesOf] at h
  split at h
  · next content read => exact ⟨content, read⟩
  · cases h

theorem names_iff {content : Text} (read : t.readText p = .ok content) :
    Names t p q ↔ ∃ line ∈ (Text.dropMark content).lines, ∃ target,
      Reference.target? line = some target ∧ Path.resolveAgainst p target = q := by
  simp only [Names, Project.referencesOf, read, BuildContext.targets, List.mem_map,
    List.mem_filterMap]
  exact ⟨fun ⟨target, ⟨line, listed, found⟩, same⟩ => ⟨line, listed, target, found, same⟩,
    fun ⟨line, listed, target, found, same⟩ => ⟨target, ⟨line, listed, found⟩, same⟩⟩

theorem Chain.mono (h : Chain t via n p q) (wider : ∀ r, via r → via' r) : Chain t via' n p q := by
  induction h with
  | nil p => exact .nil p
  | cons inside names _ ih => exact .cons (wider _ inside) names ih

/-- Lines of the file at `p`, as far as references go. -/
def LinesOf (t : Tree) (p : Path) (lines : List Text) : Prop :=
  ∀ line ∈ lines, ∀ target, Reference.target? line = some target →
    Names t p (Path.resolveAgainst p target)

theorem linesOf_content {content : Text} (read : t.readText p = .ok content) :
    LinesOf t p (Text.dropMark content).lines := fun line listed target found =>
  (names_iff read).2 ⟨line, listed, target, found, rfl⟩

/-- A file is inlined where a chain leads to it; each link takes one of the levels left. -/
theorem Inlines.chain (h : Inlines t maxDepth left p lines seen out files seen')
    (of : LinesOf t p lines) : ∀ f ∈ files, ∃ n, n + f.2 = left ∧
      Chain t (fun r => r = p ∨ r ∈ files.map Prod.fst) n p f.1 := by
  induction h with
  | done => exact fun _ h => by cases h
  | line _ _ ih => exact ih fun line listed => of line (List.mem_cons_of_mem _ listed)
  | withheld _ _ _ ih => exact ih fun line listed => of line (List.mem_cons_of_mem _ listed)
  | @inlined left p line target q content _ _ _ below _ _ files _ found same _ read _ _ inner ih =>
    have names : Names t p q := same ▸ of line List.mem_cons_self target found
    intro f hf
    rcases List.mem_append.1 hf with hf | hf
    · rcases List.mem_cons.1 hf with rfl | hf
      · exact ⟨1, Nat.add_comm 1 left, .cons (Or.inl rfl) names (.nil q)⟩
      · obtain ⟨n, levels, chain⟩ := inner (linesOf_content read) f hf
        refine ⟨n + 1, by omega, .cons (Or.inl rfl) names (chain.mono fun r hr => Or.inr ?_)⟩
        simp only [List.map_append, List.map_cons, List.mem_append, List.mem_cons]
        exact Or.inl hr
    · obtain ⟨n, levels, chain⟩ := ih (fun line listed => of line (List.mem_cons_of_mem _ listed))
        f hf
      refine ⟨n, levels, chain.mono fun r hr => hr.imp_right fun hr => ?_⟩
      rw [List.map_append]
      exact List.mem_append_right _ hr

/-! ### Where the levels are enough -/

theorem Withheld.known {text : Text} (h : Withheld t maxDepth seen q left text) (levels : 0 < left)
    (readable : Readable t q) : seen.contains q = true := by
  cases h with
  | cut => cases levels
  | repeated known => exact known
  | fault _ fault =>
    obtain ⟨content, read⟩ := readable
    rw [read] at fault
    cases fault

theorem Inlines.reached (h : Inlines t maxDepth left p lines seen out files seen')
    (levels : 0 < left) : ∀ line ∈ lines, ∀ target, Reference.target? line = some target →
      Readable t (Path.resolveAgainst p target) →
        seen'.contains (Path.resolveAgainst p target) = true := by
  induction h with
  | done => exact fun _ h => by cases h
  | line none _ ih =>
    intro line listed target found readable
    rcases List.mem_cons.1 listed with rfl | listed
    · rw [none] at found
      cases found
    · exact ih levels line listed target found readable
  | withheld named withheld runs ih =>
    intro line listed target found readable
    rcases List.mem_cons.1 listed with rfl | listed
    · rw [named] at found
      obtain rfl := Option.some.inj found
      exact runs.contains (withheld.known levels readable)
    · exact ih levels line listed target found readable
  | inlined named same _ _ inner runs _ ih =>
    intro line listed target found readable
    rcases List.mem_cons.1 listed with rfl | listed
    · rw [named] at found
      obtain rfl := Option.some.inj found
      refine runs.contains (inner.contains ?_)
      rw [same]
      simp
    · exact ih levels line listed target found readable

/-- Whatever a file names is seen, if levels are left below the file. -/
theorem Inlines.closed (h : Inlines t maxDepth left p lines seen out files seen') :
    ∀ f ∈ files, 0 < f.2 → ∀ r, Names t f.1 r → Readable t r → seen'.contains r = true := by
  induction h with
  | done => exact fun _ h => by cases h
  | line _ _ ih => exact ih
  | withheld _ _ _ ih => exact ih
  | inlined _ _ _ read inner runs below ih =>
    intro f hf levels r names readable
    rcases List.mem_append.1 hf with hf | hf
    · rcases List.mem_cons.1 hf with rfl | hf
      · obtain ⟨line, listed, target, found, rfl⟩ := (names_iff read).1 names
        exact runs.contains (inner.reached levels line listed target found readable)
      · exact runs.contains (below f hf levels r names readable)
    · exact ih f hf levels r names readable

end IslDocs.Inline
