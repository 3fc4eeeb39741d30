import IslDocs.Proofs.Interface.Projection
import IslDocs.Proofs.Path.Above
import IslDocs.Proofs.Tree.Location
import IslDocs.Reference.Inline

/-! What has no line feed in it. A reference target is part of a line, and a path put together from
a path and a target has their characters and no others but slashes and dots. If no name in a tree
has a line feed, neither has a path that can be read, and so every notice is one line. -/

namespace IslDocs

/-! ### Targets -/

namespace Reference

variable {opened : Bool} {t line target span : Text} {spans : List Text}

theorem subset_of_linkTarget? (h : linkTarget? t = some target) : target ⊆ t := by
  unfold linkTarget? at h
  simp only [Option.ite_none_left_eq_some] at h
  rw [← Option.some.inj h.2]
  exact (List.takeWhile_sublist _).subset

theorem subset_of_mem_linkTargets (h : target ∈ linkTargets opened t) : target ⊆ t := by
  induction t generalizing opened with
  | nil => cases h
  | cons c rest ih =>
    have later : ∀ opened, target ∈ linkTargets opened rest → target ⊆ c :: rest := fun _ h =>
      List.subset_cons_of_subset c (ih h)
    rw [linkTargets] at h
    split at h
    · next first found =>
      rcases List.mem_cons.1 h with rfl | h
      · simp only [Option.ite_none_right_eq_some, Option.bind_eq_some_iff] at found
        obtain ⟨-, tail, bracket, inside⟩ := found
        exact List.Subset.trans (subset_of_linkTarget? inside)
          (Text.sublist_of_after? bracket).subset
      · exact later _ h
    · exact later _ h

theorem mem_of_mem_closedSpans (h : span ∈ closedSpans spans) : span ∈ spans := by
  fun_induction closedSpans spans with
  | case1 first second next rest ih =>
    rcases List.mem_cons.1 h with rfl | h
    · simp
    · exact List.mem_cons_of_mem _ (List.mem_cons_of_mem _ (ih h))
  | case2 => cases h

theorem subset_of_lastSpan? (h : lastSpan? t = some target) : target ⊆ t := by
  unfold lastSpan? at h
  obtain ⟨span, last, rfl⟩ := Option.map_eq_some_iff.1 h
  have piece := mem_of_mem_closedSpans (List.mem_of_mem_filter (List.mem_of_getLast? last))
  exact List.Subset.trans (Text.trim_sublist span).subset (Path.of_mem_splitOn piece).2

theorem subset_of_candidate? (h : candidate? t = some target) : target ⊆ t := by
  rcases Option.or_eq_some_iff.1 h with link | ⟨-, span⟩
  · exact subset_of_mem_linkTargets (List.mem_of_getLast? link)
  · exact subset_of_lastSpan? span

theorem subset_of_target? (h : target? line = some target) : target ⊆ line := by
  simp only [target?, afterOpening?, Option.bind_eq_bind, Option.bind_eq_some_iff,
    Option.ite_none_left_eq_some] at h
  obtain ⟨rest, ⟨quoted, quote, word⟩, found, named, -, same⟩ := h
  obtain rfl := Option.some.inj same
  calc found
    _ ⊆ rest := subset_of_candidate? named
    _ ⊆ Text.trimStart quoted := (Text.sublist_of_after? word).subset
    _ ⊆ quoted := (List.dropWhile_sublist _).subset
    _ ⊆ Text.trimStart line := (Text.sublist_of_after? quote).subset
    _ ⊆ line := (List.dropWhile_sublist _).subset

end Reference

/-! ### Paths -/

namespace Path

variable {p q : Path} {pieces : List Text} {parts : List Component}

theorem feed_notMem_intercalate (h : ∀ piece ∈ pieces, '\n' ∉ piece) :
    '\n' ∉ ['/'].intercalate pieces := by
  induction pieces with
  | nil => exact List.not_mem_nil
  | cons piece rest ih =>
    have first := h piece List.mem_cons_self
    rcases eq_or_ne rest [] with rfl | more
    · rwa [List.intercalate_singleton]
    · rw [List.intercalate_cons_of_ne_nil more]
      simp [first, ih fun piece' h' => h piece' (List.mem_cons_of_mem _ h')]

theorem feed_notMem_piece (h : '\n' ∉ p.text) {piece : Text} (hp : piece ∈ p.pieces) :
    '\n' ∉ piece := fun inside => h ((of_mem_splitOn hp).2 inside)

theorem body_subset (p : Path) : ∀ piece ∈ p.body.2, piece ∈ p.pieces ∨ piece = [] := by
  rcases body_cases p with
    ⟨rest, -, cut, body⟩ | ⟨rest, cut, body⟩ | ⟨first, rest, cut, -, -, body⟩
  · rw [body, cut]
    exact fun piece hp => Or.inl (List.mem_cons_of_mem _ hp)
  · rw [body, cut]
    cases rest with
    | nil => simp
    | cons next more =>
      intro piece hp
      rcases List.mem_cons.1 hp with rfl | hp
      · exact Or.inr rfl
      · exact Or.inl (List.mem_cons_of_mem _ hp)
  · rw [body, cut]
    exact fun piece hp => Or.inl hp

theorem dropTrivialEnd_subset (pieces : List Text) : dropTrivialEnd pieces ⊆ pieces := fun _ hp =>
  List.mem_reverse.1 ((List.dropWhile_sublist _).subset (List.mem_reverse.1 hp))

theorem feed_notMem_parent? (h : '\n' ∉ p.text) (above : p.parent? = some q) : '\n' ∉ q.text := by
  have start : '\n' ∉ p.body.1 := by
    rcases body_cases p with ⟨_, -, -, body⟩ | ⟨_, -, body⟩ | ⟨_, _, -, -, -, body⟩ <;> simp [body]
  have clean : ∀ piece ∈ p.body.2, '\n' ∉ piece := fun piece hp => by
    rcases body_subset p piece hp with hp | rfl
    · exact feed_notMem_piece h hp
    · simp
  rw [parent?] at above
  simp only at above
  split at above
  · rw [Option.ite_none_right_eq_some] at above
    rw [← Option.some.inj above.2]
    exact List.not_mem_nil
  · next piece rest kept =>
    rw [← Option.some.inj above]
    refine fun inside => (List.mem_append.1 inside).elim start (feed_notMem_intercalate ?_)
    intro piece' h'
    refine clean piece' (dropTrivialEnd_subset _ ?_)
    rw [kept]
    exact (List.dropLast_sublist _).subset (dropTrivialEnd_subset _ h')

theorem feed_notMem_join (h : '\n' ∉ p.text) {target : Text} (ht : '\n' ∉ target) :
    '\n' ∉ (p.join target).text := by
  rw [join]
  split
  · exact ht
  · split <;> simp [h, ht]

theorem text_of_ofPiece? {piece : Text} {c : Component} (h : Component.ofPiece? piece = some c) :
    c.text = piece := by
  unfold Component.ofPiece? at h
  split at h
  · cases h
  · cases h
  all_goals exact Option.some.inj h ▸ rfl

theorem of_mem_firstPart {piece : Text} {alone : Bool} {c : Component}
    (h : c ∈ firstPart piece alone) : c = .root ∨ c.text = piece := by
  unfold firstPart at h
  split at h
  · split at h
    · cases h
    · exact Or.inl (List.mem_singleton.1 h)
  · exact Or.inr (List.mem_singleton.1 h ▸ rfl)
  · exact Or.inr (text_of_ofPiece? (Option.mem_toList.1 h))

theorem feed_notMem_parts (h : '\n' ∉ p.text) : ∀ c ∈ p.parts, '\n' ∉ c.text := by
  intro c hc
  obtain ⟨first, rest, cut⟩ := List.exists_cons_of_ne_nil (List.splitOn_ne_nil '/' p.text)
  have clean : ∀ piece ∈ first :: rest, '\n' ∉ piece := cut ▸ fun _ => feed_notMem_piece h
  rw [parts_of_pieces cut] at hc
  rcases List.mem_append.1 hc with hc | hc
  · rcases of_mem_firstPart hc with rfl | same
    · decide
    · exact same ▸ clean first List.mem_cons_self
  · obtain ⟨piece, hp, found⟩ := List.mem_filterMap.1 hc
    exact text_of_ofPiece? found ▸ clean piece (List.mem_cons_of_mem _ hp)

theorem pushNormal_subset (stack : List Component) (c : Component) :
    pushNormal stack c ⊆ c :: stack := by
  unfold pushNormal
  split <;> simp

theorem foldl_pushNormal_subset (stack : List Component) :
    parts.foldl pushNormal stack ⊆ parts ++ stack := by
  induction parts generalizing stack with
  | nil => exact List.Subset.refl _
  | cons c rest ih =>
    intro d hd
    have := ih _ hd
    rcases List.mem_append.1 this with hd | hd
    · simp [hd]
    · have := pushNormal_subset stack c hd
      simp only [List.mem_cons, List.cons_append, List.mem_append] at this ⊢
      tauto

theorem normalParts_subset (parts : List Component) : normalParts parts ⊆ parts := fun c hc => by
  simpa using foldl_pushNormal_subset [] (List.mem_reverse.1 hc)

theorem feed_notMem_ofParts (h : ∀ c ∈ parts, '\n' ∉ c.text) : '\n' ∉ (ofParts parts).text := by
  have joined : ∀ parts' ⊆ parts, '\n' ∉ ['/'].intercalate (parts'.map Component.text) :=
    fun parts' inside => feed_notMem_intercalate fun piece hp => by
      obtain ⟨c, hc, rfl⟩ := List.mem_map.1 hp
      exact h c (inside hc)
  unfold ofParts
  split
  · next rest => simpa using joined rest (List.subset_cons_self _ _)
  · exact joined parts (List.Subset.refl _)

theorem feed_notMem_resolveAgainst (h : '\n' ∉ p.text) {target : Text} (ht : '\n' ∉ target) :
    '\n' ∉ (resolveAgainst p target).text := by
  have above : '\n' ∉ (p.parent?.getD ⟨[]⟩).text := by
    cases parent : p.parent? with
    | none => exact List.not_mem_nil
    | some q => exact feed_notMem_parent? h parent
  exact feed_notMem_ofParts fun c hc =>
    feed_notMem_parts (feed_notMem_join above ht) c (normalParts_subset _ hc)

end Path

/-! ### Paths that can be read -/

namespace Tree

variable {t : Tree} {p : Path} {loc l : Location}

/-- No file or directory has a line feed in its name. -/
def Feedless (t : Tree) : Prop := ∀ entry ∈ t.entries, ∀ name ∈ entry.1, '\n' ∉ name

instance (t : Tree) : Decidable t.Feedless := inferInstanceAs (Decidable (∀ _ ∈ _, _))

theorem mem_of_node? {node : Node} (h : t.node? loc = some node) (hne : loc ≠ []) :
    (loc, node) ∈ t.entries := by
  rw [node?_of_ne_nil hne, List.lookup_eq_some_iff] at h
  obtain ⟨before, after, split, -⟩ := h
  simp [split]

/-- What is passed on the way to something that is there is there as well. -/
theorem isSome_node?_of_foldlM {steps : List Step} (h : steps.foldlM t.advance loc = .ok l)
    (there : (t.node? l).isSome = true) : (t.node? loc).isSome = true := by
  cases steps with
  | nil =>
    cases h
    exact there
  | cons s rest =>
    rw [List.foldlM_cons] at h
    obtain ⟨next, first, -⟩ := bind_eq_ok_iff.1 h
    rw [isDirectoryAt_iff.1 (advance_eq_ok first), Option.isSome_some]

theorem Feedless.step (h : t.Feedless) {steps : List Step}
    (found : steps.foldlM t.advance loc = .ok l) (there : (t.node? l).isSome = true) {name : Text}
    (down : .down name ∈ steps) : '\n' ∉ name := by
  induction steps generalizing loc with
  | nil => cases down
  | cons s rest ih =>
    rw [List.foldlM_cons] at found
    obtain ⟨next, first, later⟩ := bind_eq_ok_iff.1 found
    rcases List.mem_cons.1 down with rfl | down
    · obtain ⟨rfl, -, -⟩ := advance_down.1 first
      obtain ⟨node, held⟩ := Option.isSome_iff_exists.1 (isSome_node?_of_foldlM later there)
      exact h _ (mem_of_node? held (by simp)) name (by simp)
    · exact ih later down

theorem feed_notMem_of_ofPiece {piece : Text}
    (h : ∀ name, Step.ofPiece piece = .down name → '\n' ∉ name) : '\n' ∉ piece := by
  unfold Step.ofPiece at h
  split at h
  · decide
  · decide
  · decide
  · exact h piece rfl

theorem Feedless.text (h : t.Feedless) (there : (t.node? l).isSome = true)
    (found : t.locate p = .ok l) : '\n' ∉ p.text := by
  obtain ⟨-, -, -, steps⟩ := locate_eq_ok_iff.1 found
  have clean : ∀ piece ∈ p.pieces, '\n' ∉ piece := fun piece hp =>
    feed_notMem_of_ofPiece fun name down => h.step steps there (down ▸ List.mem_map_of_mem hp)
  have text : p.text = ['/'].intercalate p.pieces := (List.intercalate_splitOn '/').symm
  rw [text]
  exact Path.feed_notMem_intercalate clean

theorem Feedless.readable (h : t.Feedless) {content : Text} (read : t.readText p = .ok content) :
    '\n' ∉ p.text := by
  obtain ⟨l, bytes, found, held, -⟩ := readText_eq_ok_iff.1 read
  exact h.text (by rw [content?_eq_some.1 held, Option.isSome_some]) found

end Tree

/-! ### Notices -/

namespace Tree

variable {t : Tree} {p : Path} {reason : Text}

theorem bind_ne_other {α β : Type} {e : Except Fault α} {f : α → Except Fault β}
    (h : e ≠ .error (.other reason)) (h' : ∀ a, f a ≠ .error (.other reason)) :
    e >>= f ≠ .error (.other reason) := by
  cases e with
  | error fault => exact fun same => h (congrArg Except.error (Except.error.inj same))
  | ok a => exact h' a

theorem foldlM_ne_other (steps : List Step) (loc : Location) :
    steps.foldlM t.advance loc ≠ .error (.other reason) := by
  induction steps generalizing loc with
  | nil => simp [pure, Except.pure]
  | cons s rest ih =>
    rw [List.foldlM_cons]
    refine bind_ne_other ?_ ih
    unfold advance
    split
    case h_5 => split <;> simp
    all_goals simp

/-- Reading a file fails in ways that have a message of their own. -/
theorem readText_ne_other (t : Tree) (p : Path) : t.readText p ≠ .error (.other reason) := by
  have located : t.locate p ≠ .error (.other reason) := by
    unfold locate
    split
    · simp
    split
    · simp
    split
    · simp
    · exact foldlM_ne_other _ _
  refine bind_ne_other (bind_ne_other located fun loc => ?_) fun bytes => ?_
  · split <;> simp
  · split <;> simp

theorem feed_notMem_message {fault : Fault} (stopped : t.readText p = .error fault) :
    '\n' ∉ fault.message := by
  cases fault with
  | other reason => exact absurd stopped (readText_ne_other t p)
  | _ => decide

end Tree

namespace Inline

variable {t : Tree} {p : Path}

theorem feed_notMem_opening {target : Text} (h : '\n' ∉ target) : '\n' ∉ opening target := by
  unfold opening
  simp [h]

theorem feed_notMem_depthNotice (maxDepth : Nat) (h : '\n' ∉ p.text) :
    '\n' ∉ depthNotice maxDepth p := by
  have digits : '\n' ∉ Text.ofNat maxDepth := fun inside =>
    absurd (Nat.isDigit_of_mem_toDigits (by decide) (by decide) inside) (by decide)
  unfold depthNotice
  simp [h, digits]

theorem feed_notMem_faultNotice {fault : Fault} (stopped : t.readText p = .error fault)
    (h : '\n' ∉ p.text) : '\n' ∉ faultNotice p fault := by
  have message := Tree.feed_notMem_message stopped
  unfold faultNotice
  split <;> simp [h, message]

end Inline
end IslDocs
