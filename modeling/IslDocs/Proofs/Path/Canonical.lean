import IslDocs.Proofs.Path.Above

/-! Normal paths as normal forms. A stack of components that is pushed once more, component by
component, does the same to any stack below it as the components it was made from. So a path can be
made normal before it is joined to another or after, at either end, and once is enough. -/

namespace IslDocs.Path

variable {p q : Path} {cs : List Component} {c : Component}

/-! ### Components pushed twice -/

theorem foldl_reverse_pushNormal (stack top : List Component) (c : Component) :
    (pushNormal top c).reverse.foldl pushNormal stack =
      pushNormal (top.reverse.foldl pushNormal stack) c := by
  fun_cases pushNormal top c with
  | case1 => rfl
  | case2 rest name => simp [List.foldl_append, pushNormal]
  | case3 rest => simp [List.foldl_append, pushNormal]
  | case4 => simp [List.foldl_append]

/-- On any stack, the normal form of components does what the components do. -/
@[simp] theorem foldl_normalParts (stack cs : List Component) :
    (normalParts cs).foldl pushNormal stack = cs.foldl pushNormal stack := by
  induction cs using List.reverseRecOn with
  | nil => rfl
  | append_singleton cs c ih =>
    rw [normalParts, List.foldl_concat, foldl_reverse_pushNormal, ← normalParts, ih,
      List.foldl_concat]

@[simp] theorem normalParts_normalParts (cs : List Component) :
    normalParts (normalParts cs) = normalParts cs :=
  congrArg List.reverse (foldl_normalParts [] cs)

@[simp] theorem normalParts_append_left (cs more : List Component) :
    normalParts (normalParts cs ++ more) = normalParts (cs ++ more) := by
  rw [normalParts, List.foldl_append, foldl_normalParts, ← List.foldl_append, normalParts]

@[simp] theorem normalParts_append_right (cs more : List Component) :
    normalParts (cs ++ normalParts more) = normalParts (cs ++ more) := by
  rw [normalParts, List.foldl_append, foldl_normalParts, ← List.foldl_append, normalParts]

/-! ### Components without the leading dot -/

theorem IsStep.ofPiece?_text (h : IsStep c) : Component.ofPiece? c.text = some c := by
  rcases h with rfl | ⟨name, rfl, plain⟩
  · rfl
  · exact ofPiece?_plain plain

theorem IsStep.slash_notMem (h : IsStep c) : '/' ∉ c.text := by
  rcases h with rfl | ⟨name, rfl, plain⟩
  · simp [Component.text]
  · exact plain.no_slash

theorem firstPart_of_ofPiece? {piece : Text} (h : Component.ofPiece? piece = some c)
    (alone : Bool) : firstPart piece alone = [c] := by
  unfold firstPart
  split
  · cases h
  · cases h
  · rw [h]
    rfl

/-- The components of a path without its leading dot. -/
def route (p : Path) : List Component :=
  (if p.isAbsolute then [.root] else []) ++ p.pieces.filterMap Component.ofPiece?

theorem isStep_of_mem_pieces (h : c ∈ p.pieces.filterMap Component.ofPiece?) : IsStep c := by
  obtain ⟨piece, hp, found⟩ := List.mem_filterMap.1 h
  exact isStep_of_ofPiece? found (of_mem_splitOn hp).1

theorem isAbsolute_eq_body (p : Path) : p.isAbsolute = (p.body.1 == ['/']) := by
  have text := text_eq_body p
  rcases body_cases p with
    ⟨rest, -, -, body⟩ | ⟨rest, -, body⟩ | ⟨first, rest, cut, single, -, body⟩
  · rw [isAbsolute, text, body]
    rfl
  · rw [isAbsolute, text, body]
    rfl
  · rw [isAbsolute, text, body]
    cases first with
    | nil =>
      rw [single rfl]
      rfl
    | cons c more =>
      have clean : '/' ∉ c :: more := (of_mem_splitOn (cut ▸ List.mem_cons_self : _ ∈ p.pieces)).1
      have other : c ≠ '/' := fun slash => clean (by simp [slash])
      cases rest <;> simp [List.intercalate_cons_cons, other]

theorem parts_eq_route (p : Path) : p.parts = p.route ∨ p.parts = .here :: p.route := by
  have absolute := isAbsolute_eq_body p
  rw [parts_eq_body, route, absolute]
  rcases body_cases p with
    ⟨rest, -, cut, body⟩ | ⟨rest, cut, body⟩ | ⟨first, rest, cut, -, -, body⟩
  · rw [body, cut]
    exact Or.inl rfl
  · rw [body, cut]
    cases rest <;> exact Or.inr rfl
  · rw [body, cut]
    exact Or.inl rfl

theorem root_mem_parts_iff : .root ∈ p.parts ↔ p.isAbsolute = true := by
  have apart : .root ∉ p.pieces.filterMap Component.ofPiece? := fun inside => by
    rcases isStep_of_mem_pieces inside with same | ⟨name, same, -⟩ <;> cases same
  have listed : .root ∈ p.route ↔ p.isAbsolute = true := by
    rw [route, List.mem_append, or_iff_left apart]
    split <;> simp_all
  rcases parts_eq_route p with same | same <;> simp [same, listed]

theorem normalParts_parts (p : Path) : normalParts p.parts = normalParts p.route := by
  rcases parts_eq_route p with same | same
  · rw [same]
  · rw [same]
    rfl

/-! ### Normal components -/

theorem exists_climb (h : ∀ c ∈ cs, IsStep c) : ∃ count names, Plain names ∧
    normalParts cs = List.replicate count .up ++ names.map .name := by
  induction cs using List.reverseRecOn with
  | nil => exact ⟨0, [], by simp [Plain], rfl⟩
  | append_singleton cs c ih =>
    obtain ⟨count, names, plain, normal⟩ := ih fun d hd => h d (List.mem_append_left _ hd)
    have top : cs.foldl pushNormal [] =
        (names.map Component.name).reverse ++ List.replicate count Component.up := by
      rw [← List.reverse_inj, ← normalParts, normal]
      simp
    rw [normalParts, List.foldl_concat, top]
    rcases h c (by simp) with rfl | ⟨name, rfl, hn⟩
    · -- Without names the step stays in front; otherwise it takes the last name back.
      rcases List.eq_nil_or_concat' names with rfl | ⟨init, last, rfl⟩
      · refine ⟨count + 1, [], plain, ?_⟩
        cases count <;> simp [pushNormal, List.replicate_succ, ← List.replicate_succ']
      · exact ⟨count, init, plain.left, by simp [pushNormal]⟩
    · exact ⟨count, names ++ [name], plain.append (plain_singleton hn), by simp [pushNormal]⟩

/-- Normal components are names, from the root or after steps up. -/
theorem exists_normalParts (p : Path) : ∃ count names, Plain names ∧ normalParts p.parts =
    (if p.isAbsolute then [.root] else List.replicate count .up) ++ names.map .name := by
  cases absolute : p.isAbsolute with
  | true =>
    obtain ⟨cs, parts, hcs⟩ := parts_of_isAbsolute absolute
    have bottom : Plain [] := by simp [Plain]
    obtain ⟨names, plain, folded⟩ := foldl_pushNormal_stack bottom hcs
    have start : pushNormal [] .root = stack [] := rfl
    refine ⟨0, names, plain, ?_⟩
    rw [normalParts, parts, List.foldl_cons, start, folded]
    simp [stack]
  | false =>
    obtain ⟨count, names, plain, normal⟩ :=
      exists_climb fun c hc => isStep_of_mem_pieces (p := p) hc
    exact ⟨count, names, plain, by simp [normalParts_parts, route, absolute, normal]⟩

theorem parts_ofParts (h : ∀ c ∈ cs, IsStep c) : (ofParts cs).parts = cs := by
  cases cs with
  | nil => rfl
  | cons c rest =>
    have step := h c List.mem_cons_self
    have text : ofParts (c :: rest) = ⟨['/'].intercalate ((c :: rest).map Component.text)⟩ := by
      rcases step with rfl | ⟨name, rfl, -⟩ <;> rfl
    have cut : (ofParts (c :: rest)).pieces = (c :: rest).map Component.text := by
      rw [text]
      refine List.splitOn_intercalate '/' (fun piece hp => ?_) (by simp)
      obtain ⟨d, hd, rfl⟩ := List.mem_map.1 hp
      exact (h d hd).slash_notMem
    have steps : (rest.map Component.text).filterMap Component.ofPiece? = rest := by
      rw [List.filterMap_map]
      exact (List.filterMap_congr fun d hd => (h d (List.mem_cons_of_mem _ hd)).ofPiece?_text).trans
        List.filterMap_some
    rw [parts_of_pieces cut, firstPart_of_ofPiece? step.ofPiece?_text, steps]
    rfl

@[simp] theorem parts_normalize (p : Path) : p.normalize.parts = normalParts p.parts := by
  obtain ⟨count, names, plain, normal⟩ := exists_normalParts p
  rw [normalize, normal]
  cases p.isAbsolute with
  | true => exact parts_ofLocation plain
  | false =>
    refine parts_ofParts fun c hc => ?_
    rcases List.mem_append.1 hc with climb | down
    · exact Or.inl (List.eq_of_mem_replicate climb)
    · obtain ⟨name, hn, rfl⟩ := List.mem_map.1 down
      exact Or.inr ⟨name, rfl, plain name hn⟩

@[simp] theorem normalize_normalize (p : Path) : p.normalize.normalize = p.normalize := by
  rw [normalize, parts_normalize, normalParts_normalParts, ← normalize]

@[simp] theorem isAbsolute_normalize (p : Path) : p.normalize.isAbsolute = p.isAbsolute := by
  obtain ⟨count, names, -, normal⟩ := exists_normalParts p
  rw [Bool.eq_iff_iff, ← root_mem_parts_iff, parts_normalize, normal]
  cases p.isAbsolute <;> simp

theorem here_notMem_normalParts (p : Path) : .here ∉ normalParts p.parts := by
  obtain ⟨count, names, -, normal⟩ := exists_normalParts p
  rw [normal]
  cases p.isAbsolute <;> simp

@[simp] theorem route_normalize (p : Path) : p.normalize.route = normalParts p.route := by
  rw [← normalParts_parts, ← parts_normalize]
  rcases parts_eq_route p.normalize with same | same
  · exact same.symm
  · have none := here_notMem_normalParts p
    rw [← parts_normalize, same] at none
    exact absurd List.mem_cons_self none

/-! ### Joining -/

theorem join_of_isAbsolute (p : Path) (h : q.isAbsolute = true) : p.join q.text = q := by
  have head : (q.text.head? == some '/') = true := h
  simp [join, head]

theorem filterMap_pieces_append (s t : Text) :
    (⟨s ++ '/' :: t⟩ : Path).pieces.filterMap Component.ofPiece? =
      (⟨s⟩ : Path).pieces.filterMap Component.ofPiece? ++
        (⟨t⟩ : Path).pieces.filterMap Component.ofPiece? := by
  rw [pieces, List.splitOn_append_cons_self, List.filterMap_append]
  rfl

theorem isAbsolute_append (h : p.text ≠ []) (more : Text) :
    (⟨p.text ++ more⟩ : Path).isAbsolute = p.isAbsolute := by
  rw [isAbsolute, isAbsolute, List.head?_append_of_ne_nil _ h]

/-- What is put behind a path comes behind its components. -/
theorem route_join (p : Path) (h : q.isAbsolute = false) :
    (p.join q.text).route = p.route ++ q.route := by
  obtain ⟨text⟩ := p
  have relative : q.route = q.pieces.filterMap Component.ofPiece? := by
    rw [route, h]
    rfl
  have head : (q.text.head? == some '/') = false := h
  rw [join, head, Bool.false_or]
  rcases eq_or_ne text [] with rfl | any
  · rfl
  · have filled : text.isEmpty = false := List.isEmpty_eq_false_iff.2 any
    simp only [filled, Bool.false_eq_true, if_false]
    split
    · next slash =>
      obtain ⟨front, rfl⟩ := List.getLast?_eq_some_iff.1 (beq_iff_eq.1 slash)
      have ended := (filterMap_pieces_append front []).trans (List.append_nil _)
      rw [relative, route, route, isAbsolute_append any, ended, List.append_assoc,
        List.append_assoc, List.singleton_append, filterMap_pieces_append]
    · rw [relative, route, route, isAbsolute_append any, filterMap_pieces_append,
        List.append_assoc]

theorem normalize_congr (h : normalParts p.route = normalParts q.route) :
    p.normalize = q.normalize := by
  simp [normalize, normalParts_parts, h]

@[simp] theorem normalize_join_left (p q : Path) :
    (p.normalize.join q.text).normalize = (p.join q.text).normalize := by
  cases absolute : q.isAbsolute with
  | true => rw [join_of_isAbsolute _ absolute, join_of_isAbsolute _ absolute]
  | false =>
    refine normalize_congr ?_
    simp [route_join _ absolute]

@[simp] theorem normalize_join_right (p q : Path) :
    (p.join q.normalize.text).normalize = (p.join q.text).normalize := by
  have same := isAbsolute_normalize q
  cases absolute : q.isAbsolute with
  | true =>
    rw [absolute] at same
    simp [join_of_isAbsolute _ absolute, join_of_isAbsolute _ same]
  | false =>
    rw [absolute] at same
    refine normalize_congr ?_
    simp [route_join _ absolute, route_join _ same]

/-! ### Targets in a file -/

/-- Every path from the root has a parent from the root, but the root itself. -/
theorem isAbsolute_parent? (h : p.isAbsolute = true) (below : p.parts ≠ [.root]) :
    (p.parent?.getD ⟨[]⟩).isAbsolute = true := by
  have start : p.body.1 = ['/'] := by
    rw [isAbsolute_eq_body] at h
    exact beq_iff_eq.1 h
  have parts := parts_eq_body p
  rw [start, ← filterMap_dropTrivialEnd] at parts
  rw [parent?]
  simp only [start]
  split
  · next none =>
    rw [none] at parts
    exact absurd parts below
  · rfl

/-- Normal paths are normal forms: made normal again they stay the same, they have no dots and steps
up only at the start of a relative path, and on either side of a join a path may be made normal
before. So the targets in a file lead to paths from the root without dots and steps up, and those
with one normal form to one path. -/
theorem normalize_canonical (p dir file : Path) (target other : Text) :
    (p.normalize.normalize = p.normalize ∧ p.normalize.isAbsolute = p.isAbsolute ∧
      ∃ count names, Plain names ∧ p.normalize.parts =
        (if p.isAbsolute then [.root] else List.replicate count .up) ++ names.map .name) ∧
    ((dir.normalize.join target).normalize = (dir.join target).normalize ∧
      (dir.join (normalize ⟨target⟩).text).normalize = (dir.join target).normalize) ∧
    (file.isAbsolute = true → (file == ⟨['/']⟩) = false →
      (resolveAgainst file target).isAbsolute = true ∧
        .here ∉ (resolveAgainst file target).parts ∧ .up ∉ (resolveAgainst file target).parts) ∧
    ((normalize ⟨target⟩ == normalize ⟨other⟩) = true →
      resolveAgainst file target = resolveAgainst file other) := by
  refine ⟨⟨normalize_normalize p, isAbsolute_normalize p, ?_⟩,
    ⟨normalize_join_left dir ⟨target⟩, normalize_join_right dir ⟨target⟩⟩, fun absolute below => ?_,
    fun same => ?_⟩
  · rw [parts_normalize]
    exact exists_normalParts p
  · have parent := isAbsolute_parent? absolute (beq_eq_false_iff.1 below)
    have joined := isAbsolute_join parent target
    obtain ⟨count, names, -, normal⟩ := exists_normalParts ((file.parent?.getD ⟨[]⟩).join target)
    rw [joined, if_pos rfl, ← parts_normalize, ← resolveAgainst] at normal
    refine ⟨(isAbsolute_normalize _).trans joined, ?_, ?_⟩ <;> simp [normal]
  · have text : normalize ⟨target⟩ = normalize ⟨other⟩ := by
      have parts := beq_iff.1 same
      rw [parts_normalize, parts_normalize] at parts
      rw [normalize, parts, ← normalize]
    calc resolveAgainst file target
      _ = ((file.parent?.getD ⟨[]⟩).join (normalize ⟨target⟩).text).normalize :=
        (normalize_join_right _ ⟨target⟩).symm
      _ = ((file.parent?.getD ⟨[]⟩).join (normalize ⟨other⟩).text).normalize := by rw [text]
      _ = resolveAgainst file other := normalize_join_right _ ⟨other⟩

/-- A file whose path takes a detour. -/
def cart : Path := ⟨"/p/../p/./ui/cart.md".toList⟩

def straight : Text := "../../../a//b.md".toList

/-- The same target, with detours, a dot and a slash at its end. -/
def winding : Text := "./../x/../../../a/./b.md/".toList

theorem cart_resolves : cart.isAbsolute = true ∧ (cart == ⟨['/']⟩) = false ∧
    (normalize ⟨straight⟩ == normalize ⟨winding⟩) = true ∧
    (resolveAgainst cart straight).text = "/a/b.md".toList ∧
    .up ∉ (resolveAgainst cart straight).parts ∧
    resolveAgainst cart straight = resolveAgainst cart winding := by
  have absolute : cart.isAbsolute = true := by decide
  have below : (cart == ⟨['/']⟩) = false := by decide
  have same : (normalize ⟨straight⟩ == normalize ⟨winding⟩) = true := by decide
  obtain ⟨-, -, rooted, once⟩ := normalize_canonical cart cart cart straight winding
  exact ⟨absolute, below, same, by decide, (rooted absolute below).2.2, once same⟩

end IslDocs.Path
