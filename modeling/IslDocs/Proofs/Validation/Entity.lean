import IslDocs.Proofs.Text.Search
import IslDocs.Proofs.Validation.Matches
import IslDocs.Proofs.Validation.Rules
import IslDocs.Proofs.Validation.Scopes
import Mathlib.Data.List.TakeWhile
import Mathlib.Data.Nat.Find

/-! Names of entities, declared and referred to. A name is referred to at each place that has the
shape of a reference, and the warnings about undeclared names go through these places in order. The
registered names are the titles that are declared, each where it is declared first. -/

namespace IslDocs.Entity

variable {content t name rest : Text} {known : List Text} {sections : List Section} {i : Nat}

/-! ### References -/

/-- A character of those that end a reference begins the text. -/
def Delimited (t : Text) : Prop :=
  ∃ c more, t = c :: more ∧ (c = '\x7d' ∨ c = ':' ∨ c = ',' ∨ Text.isSpace c = true)

/-- White space, a capitalized name that no letter continues, perhaps brackets, and a delimiter. -/
def Names (t name : Text) : Prop :=
  ∃ space rest, t = space ++ name ++ rest ∧ Text.isBlank space = true ∧
    (∀ c ∈ name, c.isAlpha = true) ∧ (∀ c, rest.head? = some c → c.isAlpha = false) ∧
    2 ≤ name.length ∧ (∃ c, name.head? = some c ∧ c.isUpper = true) ∧
    (Delimited rest ∨ ∃ after, rest = "[]".toList ++ after ∧ Delimited after)

/-- An opening brace or a comma stands at position `i`, and a name is referred to behind it. -/
def RefersAt (content : Text) (i : Nat) (name : Text) : Prop :=
  ∃ before mark rest, content = before ++ mark :: rest ∧ before.length = i ∧
    (mark = '\x7b' ∨ mark = ',') ∧ Names rest name

theorem atDelimiter_iff : atDelimiter t = true ↔ Delimited t := by
  cases t <;> simp [atDelimiter, Delimited, or_assoc]

theorem isSpace_of_isUpper {c : Char} (h : c.isUpper = true) : Text.isSpace c = false := by
  have range : 65 ≤ c.toNat ∧ c.toNat ≤ 90 := of_decide_eq_true h
  simp [Text.isSpace]
  omega

theorem not_delimited_brackets (rest : Text) : ¬ Delimited ("[]".toList ++ rest) := by
  rintro ⟨c, more, same, ends⟩
  obtain ⟨rfl, -⟩ := List.cons_eq_cons.1 same
  revert ends
  decide

/-- What ends a reference stands behind the name or behind the brackets after it. -/
theorem atDelimiter_brackets :
    atDelimiter ((Text.after? "[]".toList rest).getD rest) = true ↔
      Delimited rest ∨ ∃ after, rest = "[]".toList ++ after ∧ Delimited after := by
  cases found : Text.after? "[]".toList rest with
  | none =>
    have plain : ∀ after, rest ≠ "[]".toList ++ after := fun after same => by
      have some := List.isPrefixOf?_eq_some_iff_append_eq.2 same.symm
      cases found.symm.trans some
    rw [Option.getD_none, atDelimiter_iff]
    exact (or_iff_left fun ⟨after, same, _⟩ => plain after same).symm
  | some after =>
    obtain rfl := List.isPrefixOf?_eq_some_iff_append_eq.1 found
    rw [Option.getD_some, atDelimiter_iff, or_iff_right (not_delimited_brackets _)]
    simp

/-- The name is the whole run of letters behind the white space. -/
theorem nameAfter?_eq_some_iff : nameAfter? t = some name ↔ Names t name := by
  simp only [nameAfter?, Option.ite_none_right_eq_some, Bool.and_eq_true, decide_eq_true_eq,
    atDelimiter_brackets, Option.any_eq_true, Option.some.injEq]
  constructor
  · rintro ⟨⟨⟨upper, long⟩, ends⟩, rfl⟩
    refine ⟨t.takeWhile Text.isSpace, (Text.trimStart t).dropWhile Char.isAlpha, ?_,
      Text.isBlank_iff.2 fun c => List.mem_takeWhile_imp, fun c => List.mem_takeWhile_imp,
      fun c head => ?_, long, upper, ends⟩
    · simp [Text.trimStart]
    · have stop := List.head?_dropWhile_not Char.isAlpha (Text.trimStart t)
      rw [head] at stop
      simpa using stop
  · rintro ⟨space, rest, rfl, blank, letters, stop, long, ⟨c, head, upper⟩, ends⟩
    have start : Text.trimStart (space ++ name ++ rest) = name ++ rest := by
      obtain ⟨more, rfl⟩ := List.head?_eq_some_iff.1 head
      rw [List.append_assoc, Text.trimStart_append_of_blank blank, Text.trimStart_eq_self_iff]
      exact isSpace_of_isUpper upper
    have stopped : rest.takeWhile Char.isAlpha = [] ∧ rest.dropWhile Char.isAlpha = rest := by
      cases rest with
      | nil => exact ⟨rfl, rfl⟩
      | cons d more => simp [stop d rfl]
    have front : (name ++ rest).takeWhile Char.isAlpha = name := by
      rw [List.takeWhile_append_of_pos letters, stopped.1, List.append_nil]
    have back : (name ++ rest).dropWhile Char.isAlpha = rest := by
      rw [List.dropWhile_append_of_pos letters, stopped.2]
    rw [start, front, back]
    exact ⟨⟨⟨⟨c, head, upper⟩, long⟩, ends⟩, rfl⟩

/-- The name that is referred to at a place of a text. -/
def nameAt? : Text × Text → Option Text
  | (_, c :: rest) => if c == '\x7b' || c == ',' then nameAfter? rest else none
  | (_, []) => none

theorem references_eq (passed t : Text) :
    references t = (Text.placesFrom passed t).filterMap nameAt? := by
  induction t generalizing passed with
  | nil => rfl
  | cons c rest ih =>
    rw [references, Text.placesFrom, List.filterMap_cons, ← ih, nameAt?]
    split
    · cases nameAfter? rest <;> rfl
    · rfl

theorem nameAt?_eq_some_iff {before : Text} (h : (before, rest) ∈ Text.places content) :
    nameAt? (before, rest) = some name ↔ RefersAt content before.length name := by
  obtain ⟨rfl, any⟩ := Text.mem_places.1 h
  obtain ⟨c, rest, rfl⟩ := List.exists_cons_of_ne_nil any
  simp only [nameAt?, Option.ite_none_right_eq_some, Bool.or_eq_true, beq_iff_eq,
    nameAfter?_eq_some_iff]
  constructor
  · rintro ⟨mark, names⟩
    exact ⟨before, c, rest, rfl, rfl, mark, names⟩
  · rintro ⟨before', mark, rest', split, size, shape, names⟩
    obtain ⟨rfl, same⟩ := List.append_inj split size.symm
    obtain ⟨rfl, rfl⟩ := List.cons_eq_cons.1 same
    exact ⟨shape, names⟩

/-- The references to undeclared names, each with its position. -/
structure Lists (known : List Text) (content : Text) (found : List (Nat × Text)) : Prop where
  ordered : found.Pairwise fun first second => first.1 < second.1
  mem_iff : ∀ i name, (i, name) ∈ found ↔
    RefersAt content i name ∧ name ∉ primitives ∧ name ∉ known

/-- The undeclared names in a content are those that a list of positions gives. -/
theorem exists_lists (known : List Text) (content : Text) : ∃ found,
    Lists known content found ∧ undefined known content = found.map Prod.snd := by
  refine ⟨(Text.places content).filterMap fun place =>
    ((nameAt? place).filter fun name => !primitives.contains name && !known.contains name).map
      (place.1.length, ·), ⟨?_, fun i name => ?_⟩, ?_⟩
  · refine (Text.pairwise_placesFrom [] content).filterMap _ ?_
    intro place later before first found second found'
    obtain ⟨-, -, rfl⟩ := Option.map_eq_some_iff.1 found
    obtain ⟨-, -, rfl⟩ := Option.map_eq_some_iff.1 found'
    exact before
  · simp only [List.mem_filterMap, Option.map_eq_some_iff, Option.filter_eq_some_iff,
      Prod.mk.injEq, Bool.and_eq_true, Bool.not_eq_true', List.contains_eq_mem,
      decide_eq_false_iff_not]
    constructor
    · rintro ⟨⟨before, rest⟩, place, name, ⟨found, unknown⟩, rfl, rfl⟩
      exact ⟨(nameAt?_eq_some_iff place).1 found, unknown⟩
    · rintro ⟨refers, unknown⟩
      obtain ⟨before, mark, rest, split, rfl, -⟩ := id refers
      have place := Text.mem_places.2 ⟨split, List.cons_ne_nil mark rest⟩
      exact ⟨_, place, name, ⟨(nameAt?_eq_some_iff place).2 refers, unknown⟩, rfl, rfl⟩
  · rw [undefined, references_eq [] content, List.filter_filterMap, List.map_filterMap]
    simp only [Option.map_map, Function.comp_def, Option.map_id', Text.places]

/-! ### Declarations -/

/-- No section before position `d` is about the domain, and the one at `d` is. -/
def FirstDomain (sections : List Section) (d : Nat) : Prop :=
  (∃ s, sections[d]? = some s ∧ s.kind = .domain) ∧
    ∀ k < d, ∀ s, sections[k]? = some s → s.kind ≠ .domain

/-- The section at position `i` declares an entity: it has level 3 and comes after the first domain
section with no section of level 2 or less in between. -/
def DeclaredAt (sections : List Section) (i : Nat) (name : Text) : Prop :=
  ∃ d s, FirstDomain sections d ∧ d < i ∧ sections[i]? = some s ∧ s.level = 3 ∧ s.title = name ∧
    ∀ k s', d < k → k < i → sections[k]? = some s' → 2 < s'.level

/-- The declared names, each with the position of its section. -/
def declared (sections : List Section) : List (Nat × Text) :=
  ((((sections.zipIdx.dropWhile (·.1.kind != .domain)).drop 1).takeWhile (2 < ·.1.level)).filter
    (·.1.level == 3)).map fun (s, i) => (i, s.title)

theorem map_snd_declared (sections : List Section) :
    (declared sections).map Prod.snd = (declarations sections).map Section.title := by
  have split : sections.zipIdx.map Prod.fst = sections := List.zipIdx_map_fst 0 sections
  rw [declarations]
  conv => rhs; rw [← split]
  rw [List.dropWhile_map, ← List.map_drop, List.takeWhile_map, List.filter_map]
  simp [declared, Function.comp_def]

theorem pairwise_declared (sections : List Section) :
    (declared sections).Pairwise fun first second => first.1 < second.1 := by
  have numbers : (sections.zipIdx.map Prod.snd).Pairwise (· < ·) := by
    rw [List.zipIdx_map_snd]
    exact List.pairwise_lt_range'
  rw [List.pairwise_map] at numbers
  refine List.pairwise_map.2 (numbers.sublist ?_)
  exact List.filter_sublist.trans ((List.takeWhile_sublist _).trans
    ((List.drop_sublist _ _).trans (List.dropWhile_sublist _)))

variable {front back : List Section} {domain : Section}

/-- The first domain section, with no other one in front of it. -/
theorem firstDomain_iff (none : ∀ s ∈ front, s.kind ≠ .domain) (kind : domain.kind = .domain)
    {d : Nat} : FirstDomain (front ++ domain :: back) d ↔ d = front.length := by
  constructor
  · rintro ⟨⟨s, found, same⟩, first⟩
    rcases Nat.lt_trichotomy d front.length with early | rfl | late
    · rw [List.getElem?_append_left early] at found
      exact absurd same (none s (List.mem_of_getElem? found))
    · rfl
    · exact absurd kind (first front.length late domain (by simp))
  · rintro rfl
    refine ⟨⟨domain, by simp, kind⟩, fun k early s found => ?_⟩
    rw [List.getElem?_append_left early] at found
    exact none s (List.mem_of_getElem? found)

theorem getElem?_behind (front back : List Section) (domain : Section) (m : Nat) :
    (front ++ domain :: back)[front.length + 1 + m]? = back[m]? := by
  rw [Nat.add_assoc, List.getElem?_append_right (Nat.le_add_right ..), Nat.add_sub_cancel_left,
    Nat.add_comm, List.getElem?_cons_succ]

theorem declared_split (none : ∀ s ∈ front, s.kind ≠ .domain) (kind : domain.kind = .domain) :
    declared (front ++ domain :: back) =
      (((back.zipIdx (front.length + 1)).takeWhile (2 < ·.1.level)).filter (·.1.level == 3)).map
        fun (s, i) => (i, s.title) := by
  have passed : ∀ place ∈ front.zipIdx, (place.1.kind != .domain) = true := fun place hp => by
    simpa using none place.1 (List.fst_mem_of_mem_zipIdx hp)
  rw [declared, List.zipIdx_append, List.dropWhile_append_of_pos passed, List.zipIdx_cons]
  simp [kind]

theorem mem_takeWhile_zipIdx {s : Section} {n : Nat} :
    (s, i) ∈ (back.zipIdx n).takeWhile (2 < ·.1.level) ↔ ∃ m, n + m = i ∧ back[m]? = some s ∧
      ∀ k ≤ m, ∀ s', back[k]? = some s' → 2 < s'.level := by
  simp only [List.mem_iff_getElem?, Check.getElem?_takeWhile_iff, List.getElem?_zipIdx,
    Option.map_eq_some_iff, Prod.forall, Prod.mk.injEq, decide_eq_true_eq]
  refine exists_congr fun m => ⟨?_, ?_⟩
  · rintro ⟨⟨_, found, rfl, here⟩, upTo⟩
    exact ⟨here, found, fun k le s' hs' => upTo k le s' _ ⟨s', hs', rfl, rfl⟩⟩
  · rintro ⟨here, found, upTo⟩
    refine ⟨⟨s, found, rfl, here⟩, ?_⟩
    rintro k le _ _ ⟨s', hs', rfl, -⟩
    exact upTo k le s' hs'

theorem mem_declared_split (none : ∀ s ∈ front, s.kind ≠ .domain) (kind : domain.kind = .domain) :
    (i, name) ∈ declared (front ++ domain :: back) ↔
      DeclaredAt (front ++ domain :: back) i name := by
  simp only [declared_split none kind, DeclaredAt, firstDomain_iff none kind, List.mem_map,
    List.mem_filter, mem_takeWhile_zipIdx, Prod.exists, Prod.mk.injEq]
  constructor
  · rintro ⟨s, _, ⟨⟨m, rfl, found, upTo⟩, level⟩, rfl, rfl⟩
    refine ⟨_, s, rfl, by omega, by rwa [getElem?_behind], by simpa using level, rfl, ?_⟩
    intro k s' after before hk
    obtain ⟨m', rfl⟩ := Nat.exists_eq_add_of_le (Nat.succ_le_of_lt after)
    rw [Nat.succ_eq_add_one, getElem?_behind] at hk
    exact upTo m' (by omega) s' hk
  · rintro ⟨_, s, rfl, after, found, level, rfl, upTo⟩
    obtain ⟨m, rfl⟩ := Nat.exists_eq_add_of_le (Nat.succ_le_of_lt after)
    rw [Nat.succ_eq_add_one, getElem?_behind] at found
    refine ⟨s, _, ⟨⟨m, rfl, found, fun k le s' hs' => ?_⟩, by simpa using level⟩, rfl, rfl⟩
    rcases Nat.eq_or_lt_of_le le with rfl | lt
    · obtain rfl := Option.some.inj (found.symm.trans hs')
      omega
    · exact upTo (front.length + 1 + k) s' (by omega) (by omega) (by rwa [getElem?_behind])

theorem mem_declared : (i, name) ∈ declared sections ↔ DeclaredAt sections i name := by
  have none : ∀ s ∈ sections.takeWhile (·.kind != .domain), s.kind ≠ .domain := fun s hs => by
    simpa using List.mem_takeWhile_imp hs
  have split : sections.takeWhile (·.kind != .domain) ++ sections.dropWhile (·.kind != .domain) =
      sections := List.takeWhile_append_dropWhile
  have first := List.head?_dropWhile_not (·.kind != .domain) sections
  generalize sections.takeWhile (·.kind != .domain) = front at none split
  generalize sections.dropWhile (·.kind != .domain) = rest at first split
  subst split
  cases rest with
  | nil =>
    have passed : ∀ place ∈ front.zipIdx, (place.1.kind != .domain) = true := fun place hp => by
      simpa using none place.1 (List.fst_mem_of_mem_zipIdx hp)
    rw [List.append_nil, declared, List.dropWhile_eq_nil_iff.2 passed]
    refine iff_of_false (by simp) ?_
    rintro ⟨d, -, ⟨⟨s, found, kind⟩, -⟩, -⟩
    exact none s (List.mem_of_getElem? found) kind
  | cons domain back => exact mem_declared_split none (by simpa using first)

/-! ### Registered names -/

/-- The first position that a list has for a name. -/
def First (found : List (Nat × Text)) (i : Nat) (name : Text) : Prop :=
  (i, name) ∈ found ∧ ∀ j < i, (j, name) ∉ found

theorem exists_first {found : List (Nat × Text)} (h : (i, name) ∈ found) :
    ∃ j, First found j name := by
  classical
  have some : ∃ j, (j, name) ∈ found := ⟨i, h⟩
  exact ⟨Nat.find some, Nat.find_spec some, fun j early => Nat.find_min some early⟩

theorem First.of_filter {found : List (Nat × Text)} {n : Nat} {other : Text}
    (h : First (found.filter (·.2 != other)) i name) : First ((n, other) :: found) i name := by
  obtain ⟨mem, first⟩ := h
  obtain ⟨mem, apart⟩ := List.mem_filter.1 mem
  refine ⟨List.mem_cons_of_mem _ mem, fun j early again => ?_⟩
  rcases List.mem_cons.1 again with same | again
  · simp [(Prod.mk.inj same).2] at apart
  · exact first j early (List.mem_filter.2 ⟨again, apart⟩)

/-- Without repetitions, the names of a list come in the order of their first positions. -/
theorem pairwise_eraseDups (found : List (Nat × Text))
    (ordered : found.Pairwise fun first second => first.1 < second.1) :
    (found.map Prod.snd).eraseDups.Pairwise fun name other =>
      ∃ i j, i < j ∧ First found i name ∧ First found j other := by
  match found with
  | [] => simp
  | (i, name) :: rest =>
    obtain ⟨before, ordered⟩ := List.pairwise_cons.1 ordered
    have apart : (rest.map Prod.snd).filter (fun other => !other == name) =
        (rest.filter (·.2 != name)).map Prod.snd := List.filter_map
    have later := pairwise_eraseDups (rest.filter (·.2 != name)) (ordered.filter _)
    rw [List.map_cons, List.eraseDups_cons, apart]
    refine List.Pairwise.cons (fun other mem => ?_) (later.imp ?_)
    · obtain ⟨⟨j, other⟩, declared, rfl⟩ := List.mem_map.1 (List.mem_eraseDups.1 mem)
      obtain ⟨j, first⟩ := exists_first declared
      refine ⟨i, j, before _ (List.mem_filter.1 first.1).1, ⟨List.mem_cons_self, ?_⟩,
        first.of_filter⟩
      intro k early again
      rcases List.mem_cons.1 again with same | again
      · exact absurd (Prod.mk.inj same).1 (Nat.ne_of_lt early)
      · exact absurd (before _ again) (Nat.lt_asymm early)
    · rintro _ _ ⟨i, j, lt, first, first'⟩
      exact ⟨i, j, lt, first.of_filter, first'.of_filter⟩
termination_by found.length
decreasing_by exact Nat.lt_succ_of_le (List.length_filter_le _ _)

/-- The first section that declares the name. -/
def FirstDeclaredAt (sections : List Section) (i : Nat) (name : Text) : Prop :=
  DeclaredAt sections i name ∧ ∀ j < i, ¬ DeclaredAt sections j name

theorem first_declared_iff : First (declared sections) i name ↔ FirstDeclaredAt sections i name := by
  simp only [First, FirstDeclaredAt, mem_declared]

theorem mem_registered : name ∈ registered sections ↔ ∃ i, DeclaredAt sections i name := by
  simp [registered, ← map_snd_declared, ← mem_declared]

theorem pairwise_registered (sections : List Section) : (registered sections).Pairwise
    fun name other => ∃ i j, i < j ∧ FirstDeclaredAt sections i name ∧
      FirstDeclaredAt sections j other := by
  have ordered := pairwise_eraseDups (declared sections) (pairwise_declared sections)
  simpa only [registered, ← map_snd_declared, first_declared_iff] using ordered

theorem nodup_registered (sections : List Section) : (registered sections).Nodup := by
  refine (pairwise_registered sections).imp ?_
  rintro name _ ⟨i, j, early, ⟨declared, -⟩, -, first⟩ rfl
  exact first i early declared

/-- The warnings about undeclared names, capability by capability and place by place; a search that
goes on behind each name finds the same. The registered names are those that are declared, in the
order of their first declarations. -/
theorem warnings_list_undefined (sections : List Section) :
    (∃ found : Section → List (Nat × Text),
      (∀ s, Lists (registered sections) s.content (found s)) ∧
      (validate sections).warnings.filter (·.rule == .undefinedEntity) =
        (sections.filter (·.kind == .capability)).flatMap fun s => (found s).map fun (_, name) =>
          .report (.undefinedEntity name) ("Capability: ".toList ++ s.title) s.line) ∧
    (∀ content, references content = (scan content).filterMap delimited?) ∧
    (∀ name, name ∈ registered sections ↔ ∃ i, DeclaredAt sections i name) ∧
    (registered sections).Nodup ∧
    ((registered sections).Pairwise fun name other => ∃ i j, i < j ∧
      FirstDeclaredAt sections i name ∧ FirstDeclaredAt sections j other) ∧
    (validate sections).stats.domainConcepts = (registered sections).length := by
  refine ⟨?_, references_eq_scan, fun name => mem_registered, nodup_registered sections,
    pairwise_registered sections, rfl⟩
  choose found lists names using fun s : Section =>
    exists_lists (registered sections) s.content
  refine ⟨found, lists, ?_⟩
  have parts := Check.ofRule_warnings_capability (r := .undefinedEntity) sections rfl (by decide)
  simp only [Check.ofRule_undefinedEntity, Check.undefinedEntities, names, List.map_map] at parts
  exact parts

end IslDocs.Entity
