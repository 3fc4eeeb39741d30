import IslDocs.Manifest.Codec
import IslDocs.Proofs.Json.RoundTrip
import Mathlib.Data.List.Nodup

/-! A manifest that names no source twice survives being written and read; of one that does, reading
reports the first source that has occurred before. -/

namespace IslDocs

theorem mapM_map_eq_some {α β : Type} {f : α → β} {g : β → Option α} {l : List α}
    (back : ∀ a ∈ l, g (f a) = some a) : (l.map f).mapM g = some l := by
  induction l with
  | nil => rfl
  | cons a rest ih =>
    simp [back a List.mem_cons_self, ih fun b hb => back b (List.mem_cons_of_mem _ hb)]

namespace Entry

theorem members?_some {named : List (Text × Json.Value)} (once : (named.map Prod.fst).Nodup) :
    members? (named.map fun (key, value) => (some key, value)) = some named := by
  have read : (named.map fun (key, value) => (some key, value)).mapM
      (fun (key, value) => Option.map (·, value) key) = some named :=
    mapM_map_eq_some fun _ _ => rfl
  have all : (keys.all fun key => decide (named.countP (·.1 == key) ≤ 1)) = true := by
    refine List.all_eq_true.2 fun key _ => decide_eq_true ?_
    have := List.nodup_iff_count_le_one.1 once key
    rwa [List.count, List.countP_map] at this
  rw [members?, read, Option.bind_eq_bind, Option.bind_some, if_pos all]

@[simp] theorem optionalText?_ofOption (t : Option Text) :
    optionalText? (.ofOption .ofText t) = some t := by
  cases t <;> rfl

@[simp] theorem ofJson?_toJson (e : Entry) : ofJson? e.toJson = some e := by
  have once : keys.Nodup := by decide
  let named : List (Text × Json.Value) :=
    [(buildKey, .ofText e.buildPath), (hashKey, .ofText e.hash),
     (implementationKey, .ofOption .ofText e.implementation),
     (interfaceKey, .ofText e.interfacePath), (sourceKey, .ofText e.source)]
  have read : members? (named.map fun (key, value) => (some key, value)) = some named :=
    members?_some once
  have build : named.lookup buildKey = some (.ofText e.buildPath) := rfl
  have hash : named.lookup hashKey = some (.ofText e.hash) := rfl
  have implementation : named.lookup implementationKey =
    some (.ofOption .ofText e.implementation) := rfl
  have interface : named.lookup interfaceKey = some (.ofText e.interfacePath) := rfl
  have source : named.lookup sourceKey = some (.ofText e.source) := rfl
  change (do
    let named ← members? (named.map fun (key, value) => (some key, value))
    ofValues? (← named.lookup buildKey) (← named.lookup hashKey)
      ((named.lookup implementationKey).getD .null) (← named.lookup interfaceKey)
      (← named.lookup sourceKey)) = some e
  simp only [read, build, hash, implementation, interface, source, Option.bind_eq_bind,
    Option.bind_some, Option.getD_some, ofValues?, optionalText?_ofOption]
  rfl

theorem numeric_toJson (e : Entry) : e.toJson.Numeric := by
  have implementation : (Json.Value.ofOption .ofText e.implementation).Numeric := by
    cases e.implementation <;> exact trivial
  exact ⟨trivial, trivial, implementation, trivial, trivial, trivial⟩

end Entry

namespace Manifest

theorem repeatedAfter_eq_none {seen sources : List Text} :
    repeatedAfter seen sources = none ↔ sources.Nodup ∧ ∀ s ∈ sources, s ∉ seen := by
  induction sources generalizing seen with
  | nil => simp [repeatedAfter]
  | cons source rest ih =>
    rw [repeatedAfter]
    split
    · next found => simp_all
    · next fresh =>
      rw [List.contains_iff_mem] at fresh
      rw [ih, List.nodup_cons, List.forall_mem_cons]
      constructor
      · rintro ⟨nodup, apart⟩
        exact ⟨⟨fun again => apart source again List.mem_cons_self, nodup⟩, fresh,
          fun s hs old => apart s hs (List.mem_cons_of_mem _ old)⟩
      · rintro ⟨⟨once, nodup⟩, -, apart⟩
        refine ⟨nodup, fun s hs old => ?_⟩
        rcases List.mem_cons.1 old with rfl | old
        · exact once hs
        · exact apart s hs old

@[simp] theorem repeatedSource?_eq_none {m : Manifest} :
    m.repeatedSource? = none ↔ m.sources.Nodup := by
  rw [repeatedSource?, repeatedAfter_eq_none]
  simp

theorem nodup_sources_of_parse {m : Manifest} {text : Text} (h : parse text = .ok m) :
    m.sources.Nodup := by
  unfold parse at h
  split at h
  · cases h
  · split at h
    · cases h
    · next unique =>
      cases h
      exact repeatedSource?_eq_none.1 unique

@[simp] theorem ofJson?_toJson (m : Manifest) : ofJson? m.toJson = some m := by
  rw [toJson, ofJson?, mapM_map_eq_some fun e _ => e.ofJson?_toJson]
  rfl

theorem numeric_toJson (m : Manifest) : m.toJson.Numeric := by
  rw [toJson]
  induction m.entries with
  | nil => exact trivial
  | cons e rest ih => exact ⟨e.numeric_toJson, ih⟩

@[simp] theorem parse?_serialize (m : Manifest) : Json.parse? m.serialize = some m.toJson :=
  Json.parse?_pretty m.numeric_toJson

theorem parse_serialize {m : Manifest} (h : m.sources.Nodup) : parse m.serialize = .ok m := by
  rw [parse, parse?_serialize, Option.bind_some, ofJson?_toJson]
  simp only [repeatedSource?_eq_none.2 h]

/-! ### Repeated sources -/

/-- What is reported is in `seen` or among the sources before it; these are new and different. -/
theorem repeatedAfter_eq_some {seen sources : List Text} {source : Text} :
    repeatedAfter seen sources = some source ↔ ∃ before after,
      sources = before ++ source :: after ∧ before.Nodup ∧ (∀ s ∈ before, s ∉ seen) ∧
        (source ∈ seen ∨ source ∈ before) := by
  induction sources generalizing seen with
  | nil => simp [repeatedAfter]
  | cons first rest ih =>
    rw [repeatedAfter]
    split
    · next found =>
      rw [List.contains_iff_mem] at found
      constructor
      · rintro ⟨rfl⟩
        exact ⟨[], rest, rfl, List.nodup_nil, by simp, Or.inl found⟩
      · rintro ⟨before, after, split, -, fresh, -⟩
        cases before with
        | nil => rw [(List.cons.inj split).1]
        | cons b before =>
          exact absurd ((List.cons.inj split).1 ▸ found) (fresh b List.mem_cons_self)
    · next new =>
      rw [List.contains_iff_mem] at new
      rw [ih]
      constructor
      · rintro ⟨before, after, rfl, nodup, fresh, known⟩
        have others : first ∉ before := fun again => fresh first again List.mem_cons_self
        refine ⟨first :: before, after, rfl, List.nodup_cons.2 ⟨others, nodup⟩, ?_, ?_⟩
        · exact List.forall_mem_cons.2
            ⟨new, fun s hs old => fresh s hs (List.mem_cons_of_mem _ old)⟩
        · simpa [or_left_comm, or_assoc] using known
      · rintro ⟨before, after, split, nodup, fresh, known⟩
        cases before with
        | nil =>
          obtain ⟨rfl, -⟩ := List.cons.inj split
          simp [new] at known
        | cons b before =>
          obtain ⟨rfl, rfl⟩ := List.cons.inj split
          obtain ⟨others, nodup⟩ := List.nodup_cons.1 nodup
          refine ⟨before, after, rfl, nodup, fun s hs old => ?_, ?_⟩
          · rcases List.mem_cons.1 old with rfl | old
            · exact others hs
            · exact fresh s (List.mem_cons_of_mem _ hs) old
          · simpa [or_left_comm, or_assoc] using known

theorem repeatedSource?_eq_some {m : Manifest} {source : Text} :
    m.repeatedSource? = some source ↔ ∃ before e after, m.entries = before ++ e :: after ∧
      (before.map Entry.source).Nodup ∧ e.source ∈ before.map Entry.source ∧
        e.source = source := by
  rw [repeatedSource?, repeatedAfter_eq_some]
  constructor
  · rintro ⟨before, after, split, nodup, -, known⟩
    obtain ⟨front, back, entries, rfl, rest⟩ := List.map_eq_append_iff.1 split
    obtain ⟨e, more, rfl, rfl, -⟩ := List.map_eq_cons_iff.1 rest
    exact ⟨front, e, more, entries, nodup, by simpa using known, rfl⟩
  · rintro ⟨before, e, after, entries, nodup, known, rfl⟩
    exact ⟨_, after.map Entry.source, by simp [sources, entries], nodup, by simp, Or.inr known⟩

theorem parse_serialize_of_repeated {m : Manifest} {source : Text}
    (h : m.repeatedSource? = some source) :
    parse m.serialize = .error (.manifestCorrupt (duplicateReason source)) := by
  rw [parse, parse?_serialize, Option.bind_some, ofJson?_toJson]
  simp only [h]

/-- What is written for a manifest is an array with an object for each entry. Read again, it is the
same manifest, or the first entry whose source an earlier one has is reported. -/
theorem parse_serialize_or_repeated (m : Manifest) :
    Json.parse? m.serialize = some (.array (m.entries.map fun e => .ofMembers
      [("buildArtifactPath".toList, .ofText e.buildPath),
       ("contentHash".toList, .ofText e.hash),
       ("implementationPath".toList, .ofOption .ofText e.implementation),
       ("interfaceArtifactPath".toList, .ofText e.interfacePath),
       ("sourcePath".toList, .ofText e.source)])) ∧
    (∀ m', parse m.serialize = .ok m' ↔ m' = m ∧ m.sources.Nodup) ∧
    ∀ failure, parse m.serialize = .error failure ↔
      ∃ before e after, m.entries = before ++ e :: after ∧ (before.map Entry.source).Nodup ∧
        e.source ∈ before.map Entry.source ∧
        failure = .manifestCorrupt ("duplicate entry for ".toList ++ e.source) := by
  refine ⟨parse?_serialize m, ?_⟩
  cases repeated : m.repeatedSource? with
  | none =>
    have nodup := repeatedSource?_eq_none.1 repeated
    rw [parse_serialize nodup]
    refine ⟨fun m' => by simp [nodup, eq_comm], fun failure => iff_of_false (by simp) ?_⟩
    rintro ⟨before, e, after, entries, first, known, -⟩
    have found := repeatedSource?_eq_some.2 ⟨before, e, after, entries, first, known, rfl⟩
    rw [repeated] at found
    cases found
  | some source =>
    have more : ¬ m.sources.Nodup := fun nodup => by
      rw [repeatedSource?_eq_none.2 nodup] at repeated
      cases repeated
    rw [parse_serialize_of_repeated repeated]
    refine ⟨fun m' => iff_of_false (by simp) fun h => more h.2, fun failure => ?_⟩
    constructor
    · rintro ⟨rfl⟩
      obtain ⟨before, e, after, entries, nodup, known, rfl⟩ := repeatedSource?_eq_some.1 repeated
      exact ⟨before, e, after, entries, nodup, known, rfl⟩
    · rintro ⟨before, e, after, entries, nodup, known, rfl⟩
      have found := repeatedSource?_eq_some.2 ⟨before, e, after, entries, nodup, known, rfl⟩
      rw [repeated] at found
      rw [Option.some.inj found]
      rfl

end Manifest
end IslDocs
