import IslDocs.Manifest.Basic
import Mathlib.Data.List.Nodup

/-! Entries of a manifest by their source. As long as no source is named twice an entry is found by
its own source, and pushing an entry changes what is found for its source only. -/

namespace IslDocs.Manifest

variable {m : Manifest} {e old : Entry} {source : Text}

/-! ### Looking up -/

theorem lookup_eq_none_iff : m.entry? source = none ↔ ∀ e ∈ m.entries, e.source ≠ source := by
  unfold entry?
  rw [List.find?_eq_none]
  simp only [beq_iff_eq]

theorem lookup_spec (h : m.entry? source = some e) : e ∈ m.entries ∧ e.source = source := by
  unfold entry? at h
  exact ⟨List.mem_of_find?_eq_some h, by simpa using List.find?_some h⟩

theorem lookup_eq_some_iff (nodup : m.sources.Nodup) :
    m.entry? source = some e ↔ e ∈ m.entries ∧ e.source = source := by
  refine ⟨lookup_spec, ?_⟩
  rintro ⟨listed, rfl⟩
  cases found : m.entry? e.source with
  | none => exact absurd rfl (lookup_eq_none_iff.1 found e listed)
  | some e' =>
    obtain ⟨listed', same⟩ := lookup_spec found
    exact congrArg some (List.inj_on_of_nodup_map nodup listed' listed same)

/-! ### Pushing -/

@[simp] theorem sources_push (m : Manifest) (e : Entry) :
    (m.push e).sources = m.sources.filter (· != e.source) ++ [e.source] := by
  simp only [sources, push, List.map_append, List.filter_map]
  rfl

theorem nodup_sources_push (nodup : m.sources.Nodup) (e : Entry) : (m.push e).sources.Nodup := by
  rw [sources_push]
  refine List.Nodup.append (nodup.filter _) (List.nodup_singleton _) ?_
  intro source kept pushed
  rw [List.mem_singleton.1 pushed, List.mem_filter] at kept
  simp at kept

theorem push_of_new (h : e.source ∉ m.sources) : m.push e = { entries := m.entries ++ [e] } := by
  have kept : m.entries.filter (·.source != e.source) = m.entries :=
    List.filter_eq_self.2 fun e' he' => bne_iff_ne.2 fun same => h (same ▸ List.mem_map_of_mem he')
  rw [push, kept]

theorem sources_push_of_new (h : e.source ∉ m.sources) :
    (m.push e).sources = m.sources ++ [e.source] := by
  simp [push_of_new h, sources]

/-- An entry replaces the one for its source at the end of the manifest. -/
theorem push_of_known (nodup : m.sources.Nodup) (known : m.entry? e.source = some old) :
    ∃ before later, m.entries = before ++ old :: later ∧
      (m.push e).entries = before ++ later ++ [e] := by
  obtain ⟨listed, same⟩ := lookup_spec known
  obtain ⟨before, later, split⟩ := List.append_of_mem listed
  rw [sources, split, List.map_append, List.map_cons, List.nodup_middle, List.nodup_cons,
    ← List.map_append, same] at nodup
  have others : (before ++ later).filter (·.source != e.source) = before ++ later :=
    List.filter_eq_self.2 fun e' he' =>
      bne_iff_ne.2 fun same' => nodup.1 (same' ▸ List.mem_map_of_mem he')
  refine ⟨before, later, split, ?_⟩
  rw [← others, push, split]
  simp [same]

/-- What is found for other sources is found without the entries for one. -/
theorem find?_filter_source {dropped : Text} (other : source ≠ dropped) (entries : List Entry) :
    (entries.filter (·.source != dropped)).find? (·.source == source) =
      entries.find? (·.source == source) := by
  rw [List.find?_filter]
  congr 1
  funext e
  by_cases same : e.source = source
  · simp [same, other]
  · simp [same]

theorem lookup_push (m : Manifest) (e : Entry) (source : Text) :
    entry? (m.push e) source = if source = e.source then some e else m.entry? source := by
  rw [push, entry?, entry?, List.find?_append]
  split
  · next same =>
    have none : (m.entries.filter (·.source != e.source)).find? (·.source == source) = none := by
      rw [same, List.find?_eq_none]
      intro e' kept
      simpa using (List.mem_filter.1 kept).2
    rw [none, Option.none_or, same]
    exact List.find?_cons_of_pos (beq_self_eq_true _)
  · next other =>
    have apart : (e.source == source) = false := beq_eq_false_iff_ne.2 (Ne.symm other)
    simp [find?_filter_source other, apart]

end IslDocs.Manifest
