import IslDocs.Proofs.Manifest.Lookup
import IslDocs.Proofs.Manifest.RoundTrip

/-! A manifest as it is built up, entries pushed one at a time or all read from a text. Reading lets
no source be named twice and pushing drops the entry that was there for the source, so at any time
a manifest is a map from sources to entries that remembers the order of the last pushes. -/

namespace IslDocs.Manifest

inductive Operation where
  | push (e : Entry)
  | parse (t : Text)

/-- A text that is no manifest leaves the manifest as it is. -/
def apply (m : Manifest) : Operation → Manifest
  | .push e => m.push e
  | .parse t => (parse t).toOption.getD m

/-- The manifest after some operations on the empty one. -/
def after (operations : List Operation) : Manifest := operations.foldl apply empty

theorem nodup_sources_apply {m : Manifest} (nodup : m.sources.Nodup) (operation : Operation) :
    (m.apply operation).sources.Nodup := by
  cases operation with
  | push e => exact nodup_sources_push nodup e
  | parse t =>
    rw [apply]
    cases read : parse t with
    | error failure => exact nodup
    | ok m' => exact nodup_sources_of_parse read

theorem nodup_sources_foldl {m : Manifest} (nodup : m.sources.Nodup)
    (operations : List Operation) : (operations.foldl apply m).sources.Nodup := by
  induction operations generalizing m with
  | nil => exact nodup
  | cons operation rest ih => exact ih (nodup_sources_apply nodup operation)

/-- At any time no source is named twice and an entry is found by its source. An entry that is
pushed then stands last, after all others but one with the same source, which it replaces; for
every other source the same is found as before. -/
theorem operations_ordered_map (operations : List Operation) :
    let m := after operations
    m.sources.Nodup ∧
    (∀ source e, m.entry? source = some e ↔ e ∈ m.entries ∧ e.source = source) ∧
    ∀ e,
      (m.push e).entries = m.entries.filter (·.source != e.source) ++ [e] ∧
      (m.entry? e.source = none → (m.push e).entries = m.entries ++ [e]) ∧
      (∀ old, m.entry? e.source = some old → ∃ before later,
        m.entries = before ++ old :: later ∧ (m.push e).entries = before ++ later ++ [e]) ∧
      entry? (m.push e) e.source = some e ∧
      ∀ source, source ≠ e.source → entry? (m.push e) source = m.entry? source := by
  intro m
  have none : empty.sources.Nodup := List.nodup_nil
  have nodup : m.sources.Nodup := nodup_sources_foldl none operations
  refine ⟨nodup, fun source e => lookup_eq_some_iff nodup, fun e =>
    ⟨rfl, fun new => ?_, fun old known => push_of_known nodup known, ?_, fun source other => ?_⟩⟩
  · have fresh : e.source ∉ m.sources := fun listed => by
      obtain ⟨e', listed, same⟩ := List.mem_map.1 listed
      exact lookup_eq_none_iff.1 new e' listed same
    rw [push_of_new fresh]
  · rw [lookup_push, if_pos rfl]
  · rw [lookup_push, if_neg other]

end IslDocs.Manifest
