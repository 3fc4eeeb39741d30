import IslDocs.Proofs.Project.Layout

/-! The scan and the output directory. The scan compares texts: the output as it is written, up to
slashes at its end, and the path of a document below the root. So it keeps out of the output
directory where the output is written with the names of this directory and nothing else, and with
any other spelling it does not recognize the directory. -/

namespace IslDocs

open IslDocs.Path (Plain ofLocation joined)
open Project (base discover)

/-! ### Slashes -/

namespace Path

variable {names loc : List Text}

/-- Slashes at the end of a text are empty pieces after the others. -/
theorem splitOn_append_slashes (t : Text) (count : Nat) :
    (t ++ List.replicate count '/').splitOn '/' = t.splitOn '/' ++ List.replicate count [] := by
  induction count generalizing t with
  | zero => simp
  | succ count ih =>
    have cut := List.splitOn_append_cons_self (a := '/') t []
    rw [List.splitOn_nil] at cut
    rw [List.replicate_succ, List.append_cons, ih, cut, List.append_assoc]
    rfl

theorem foldl_pushNormal_names (names loc : List Text) :
    (loc.map Component.name).foldl pushNormal (stack names) = stack (names ++ loc) := by
  induction loc generalizing names with
  | nil => simp
  | cons n rest ih =>
    have pushed : pushNormal (stack names) (.name n) = stack (names ++ [n]) := by
      simp [stack, pushNormal]
    simp [pushed, ih]

/-- Slashes at its end do not make a path lead elsewhere. -/
theorem location_normalize (h : Plain loc) (hne : loc ≠ []) (count : Nat) :
    (⟨(ofLocation loc).text ++ List.replicate count '/'⟩ : Path).normalize.location = loc := by
  have parts : (⟨(ofLocation loc).text ++ List.replicate count '/'⟩ : Path).parts =
      .root :: loc.map .name := by
    rw [text_ofLocation, List.cons_append, parts_slash, splitOn_append_slashes,
      splitOn_joined h hne, List.filterMap_append, filterMap_ofPiece? h]
    simp [Component.ofPiece?]
  have normal : normalParts (.root :: loc.map .name) = .root :: loc.map .name := by
    have start : pushNormal [] .root = stack [] := rfl
    rw [normalParts, List.foldl_cons, start, foldl_pushNormal_names]
    simp [stack]
  rw [normalize, parts, normal]
  exact location_ofLocation h

theorem join_append {p : Path} {target : Text} (hne : target ≠ []) (more : Text) :
    p.join (target ++ more) = ⟨(p.join target).text ++ more⟩ := by
  rw [join, join, List.head?_append_of_ne_nil _ hne]
  split
  · rfl
  · split <;> simp

end Path

/-! ### The output as it is spelled -/

namespace Config

variable {c : Config} {rel : Location}

/-- The same configuration without the slashes at the end of the output. -/
def trimmed (c : Config) : Config := { c with output := Text.dropEndWhile (· == '/') c.output }

/-- Up to slashes at its end, the output has no more than plain names, joined by single slashes,
and no backslash. -/
structure SpelledOut (c : Config) : Prop where
  plain : c.trimmed.PlainOutput
  clear : '\\' ∉ c.trimmed.output

instance (c : Config) : Decidable c.SpelledOut :=
  decidable_of_iff (c.trimmed.PlainOutput ∧ '\\' ∉ c.trimmed.output)
    ⟨fun ⟨plain, clear⟩ => ⟨plain, clear⟩, fun h => ⟨h.plain, h.clear⟩⟩

theorem output_eq (c : Config) :
    ∃ count, c.output = c.trimmed.output ++ List.replicate count '/' := by
  have slashes : ∀ d ∈ c.output.rtakeWhile (· == '/'), d = '/' := by
    intro d hd
    simpa using List.mem_rtakeWhile_imp hd
  refine ⟨(c.output.rtakeWhile (· == '/')).length, ?_⟩
  rw [← List.eq_replicate_of_mem slashes]
  exact (List.rdropWhile_append_rtakeWhile).symm

@[simp] theorem outputStart_trimmed (c : Config) : c.trimmed.outputStart = c.outputStart :=
  congrArg (· ++ ['/']) (List.rdropWhile_idempotent (· == '/') c.output)

@[simp] theorem isDocument_trimmed (c : Config) :
    Project.isDocument c.trimmed = Project.isDocument c := by
  funext root loc
  simp only [Project.isDocument, shouldScan, outputStart_trimmed]
  rfl

/-- A path that the scan takes for one in the output directory has the names of the output. -/
theorem outputStart_prefix_iff (plain : Plain rel) (hne : rel ≠ []) (clear : '\\' ∉ joined rel) :
    c.outputStart <+: joined rel ↔
      c.SpelledOut ∧ ∃ rest, rest ≠ [] ∧ rel = c.trimmed.outputNames ++ rest := by
  have start : c.outputStart = c.trimmed.output ++ ['/'] := rfl
  rw [start]
  constructor
  · rintro ⟨more, cut⟩
    rw [List.append_assoc, List.singleton_append] at cut
    have names : rel = c.trimmed.outputNames ++ more.splitOn '/' := by
      rw [outputNames, ← List.splitOn_append_cons_self, cut, Path.splitOn_joined plain hne]
    refine ⟨⟨(names ▸ plain).left, fun inside => clear ?_⟩, _, List.splitOn_ne_nil _ _, names⟩
    rw [← cut]
    exact List.mem_append_left _ inside
  · rintro ⟨-, rest, more, rfl⟩
    rw [Path.joined_append c.trimmed.outputNames_ne_nil more, joined_outputNames]
    exact ⟨joined rest, by simp⟩

end Config

/-! ### The output directory -/

namespace Project

variable {t : Tree} {root : Path} {config : Config} {rel : Location}

/-- Strictly below a directory. -/
def Inside (dir loc : Location) : Prop := ∃ rest, rest ≠ [] ∧ loc = dir ++ rest

/-- The output directory without dots. -/
def outputPlace (t : Tree) (root : Path) (config : Config) : Location :=
  ((Path.absolute t.workPath root).join config.output).normalize.location

theorem outputPlace_eq (hr : root.text ≠ []) (spelled : config.SpelledOut) :
    outputPlace t root config = base t root ++ config.trimmed.outputNames := by
  have rooted := rooted_absolute t hr
  have names := config.trimmed.outputNames_ne_nil
  obtain ⟨count, output⟩ := config.output_eq
  have target : config.trimmed.output ≠ [] := by
    rw [← config.trimmed.joined_outputNames]
    exact Path.joined_ne_nil spelled.plain names
  have join : (Path.absolute t.workPath root).join config.trimmed.output =
      ofLocation (base t root ++ config.trimmed.outputNames) := by
    rw [rooted.eq_ofLocation, ← config.trimmed.joined_outputNames]
    exact Path.join_joined rooted.plain spelled.plain names
  rw [outputPlace, output, Path.join_append target, join]
  exact Path.location_normalize (rooted.plain.append spelled.plain) (by simp [names]) count

theorem inside_outputPlace_iff (hr : root.text ≠ []) (spelled : config.SpelledOut) :
    Inside (outputPlace t root config) (base t root ++ rel) ↔
      ∃ rest, rest ≠ [] ∧ rel = config.trimmed.outputNames ++ rest := by
  rw [outputPlace_eq hr spelled, Inside]
  simp only [List.append_assoc, List.append_cancel_left_eq]

theorem scanText_of_clear (clear : '\\' ∉ joined rel) : scanText [] rel = joined rel := by
  rw [scanText, List.length_nil, List.drop_zero]
  exact Config.map_slash_of_clear clear

/-- Without a backslash in its path, the scan takes a file for a document by its name, the patterns,
and whether the output is spelled out with names that the file is below. -/
theorem isDocument_iff (plain : Plain rel) (hne : rel ≠ []) (clear : '\\' ∉ joined rel) :
    isDocument config [] rel = true ↔
      Text.endsWith config.suffix (rel.getLast?.getD []) = true ∧
        config.isIncluded (joined rel) = true ∧
        config.excluded.any (Text.startsWith · (joined rel)) = false ∧
        ¬ (config.SpelledOut ∧ ∃ rest, rest ≠ [] ∧ rel = config.trimmed.outputNames ++ rest) := by
  rw [← Config.outputStart_prefix_iff plain hne clear, ← List.isPrefixOf_iff_prefix, isDocument,
    scanText_of_clear clear, Config.shouldScan]
  simp only [Bool.and_eq_true, Bool.not_eq_true', Bool.not_eq_true, Text.startsWith]
  tauto

theorem mem_discover_of_held (ht : t.WellFormed) (hr : root.text ≠ []) (hne : rel ≠ [])
    {content : ByteArray} (held : t.content? (base t root ++ rel) = some content) :
    ofLocation (base t root ++ rel) ∈ discover t root config ↔
      isDocument config [] rel = true := by
  have plain := ht.plain_of_content? held
  rw [mem_discover ht, ← Config.isDocument_append config (base t root) hne]
  constructor
  · rintro ⟨-, rel', path, -, document, content', held'⟩
    have plain' := ht.plain_of_content? held'
    have same : base t root ++ rel = base t root ++ rel' := by
      rw [← Path.location_ofLocation plain, path, Path.location_ofLocation plain']
    rwa [same]
  · intro document
    exact ⟨hr, rel, rfl, hne, document, content, held⟩

/-- No document is in the output directory if the output is spelled out, up to slashes at its end,
with plain names and without a backslash. With any other output, the files in this directory are
scanned like all others; this is said of paths without a backslash, which the scan takes for a
slash. -/
theorem discover_and_output (ht : t.WellFormed) :
    (config.SpelledOut →
      ∀ d ∈ discover t root config, ¬ Inside (outputPlace t root config) d.location) ∧
    ∀ rel content, root.text ≠ [] → rel ≠ [] → t.content? (base t root ++ rel) = some content →
      '\\' ∉ joined rel →
        (ofLocation (base t root ++ rel) ∈ discover t root config ↔
          Text.endsWith config.suffix (rel.getLast?.getD []) = true ∧
            config.isIncluded (joined rel) = true ∧
            config.excluded.any (Text.startsWith · (joined rel)) = false ∧
            ¬ (config.SpelledOut ∧
              Inside (outputPlace t root config) (base t root ++ rel))) := by
  constructor
  · intro spelled d hd inside
    obtain ⟨hr, rel, rfl, hne, document, content, held⟩ := (mem_discover ht).1 hd
    rw [Path.location_ofLocation (ht.plain_of_node? (Tree.content?_eq_some.1 held)),
      inside_outputPlace_iff hr spelled] at inside
    obtain ⟨rest, more, rfl⟩ := inside
    rw [← Config.isDocument_trimmed, ← List.append_assoc,
      Config.isDocument_below_output spelled.plain spelled.clear more] at document
    cases document
  · intro rel content hr hne held clear
    have plain := ht.plain_of_node? (Tree.content?_eq_some.1 held)
    rw [mem_discover_of_held ht hr hne held, isDocument_iff plain.right hne clear]
    refine and_congr_right fun _ => and_congr_right fun _ => and_congr_right fun _ => ?_
    refine not_congr (and_congr_right fun spelled => ?_)
    rw [inside_outputPlace_iff hr spelled]

/-! ### A project with a document in the output directory -/

/-- A document, and another one in a directory. -/
def nested : Tree where
  entries :=
    [(["a.isl.md".toList], .file (Text.bytes "# A".toList)),
     (["build".toList], .directory),
     (["build".toList, "b.isl.md".toList], .file (Text.bytes "# B".toList))]
  workDir := []

def outputConfig (output : Text) : Config := { Config.default with output }

theorem nested_and_output :
    ⟨"/a.isl.md".toList⟩ ∈ discover nested ⟨".".toList⟩ (outputConfig "build//".toList) ∧
      ⟨"/build/b.isl.md".toList⟩ ∉ discover nested ⟨".".toList⟩ (outputConfig "build//".toList) := by
  have wellFormed : nested.WellFormed := by decide
  have spelled : (outputConfig "build//".toList).SpelledOut := by decide
  have place : outputPlace nested ⟨".".toList⟩ (outputConfig "build//".toList) =
      ["build".toList] := by decide
  obtain ⟨spared, scanned⟩ :=
    @discover_and_output nested ⟨".".toList⟩ (outputConfig "build//".toList) wellFormed
  rw [place] at spared scanned
  constructor
  · apply (scanned ["a.isl.md".toList] (Text.bytes "# A".toList) (by decide) (by decide) rfl
      (by decide)).2
    refine ⟨by decide, by decide, by decide, ?_⟩
    rintro ⟨-, rest, -, inside⟩
    have here : base nested ⟨".".toList⟩ = [] := by decide
    rw [here] at inside
    exact absurd (List.cons.inj inside).1 (by decide)
  · intro found
    exact spared spelled _ found ⟨["b.isl.md".toList], by decide, by decide⟩

/-- The directory is the same with this spelling of it, but then it is scanned. -/
theorem nested_output_scanned :
    let config := outputConfig "./build".toList
    outputPlace nested ⟨".".toList⟩ config = base nested ⟨".".toList⟩ ++ ["build".toList] ∧
      ⟨"/build/b.isl.md".toList⟩ ∈ discover nested ⟨".".toList⟩ config := by
  have wellFormed : nested.WellFormed := by decide
  have held : nested.content? (base nested ⟨".".toList⟩ ++ ["build".toList, "b.isl.md".toList]) =
      some (Text.bytes "# B".toList) := rfl
  refine ⟨by decide, (mem_discover_of_held wellFormed (by decide) (by decide) held).2 ?_⟩
  decide

end Project
end IslDocs
