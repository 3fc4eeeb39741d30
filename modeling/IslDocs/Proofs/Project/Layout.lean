import IslDocs.Proofs.Project.Order
import Mathlib.Data.List.DropRight

/-! Where artifacts go when the output directory is given by plain names: below it, in the
directories of their documents and under their names with another ending. No place is written to
for two documents, and as long as the output has no backslash, none is taken for a document. -/

namespace IslDocs

open IslDocs.Path (Plain IsPlain ofLocation joined)

def buildEnding : Text := ".build.md".toList

def interfaceEnding : Text := ".ref.md".toList

namespace Config

variable {c : Config} {base rel rest : Location}

def outputNames (c : Config) : Location := c.output.splitOn '/'

/-- The output directory is one or more plain names joined by slashes. -/
def PlainOutput (c : Config) : Prop := Plain c.outputNames

instance (c : Config) : Decidable c.PlainOutput := inferInstanceAs (Decidable (Plain c.outputNames))

@[simp] theorem joined_outputNames (c : Config) : joined c.outputNames = c.output :=
  List.intercalate_splitOn '/'

theorem outputNames_ne_nil (c : Config) : c.outputNames ≠ [] := List.splitOn_ne_nil '/' _

theorem isDocument_append (c : Config) (base : Location) (hne : rel ≠ []) :
    Project.isDocument c base (base ++ rel) = Project.isDocument c [] rel := by
  simp only [Project.isDocument, Project.scanText, List.getLast?_append_of_ne_nil _ hne]
  simp

theorem outputStart_eq (plain : c.PlainOutput) : c.outputStart = c.output ++ ['/'] := by
  have kept : c.output.rdropWhile (· == '/') = c.output := by
    refine List.rdropWhile_eq_self_iff.2 fun hne slash => ?_
    have last := Path.getLast?_joined plain
    rw [joined_outputNames, List.getLast?_eq_some_getLast hne, beq_iff_eq.1 slash] at last
    exact last rfl
  rw [outputStart]
  exact congrArg (· ++ ['/']) kept

theorem map_slash_of_clear {text : Text} (clear : '\\' ∉ text) :
    text.map (fun c => if c == '\\' then '/' else c) = text := by
  refine (List.map_congr_left (g := id) fun d hd => if_neg fun h => ?_).trans (List.map_id _)
  exact clear (beq_iff_eq.1 h ▸ hd)

/-- Without a backslash in the output, nothing below it is a document. -/
theorem isDocument_below_output (plain : c.PlainOutput) (clear : '\\' ∉ c.output) (hne : rest ≠ [])
    (base : Location) : Project.isDocument c base (base ++ c.outputNames ++ rest) = false := by
  rw [List.append_assoc, isDocument_append c base (by simp [hne])]
  have below : c.outputStart <+: Project.scanText [] (c.outputNames ++ rest) := by
    have cut := Path.joined_append c.outputNames_ne_nil hne
    rw [joined_outputNames] at cut
    rw [Project.scanText, List.length_nil, List.drop_zero]
    change _ <+: List.map _ (joined (c.outputNames ++ rest))
    rw [cut, List.map_append, map_slash_of_clear clear, outputStart_eq plain, List.map_cons]
    exact (List.prefix_append_right_inj _).2 (List.prefix_append ['/'] _)
  have hidden : c.shouldScan (Project.scanText [] (c.outputNames ++ rest)) = false := by
    have : Text.startsWith c.outputStart (Project.scanText [] (c.outputNames ++ rest)) = true :=
      List.isPrefixOf_iff_prefix.2 below
    simp [shouldScan, this]
  rw [Project.isDocument, hidden, Bool.and_false]

end Config

/-! ### Endings -/

theorem concat_inj {dir dir' : Location} {name name' : Text} (base : Location)
    (h : base ++ dir ++ [name] = base ++ dir' ++ [name']) : dir = dir' ∧ name = name' := by
  rw [List.append_assoc, List.append_assoc] at h
  obtain ⟨same, last⟩ := List.append_inj' (List.append_cancel_left h) rfl
  exact ⟨same, List.singleton_inj.1 last⟩

@[simp] theorem reverse_buildEnding :
    buildEnding.reverse = ['d', 'm', '.', 'd', 'l', 'i', 'u', 'b', '.'] := by decide

@[simp] theorem reverse_interfaceEnding :
    interfaceEnding.reverse = ['d', 'm', '.', 'f', 'e', 'r', '.'] := by decide

theorem build_ne_interface (stem stem' : Text) :
    stem ++ buildEnding ≠ stem' ++ interfaceEnding := by
  intro h
  have fourth := congrArg (fun name => name.reverse[3]?) h
  simp only [List.reverse_append, reverse_buildEnding, reverse_interfaceEnding] at fourth
  exact absurd fourth (by simp)

/-- The ending of an artifact of either kind. -/
def IsEnding (ending : Text) : Prop := ending = buildEnding ∨ ending = interfaceEnding

theorem IsEnding.reverse {ending : Text} (h : IsEnding ending) :
    '/' ∉ ending ∧ ∃ more, ending.reverse = 'd' :: 'm' :: '.' :: more := by
  rcases h with rfl | rfl
  · exact ⟨by decide, _, reverse_buildEnding⟩
  · exact ⟨by decide, _, reverse_interfaceEnding⟩

theorem manifest_ne_artifact (stem : Text) {ending : Text} (h : IsEnding ending) :
    Manifest.fileName ≠ stem ++ ending := by
  intro same
  obtain ⟨-, more, reversed⟩ := h.reverse
  have first := congrArg (fun name => name.reverse.head?) same
  have manifest : Manifest.fileName.reverse.head? = some 'n' := by decide
  simp only [manifest, List.reverse_append, reversed] at first
  exact absurd first (by simp)

theorem isPlain_artifact {stem suffix ending : Text} (h : IsPlain (stem ++ suffix))
    (he : IsEnding ending) : IsPlain (stem ++ ending) := by
  obtain ⟨clean, more, reversed⟩ := he.reverse
  have long : 3 ≤ (stem ++ ending).length := by
    have := congrArg List.length reversed
    rw [List.length_reverse] at this
    simp only [List.length_append, this, List.length_cons]
    omega
  refine ⟨?_, ?_, ?_, fun hs => ?_⟩
  · exact fun h => absurd (h ▸ long) (by decide)
  · exact fun h => absurd (h ▸ long) (by decide)
  · exact fun h => absurd (h ▸ long) (by decide)
  · rcases List.mem_append.1 hs with hs | hs
    · exact h.no_slash (List.mem_append_left _ hs)
    · exact clean hs

theorem isPlain_manifest : IsPlain Manifest.fileName := by decide

namespace Plan

open Project (base discover)

variable {t : Tree} {root d : Path} {config : Config} {plan : Plan}

/-- A document in a directory below the root, with its artifacts. -/
structure LiesAt (plan : Plan) (base : Location) (d : Path) (dir : Location) (stem : Text) :
    Prop where
  plain : Plain (base ++ dir ++ [stem ++ plan.config.suffix])
  path : d = ofLocation (base ++ dir ++ [stem ++ plan.config.suffix])
  relative : plan.relative d = joined (dir ++ [stem ++ plan.config.suffix])
  build : (plan.artifactPaths d).build =
    ofLocation (base ++ plan.config.outputNames ++ dir ++ [stem ++ buildEnding])
  interface : (plan.artifactPaths d).interface =
    ofLocation (base ++ plan.config.outputNames ++ dir ++ [stem ++ interfaceEnding])

theorem outputDir_eq (ht : t.WellFormed) (h : make t root config = .ok plan)
    (plain : config.PlainOutput) :
    plan.outputDir = ofLocation (base t root ++ config.outputNames) := by
  obtain ⟨hr, rfl, -⟩ := make_eq_ok h
  rw [outputDir, root_eq_ofLocation ht h, ← plan.config.joined_outputNames]
  exact Path.join_joined (Project.rooted_absolute t hr).plain plain plan.config.outputNames_ne_nil

theorem exists_stem {suffix name : Text} (h : Text.endsWith suffix name = true) :
    ∃ stem, name = stem ++ suffix ∧ (Text.before? suffix name).getD name = stem := by
  obtain ⟨stem, rfl⟩ := List.isSuffixOf_iff_suffix.1 h
  rw [Text.endsWith] at h
  exact ⟨stem, rfl, by simp [Text.before?, h]⟩

theorem exists_liesAt (ht : t.WellFormed) (h : make t root config = .ok plan)
    (plainOutput : config.PlainOutput) (hd : d ∈ plan.order) :
    ∃ dir stem, plan.LiesAt (base t root) d dir stem := by
  obtain ⟨rel, rfl, hne, plain, document⟩ := document_location ht h hd
  have output := outputDir_eq ht h plainOutput
  obtain ⟨-, rfl, -⟩ := make_eq_ok h
  obtain ⟨dir, name, rfl⟩ := List.eq_nil_or_concat' rel |>.resolve_left hne
  rw [Config.isDocument_append _ _ hne] at document
  have ends : Text.endsWith plan.config.suffix name = true := by
    rw [Project.isDocument, List.getLast?_concat] at document
    exact (Bool.and_eq_true_iff.1 document).1
  obtain ⟨stem, spelled, cut⟩ := exists_stem ends
  have isPlain : IsPlain (stem ++ plan.config.suffix) :=
    spelled ▸ plain.right.right name (List.mem_singleton_self _)
  have relative := relative_graph ht h plain hne
  have place : ∀ ending, IsEnding ending →
      (plan.artifactDir (ofLocation (base t root ++ (dir ++ [name])))).join (stem ++ ending) =
        ofLocation (base t root ++ plan.config.outputNames ++ dir ++ [stem ++ ending]) := by
    intro ending he
    rw [artifactDir, relative, Path.parent?_joined plain.right]
    simp only [output]
    exact Path.join_join_joined (plain.left.append plainOutput)
      (by simp [plan.config.outputNames_ne_nil]) plain.right.left (isPlain_artifact isPlain he)
  have hstem : plan.stem (ofLocation (base t root ++ (dir ++ [name]))) = stem := by
    simp [Plan.stem, relative, plain.right, cut]
  refine ⟨dir, stem, ?_⟩
  exact {
    plain := by rwa [← spelled, List.append_assoc]
    path := by rw [← spelled, List.append_assoc]
    relative := by
      rw [← spelled]
      exact relative_ofLocation ht h plain hne
    build := by
      rw [artifactPaths, hstem]
      exact place _ (Or.inl rfl)
    interface := by
      rw [artifactPaths, hstem]
      exact place _ (Or.inr rfl) }

/-- The locations of both artifacts of a document. -/
def artifacts (plan : Plan) (d : Path) : List Location :=
  [(plan.artifactPaths d).interface.location, (plan.artifactPaths d).build.location]

namespace LiesAt

variable {e : Path} {base dir dir' : Location} {stem stem' : Text}

theorem plain_artifact (h : plan.LiesAt base d dir stem) (output : plan.config.PlainOutput)
    {ending : Text} (he : IsEnding ending) :
    Plain (base ++ plan.config.outputNames ++ dir ++ [stem ++ ending]) :=
  ((h.plain.left.left.append output).append h.plain.left.right).append
    (Path.plain_singleton
      (isPlain_artifact (h.plain.right _ (List.mem_singleton_self _)) he))

theorem mem_artifacts (h : plan.LiesAt base d dir stem) (output : plan.config.PlainOutput)
    {l : Location} (hl : l ∈ plan.artifacts d) : ∃ ending, IsEnding ending ∧
      l = base ++ plan.config.outputNames ++ dir ++ [stem ++ ending] := by
  rw [artifacts, h.build, h.interface,
    Path.location_ofLocation (h.plain_artifact output (Or.inl rfl)),
    Path.location_ofLocation (h.plain_artifact output (Or.inr rfl)), List.mem_pair] at hl
  rcases hl with rfl | rfl
  · exact ⟨_, Or.inr rfl, rfl⟩
  · exact ⟨_, Or.inl rfl, rfl⟩

/-- Only one document has its artifacts at a place. -/
theorem eq_of_mem_artifacts (h : plan.LiesAt base d dir stem) (h' : plan.LiesAt base e dir' stem')
    (output : plan.config.PlainOutput) {l : Location} (hl : l ∈ plan.artifacts d)
    (hl' : l ∈ plan.artifacts e) : d = e := by
  obtain ⟨ending, he, rfl⟩ := h.mem_artifacts output hl
  obtain ⟨ending', he', same⟩ := h'.mem_artifacts output hl'
  obtain ⟨rfl, names⟩ := concat_inj _ same
  have : stem = stem' := by
    rcases he with rfl | rfl <;> rcases he' with rfl | rfl
    · exact List.append_cancel_right names
    · exact absurd names (build_ne_interface _ _)
    · exact absurd names.symm (build_ne_interface _ _)
    · exact List.append_cancel_right names
  rw [h.path, h'.path, this]

end LiesAt

theorem manifestPath_eq (ht : t.WellFormed) (h : make t root config = .ok plan)
    (output : config.PlainOutput) :
    Plain (base t root ++ config.outputNames ++ [Manifest.fileName]) ∧
      plan.manifestPath =
        ofLocation (base t root ++ config.outputNames ++ [Manifest.fileName]) := by
  have plain : Plain (base t root ++ config.outputNames) :=
    (Project.rooted_absolute t (make_eq_ok h).1).plain.append output
  have name := Path.plain_singleton isPlain_manifest
  refine ⟨plain.append name, ?_⟩
  have joined := Path.join_joined plain name (List.cons_ne_nil _ _)
  rw [manifestPath, outputDir_eq ht h output, ← joined]
  simp [Path.joined]

/-- Where a build writes. -/
def written (plan : Plan) : List Location :=
  plan.manifestPath.location :: plan.order.flatMap plan.artifacts

/-- Without a backslash in the output, no place that a build writes to is taken for a document's. -/
theorem isDocument_written (ht : t.WellFormed) (h : make t root config = .ok plan)
    (output : config.PlainOutput) (clear : '\\' ∉ config.output) :
    ∀ l ∈ plan.written, Project.isDocument config (base t root) l = false := by
  obtain ⟨plain, place⟩ := manifestPath_eq ht h output
  obtain ⟨-, config_eq, -⟩ := make_eq_ok h
  intro l hl
  rcases List.mem_cons.1 hl with rfl | hl
  · rw [place, Path.location_ofLocation plain]
    exact Config.isDocument_below_output output clear (List.cons_ne_nil _ _) _
  · obtain ⟨d, hd, hl⟩ := List.mem_flatMap.1 hl
    obtain ⟨dir, stem, lies⟩ := exists_liesAt ht h output hd
    obtain ⟨ending, -, rfl⟩ := lies.mem_artifacts (config_eq ▸ output) hl
    rw [config_eq, List.append_assoc]
    exact Config.isDocument_below_output output clear (by simp) _

/-- So, whatever else the tree holds, no document is where a build writes. -/
theorem spares_documents (ht : t.WellFormed) (h : make t root config = .ok plan)
    (output : config.PlainOutput) (clear : '\\' ∉ config.output) {t' : Tree} (ht' : t'.WellFormed)
    (same : base t' root = base t root) :
    ∀ d ∈ discover t' root config, d.location ∉ plan.written := by
  intro d hd inside
  obtain ⟨-, rel, rfl, -, document, content, held⟩ := (Project.mem_discover ht').1 hd
  rw [Path.location_ofLocation (ht'.plain_of_content? held), same] at inside
  rw [same, isDocument_written ht h output clear _ inside] at document
  cases document

/-- The artifacts and the manifest are all at different places. -/
structure Placed (plan : Plan) : Prop where
  interface : ∀ d ∈ plan.order, (plan.artifactPaths d).interface.Rooted
  build : ∀ d ∈ plan.order, (plan.artifactPaths d).build.Rooted
  manifest : plan.manifestPath.Rooted
  pair : ∀ d ∈ plan.order,
    (plan.artifactPaths d).interface.location ≠ (plan.artifactPaths d).build.location
  apart : ∀ d ∈ plan.order, ∀ e ∈ plan.order, d ≠ e → (plan.artifacts d).Disjoint (plan.artifacts e)
  artifact_ne_manifest : ∀ d ∈ plan.order, plan.manifestPath.location ∉ plan.artifacts d

theorem placed (ht : t.WellFormed) (h : make t root config = .ok plan)
    (output : config.PlainOutput) : plan.Placed := by
  have lies := fun d (hd : d ∈ plan.order) => exists_liesAt ht h output hd
  obtain ⟨plain, place⟩ := manifestPath_eq ht h output
  obtain ⟨-, config_eq, -⟩ := make_eq_ok h
  rw [← config_eq] at output
  refine {
    interface := fun d hd => ?_
    build := fun d hd => ?_
    manifest := ⟨_, plain, place⟩
    pair := fun d hd same => ?_
    apart := fun d hd e he other l hl hl' => other ?_
    artifact_ne_manifest := fun d hd inside => ?_ }
  · obtain ⟨dir, stem, lie⟩ := lies d hd
    exact ⟨_, lie.plain_artifact output (Or.inr rfl), lie.interface⟩
  · obtain ⟨dir, stem, lie⟩ := lies d hd
    exact ⟨_, lie.plain_artifact output (Or.inl rfl), lie.build⟩
  · obtain ⟨dir, stem, lie⟩ := lies d hd
    rw [lie.interface, lie.build, Path.location_ofLocation (lie.plain_artifact output (Or.inl rfl)),
      Path.location_ofLocation (lie.plain_artifact output (Or.inr rfl))] at same
    exact build_ne_interface _ _ (concat_inj _ same).2.symm
  · obtain ⟨dir, stem, lie⟩ := lies d hd
    obtain ⟨dir', stem', lie'⟩ := lies e he
    exact lie.eq_of_mem_artifacts lie' output hl hl'
  · obtain ⟨dir, stem, lie⟩ := lies d hd
    obtain ⟨ending, he, same⟩ := lie.mem_artifacts output inside
    rw [place, Path.location_ofLocation plain] at same
    have last := congrArg List.getLast? same
    rw [List.getLast?_concat, List.getLast?_concat] at last
    exact manifest_ne_artifact stem he (Option.some.inj last)

/-- The paths that a manifest gives for artifacts lead to them from the root. -/
theorem join_relative_artifactPaths (ht : t.WellFormed) (h : make t root config = .ok plan)
    (output : config.PlainOutput) (hd : d ∈ plan.order) :
    plan.graph.root.join (plan.relative (plan.artifactPaths d).build) =
        (plan.artifactPaths d).build ∧
      plan.graph.root.join (plan.relative (plan.artifactPaths d).interface) =
        (plan.artifactPaths d).interface := by
  obtain ⟨dir, stem, lie⟩ := exists_liesAt ht h output hd
  obtain ⟨-, config_eq, -⟩ := make_eq_ok h
  rw [← config_eq] at output
  have back : ∀ ending, IsEnding ending →
      plan.graph.root.join (plan.relative (ofLocation
          (base t root ++ plan.config.outputNames ++ dir ++ [stem ++ ending]))) =
        ofLocation (base t root ++ plan.config.outputNames ++ dir ++ [stem ++ ending]) := by
    intro ending he
    have plain := lie.plain_artifact output he
    simp only [List.append_assoc] at plain ⊢
    exact join_relative ht h plain (by simp)
  rw [lie.build, lie.interface]
  exact ⟨back _ (Or.inl rfl), back _ (Or.inr rfl)⟩

/-- Documents, artifacts and the manifest are all at different places, each document has a source
of its own, and what it refers to comes before it. -/
structure Laid (plan : Plan) (t : Tree) : Prop where
  nodup : plan.order.Nodup
  document : ∀ d ∈ plan.order, d.Rooted
  interface : ∀ d ∈ plan.order, (plan.artifactPaths d).interface.Rooted
  build : ∀ d ∈ plan.order, (plan.artifactPaths d).build.Rooted
  manifest : plan.manifestPath.Rooted
  pair : ∀ d ∈ plan.order,
    (plan.artifactPaths d).interface.location ≠ (plan.artifactPaths d).build.location
  apart : ∀ d ∈ plan.order, ∀ e ∈ plan.order, d ≠ e → (plan.artifacts d).Disjoint (plan.artifacts e)
  artifact_ne_manifest : ∀ d ∈ plan.order, plan.manifestPath.location ∉ plan.artifacts d
  not_written : ∀ d ∈ plan.order, d.location ∉ plan.written
  source : ∀ d ∈ plan.order, ∀ e ∈ plan.order, plan.relative d = plan.relative e → d = e
  before : ∀ before d after, plan.order = before ++ d :: after →
    ∀ p ∈ Project.referencesOf t d, plan.graph.contains p = true → p ∈ before

theorem laid (ht : t.WellFormed) (h : make t root config = .ok plan) (output : config.PlainOutput)
    (spared : ∀ d ∈ discover t root config, d.location ∉ plan.written) : plan.Laid t where
  __ := ordered ht h
  __ := placed ht h output
  not_written := fun d hd => spared d ((mem_order ht h).1 hd)

theorem Laid.ordered (laid : plan.Laid t) : plan.Ordered t where
  __ := laid

theorem Laid.placed (laid : plan.Laid t) : plan.Placed where
  __ := laid

theorem Laid.ne_of_split (laid : plan.Laid t) {done after : List Path} {p : Path}
    (split : plan.order = done ++ d :: after) (hp : p ∈ done) : p ≠ d :=
  laid.ordered.ne_of_split split hp

end Plan
end IslDocs
