import Sweep.Proofs.Layers
import Sweep.Settings.Load
/-!
# Settings from layers of files

Each setting has the value of the last file that sets it, as long as that file and all later ones
give its group with headers or with keys with dots, or no later one gives the group at all
(`last_layer_decides`). A table between braces takes the place of the whole group, and lists of
tables that two files have at the same path may keep the layers from being loaded.
-/

namespace Sweep

open Toml

namespace Settings

variable {doc : Document} {f : Setting}

/-! ## Files -/

/-- The document in a file, if there is one. -/
def Source.document? : Source → Option Document
  | .content bytes => (Utf8.strict? bytes).bind Document.parse?
  | _ => none

/-- Whether a file sets a setting. -/
def Sets (f : Setting) (file : Source) : Prop := ∃ doc ∈ file.document?, f.given doc ≠ none

/-- Whether the group of a setting in a file lasts until after later files. -/
def LastsIn (f : Setting) (file : Source) (after : List Source) : Prop :=
  (∀ later ∈ after, ∀ doc ∈ later.document?, lookup f.group doc = none) ∨
    ∀ later ∈ file :: after, ∀ doc ∈ later.document?, IsOpen f doc

instance (f : Setting) (file : Source) : Decidable (Sets f file) :=
  inferInstanceAs (Decidable (∃ doc ∈ file.document?, f.given doc ≠ none))

instance (f : Setting) (file : Source) (after : List Source) : Decidable (LastsIn f file after) :=
  inferInstanceAs (Decidable (_ ∨ _))

/-- The documents of some files laid over each other. -/
def merged (files : List Source) : Document :=
  (files.filterMap Source.document?).foldl Document.merge []

/-- Files that load, those that there are, and give groups as tables. -/
structure AreLayers (files : List Source) : Prop where
  load : ∀ file ∈ files, file = .missing ∨ ∃ s, load file = .ok s
  tables : ∀ file ∈ files, ∀ doc ∈ file.document?, GivesTables doc

/-- Files of which no two have a list of tables at the same path, and that are written, merged,
without a path that is too long. -/
structure AreApart (files : List Source) : Prop where
  lists : files.Pairwise fun file later =>
    ∀ doc ∈ file.document?, ∀ d ∈ later.document?, doc.ListsApart d
  paths : ∀ x ∈ (merged files).statements, x.HasKeys depthLimit

theorem load_eq_ok_iff {file : Source} {s : Settings} :
    load file = .ok s ↔ ∃ doc, file.document? = some doc ∧ ofDocument? doc = some s := by
  cases file with
  | missing | directory => simp [load, Source.text, Source.document?]
  | content bytes =>
    simp only [load, Source.text, Source.document?]
    cases Utf8.strict? bytes with
    | none => simp
    | some t =>
      simp only [fromDocument, Option.bind_some]
      cases Document.parse? t with
      | none => simp
      | some doc =>
        simp only [Option.bind_some, Option.some.injEq, exists_eq_left']
        cases ofDocument? doc <;> simp

theorem mergeLayers_eq_ok {files : List Source}
    (h : ∀ file ∈ files, file = .missing ∨ ∃ s, load file = .ok s) (doc : Document) :
    mergeLayers doc files = .ok ((files.filterMap Source.document?).foldl Document.merge doc) := by
  induction files generalizing doc with
  | nil => rfl
  | cons file files ih =>
    rw [List.forall_mem_cons] at h
    rcases h.1 with rfl | ⟨s, hs⟩
    · exact ih h.2 doc
    · obtain ⟨d, hd, -⟩ := load_eq_ok_iff.1 hs
      cases file with
      | missing | directory => cases hd
      | content bytes =>
        rw [List.filterMap_cons_some hd, List.foldl_cons, ← ih h.2]
        obtain ⟨t, ht, hp⟩ := Option.bind_eq_some_iff.1 hd
        simp only [mergeLayers, Source.text, ht, hp]

theorem isSound_of_document? {file : Source} (h : file.document? = some doc) : doc.IsSound := by
  cases file with
  | missing | directory => cases h
  | content bytes =>
    obtain ⟨t, -, hp⟩ := Option.bind_eq_some_iff.1 h
    exact Document.isSound_of_parse? hp

/-- The merged document of files that have no list in common is sound, and no deeper than theirs. -/
theorem isSound_merged {files : List Source} (h : files.Pairwise fun file later =>
    ∀ doc ∈ file.document?, ∀ d ∈ later.document?, doc.ListsApart d) :
    (merged files).IsSound ∧ ∀ n, (∀ file ∈ files, ∀ doc ∈ file.document?, doc.depth ≤ n) →
      (merged files).depth ≤ n := by
  have hsound : ∀ d ∈ files.filterMap Source.document?, d.IsSound := fun d hd => by
    obtain ⟨file, -, hd⟩ := List.mem_filterMap.1 hd
    exact isSound_of_document? hd
  have hapart : ([] :: files.filterMap Source.document?).Pairwise Document.ListsApart := by
    refine List.pairwise_cons.2 ⟨fun _ _ _ _ => List.not_mem_nil, ?_⟩
    exact h.filterMap _ fun _ _ h d hd d' hd' => h d hd d' hd'
  have hnil : Document.IsSound [] := trivial
  obtain ⟨hmerged, hdepth⟩ := Document.isSound_foldl_merge hnil hsound hapart
  refine ⟨hmerged, fun n hn => hdepth n ?_⟩
  rw [List.forall_mem_cons]
  refine ⟨Nat.zero_le n, fun d hd => ?_⟩
  obtain ⟨file, hf, hd⟩ := List.mem_filterMap.1 hd
  exact hn file hf d hd

/-- Files in which nothing lies deeper than a path may be long are written with short paths. -/
theorem areApart_of_depth_le {files : List Source} (h : files.Pairwise fun file later =>
      ∀ doc ∈ file.document?, ∀ d ∈ later.document?, doc.ListsApart d)
    (hdepth : ∀ file ∈ files, ∀ doc ∈ file.document?, doc.depth ≤ depthLimit) : AreApart files :=
  ⟨h, fun _ hx => (Document.hasKeys_of_mem_statements hx).mono ((isSound_merged h).2 _ hdepth)⟩

namespace AreLayers

variable {files : List Source}

theorem isLayer (h : AreLayers files) {d : Document}
    (hd : d ∈ files.filterMap Source.document?) : IsLayer d := by
  obtain ⟨file, hf, hd⟩ := List.mem_filterMap.1 hd
  obtain ⟨s, hs⟩ := (h.load file hf).resolve_left (by
    rintro rfl
    cases hd)
  obtain ⟨d', hd', hs⟩ := load_eq_ok_iff.1 hs
  obtain rfl := Option.some.inj (hd'.symm.trans hd)
  exact isLayer_of_ofDocument? (isSound_of_document? hd).isKeyed (h.tables file hf d' hd) hs

theorem loadLayers_eq (h : AreLayers files) :
    loadLayers files = fromDocument (merged files).reread? := by
  rw [loadLayers, mergeLayers_eq_ok h.load]
  rfl

theorem isLayer_merged (h : AreLayers files) : IsLayer (merged files) :=
  isLayer_foldl_merge isLayer_nil fun _ => h.isLayer

/-- Layers are loaded if the merged document can be read again when it is written down. Each setting
is as the merged document gives it. -/
theorem loadLayers_eq_ok_iff (h : AreLayers files) {s : Settings} : loadLayers files = .ok s ↔
    (∃ doc, (merged files).reread? = some doc) ∧
      ∀ f : Setting, f.Reads (f.given (merged files)) s := by
  rw [h.loadLayers_eq, fromDocument]
  cases hread : (merged files).reread? with
  | none => simp
  | some doc =>
    obtain ⟨htables, hgiven⟩ := given_of_isReread h.isLayer_merged (Document.isReread hread)
    have hof : ofDocument? doc = some s ↔ ∀ f : Setting, f.Reads (f.given (merged files)) s := by
      simp only [ofDocument?_eq_some_iff htables, hgiven]
    rw [← hof, Option.bind_some]
    cases ofDocument? doc <;> simp

/-- If layers are loaded, each setting is as the merged document gives it. -/
theorem reads (h : AreLayers files) {s : Settings} (hs : loadLayers files = .ok s) (f : Setting) :
    f.Reads (f.given (merged files)) s :=
  (h.loadLayers_eq_ok_iff.1 hs).2 f

/-- What comes back of the merged document always gives settings. -/
theorem exists_loadLayers_iff (h : AreLayers files) :
    (∃ s, loadLayers files = .ok s) ↔ ∃ doc, (merged files).reread? = some doc := by
  constructor
  · rintro ⟨s, hs⟩
    exact (h.loadLayers_eq_ok_iff.1 hs).1
  · intro hread
    obtain ⟨s, hs⟩ := Setting.exists_reads h.isLayer_merged.reads
    exact ⟨s, h.loadLayers_eq_ok_iff.2 ⟨hread, hs⟩⟩

/-- Layers that do not get in each other's way are loaded. -/
theorem exists_loadLayers (h : AreLayers files) (ha : AreApart files) :
    ∃ s, loadLayers files = .ok s := by
  obtain ⟨doc, hread, -⟩ := Document.exists_reread? (isSound_merged ha.lists).1 ha.paths
  exact h.exists_loadLayers_iff.2 ⟨doc, hread⟩

end AreLayers

theorem given_eq_none_of_not_sets {files : List Source} (h : ∀ file ∈ files, ¬Sets f file) :
    ∀ d ∈ files.filterMap Source.document?, f.given d = none := by
  intro d hd
  obtain ⟨file, hf, hd⟩ := List.mem_filterMap.1 hd
  exact Decidable.byContradiction fun hne => h file hf ⟨d, hd, hne⟩

theorem lastsIn_iff {file : Source} {after : List Source} (hd : file.document? = some doc) :
    LastsIn f file after ↔ Lasts f doc (after.filterMap Source.document?) := by
  simp only [LastsIn, Lasts, List.forall_mem_cons, List.mem_filterMap, hd, Option.mem_some,
    forall_eq', forall_exists_index, and_imp]
  constructor
  · rintro (h | ⟨h, h'⟩)
    · exact .inl fun d file hf hd => h file hf d hd
    · exact .inr ⟨h, fun d file hf hd => h' file hf d hd⟩
  · rintro (h | ⟨h, h'⟩)
    · exact .inl fun file hf d hd => h d file hf hd
    · exact .inr ⟨h, fun file hf d hd => h' d file hf hd⟩

/-- What the merged document gives for a setting that a file sets and no later one. -/
theorem given_merged {before after : List Source} {file : Source}
    (hlayers : ∀ d ∈ (before ++ file :: after).filterMap Source.document?, IsLayer d)
    (hd : file.document? = some doc) (hset : Sets f file)
    (hafter : ∀ later ∈ after, ¬Sets f later) :
    (LastsIn f file after → f.given (merged (before ++ file :: after)) = f.given doc) ∧
    (¬LastsIn f file after → f.given (merged (before ++ file :: after)) = none) := by
  have hdocs : (before ++ file :: after).filterMap Source.document? =
      before.filterMap Source.document? ++ doc :: after.filterMap Source.document? := by
    rw [List.filterMap_append, List.filterMap_cons_some hd]
  rw [hdocs, List.forall_mem_append, List.forall_mem_cons] at hlayers
  obtain ⟨d, hd', hne⟩ := hset
  obtain rfl := Option.some.inj (hd.symm.trans hd')
  rw [merged, hdocs, lastsIn_iff hd]
  exact given_layers hlayers.2.1 hlayers.2.2 hne (given_eq_none_of_not_sets hafter)

/-- If layers are loaded, each setting is that of the last file that sets it if its group lasts, and
has its default else. They are loaded exactly if the merged document, written down, can be read
again; it can unless two files have a list of tables at the same path or a path is too long. -/
theorem last_layer_decides {files : List Source} (h : AreLayers files) :
    (∀ s, loadLayers files = .ok s → ∀ f : Setting,
      ((∀ file ∈ files, ¬Sets f file) → f.Agree s {}) ∧
      ∀ before file after t, files = before ++ file :: after → load file = .ok t →
        Sets f file → (∀ later ∈ after, ¬Sets f later) →
          (LastsIn f file after → f.Agree s t) ∧ (¬LastsIn f file after → f.Agree s {})) ∧
    ((∃ s, loadLayers files = .ok s) ↔ ∃ doc, (merged files).reread? = some doc) ∧
    (AreApart files → ∃ s, loadLayers files = .ok s) := by
  refine ⟨fun s hs f => ?_, h.exists_loadLayers_iff, h.exists_loadLayers⟩
  have hr := h.reads hs f
  constructor
  · intro hnone
    rw [merged, given_layers_none (fun _ => h.isLayer) (given_eq_none_of_not_sets hnone)] at hr
    exact Setting.agree_of_reads hr f.reads_none
  · rintro before file after t rfl ht hset hafter
    obtain ⟨d, hd, hof⟩ := load_eq_ok_iff.1 ht
    have hdecides := given_merged (fun _ => h.isLayer) hd hset hafter
    have hmem : file ∈ before ++ file :: after := List.mem_append_right _ List.mem_cons_self
    have hown := (ofDocument?_eq_some_iff (h.tables file hmem d hd)).1 hof f
    constructor
    · intro hlasts
      rw [hdecides.1 hlasts] at hr
      exact Setting.agree_of_reads hr hown
    · intro hlasts
      rw [hdecides.2 hlasts] at hr
      exact Setting.agree_of_reads hr f.reads_none

/-- A file with some text. -/
def Source.ofString (t : String) : Source := .content (Text.bytes t.toList)

theorem loads_of_isOk {files : List Source}
    (h : ∀ file ∈ files, file = .missing ∨ (load file).isOk = true) :
    ∀ file ∈ files, file = .missing ∨ ∃ s, load file = .ok s := by
  intro file hf
  refine (h file hf).imp_right fun hok => ?_
  cases hl : load file with
  | error e =>
    rw [hl] at hok
    cases hok
  | ok s => exact ⟨s, rfl⟩

/-- A group with a header. -/
def withHeader : Source := .ofString "[scan]\nhard_drives = true\n"

/-- The same group by keys with dots. -/
def withDots : Source := .ofString "scan.include_paths = ['/b', '/b/']\n"

/-- The other group between braces. -/
def withBraces : Source := .ofString "cache = \x7b lifetime = 9 \x7d\n"

/-- Hard discs are those of the first file, include paths those of the third, each once, and the
lifetime is that of the last. -/
theorem mixed_files_loaded : AreLayers [withHeader, .missing, withDots, withBraces] ∧
    AreApart [withHeader, .missing, withDots, withBraces] ∧
    ∃ s, loadLayers [withHeader, .missing, withDots, withBraces] = .ok s ∧
      s.policy.hardDiscs = true ∧ s.policy.includes = [.ofText "/b".toList] ∧
      s.lifetime = ⟨9000000000⟩ := by
  have hlayers : AreLayers [withHeader, .missing, withDots, withBraces] :=
    ⟨loads_of_isOk (by decide +kernel), by decide +kernel⟩
  have hapart : AreApart [withHeader, .missing, withDots, withBraces] :=
    areApart_of_depth_le (by decide +kernel) (by decide +kernel)
  have hheader : load withHeader = .ok { policy := { hardDiscs := true } } := by decide +kernel
  have hdots : load withDots = .ok { policy := { includes := [.ofText "/b".toList] } } := by
    decide +kernel
  have hbraces : load withBraces = .ok { lifetime := ⟨9000000000⟩ } := by decide +kernel
  obtain ⟨hdecides, -, hloads⟩ := last_layer_decides hlayers
  obtain ⟨s, hs⟩ := hloads hapart
  have h := hdecides s hs
  refine ⟨hlayers, hapart, s, hs, ?_, ?_, ?_⟩
  · exact ((h .hardDiscs).2 [] _ _ _ rfl hheader (by decide +kernel) (by decide +kernel)).1
      (by decide +kernel)
  · exact ((h .includes).2 [_, _] _ _ _ rfl hdots (by decide +kernel) (by decide +kernel)).1
      (by decide +kernel)
  · exact ((h .lifetime).2 [_, _, _] _ _ _ rfl hbraces (by decide +kernel) (by decide +kernel)).1
      (by decide +kernel)

/-- The group of the first file again, between braces. -/
def overBraces : Source := .ofString "scan = \x7b network_drives = true \x7d\n"

/-- A later file that does not mention hard discs has them left out, as its group is between
braces. -/
theorem braces_drop_hard_discs : AreLayers [withHeader, overBraces] ∧
    ∃ s t, loadLayers [withHeader, overBraces] = .ok s ∧ load withHeader = .ok t ∧
      Sets .hardDiscs withHeader ∧ ¬Sets .hardDiscs overBraces ∧
      ¬Setting.hardDiscs.Agree s t := by
  have hlayers : AreLayers [withHeader, overBraces] :=
    ⟨loads_of_isOk (by decide +kernel), by decide +kernel⟩
  have hapart : AreApart [withHeader, overBraces] :=
    areApart_of_depth_le (by decide +kernel) (by decide +kernel)
  obtain ⟨s, hs⟩ := hlayers.exists_loadLayers hapart
  refine ⟨hlayers, s, { policy := { hardDiscs := true } }, hs, by decide +kernel, by decide +kernel,
    by decide +kernel, ?_⟩
  have hgiven : Setting.hardDiscs.given (merged [withHeader, overBraces]) = none :=
    Option.isNone_iff_eq_none.1 (by decide +kernel)
  have hhard := hlayers.reads hs .hardDiscs
  rw [hgiven] at hhard
  intro h
  have hfalse : false = s.policy.hardDiscs := Option.some.inj hhard
  have htrue : s.policy.hardDiscs = true := h
  rw [htrue] at hfalse
  cases hfalse

end Settings

end Sweep
