import Sweep.Proofs.Files
import Sweep.Proofs.Latest
import Sweep.Proofs.Resemblance
/-!
# Layers that change nothing

Layers without keys, or without a file, change nothing, and one file alone is loaded as a layer as
it is by itself. A file that is given twice in a row changes nothing the second time either, unless
a table in one of its lists has a header: then the layers with both copies cannot be read again once
they are merged (`neutral_layers`).
-/

namespace Sweep

namespace Toml

mutual

theorem Item.Doubles.resembles : {b : Bool} → {i i' : Item} → Item.Doubles b i i' → i.IsKeyed →
    i.Resembles i'
  | _, _, _, .value v, _ => .value v
  | _, _, _, .table _ _ h, hk => .table (h.resemble hk)
  | _, _, _, .tables _, hne => .tables hne hne
  | _, _, _, .twice later ts earlier _ _, hne => by
    refine .tables hne fun hnil => hne ?_
    simp only [List.append_eq_nil_iff] at hnil ⊢
    exact ⟨hnil.1, hnil.2.2⟩

theorem Entries.Double.resemble : {b : Bool} → {es es' : Entries} → Entries.Double b es es' →
    entriesKeyed es → Entries.Resemble es es'
  | _, _, _, .nil, _ => .intro fun _ => .none
  | _, _, _, .cons k hi h, ⟨_, hki, hk⟩ => .intro fun j => by
    simp only [lookup]
    split
    · exact .some (hi.resembles hki)
    · exact (h.resemble hk).lookup j

end

end Toml

namespace Settings

open Toml

variable {doc doc' later : Document} {file : Source} {before after files : List Source}

/-! ## Layers one by one -/

theorem mergeLayers_append (doc : Document) (files files' : List Source) :
    mergeLayers doc (files ++ files') =
      (mergeLayers doc files).bind fun doc => mergeLayers doc files' := by
  induction files generalizing doc with
  | nil => rfl
  | cons file files ih =>
    cases file with
    | missing => exact ih doc
    | directory => rfl
    | content bytes =>
      simp only [List.cons_append, mergeLayers]
      cases (Source.content bytes).text with
      | error e => rfl
      | ok t =>
        simp only
        cases Document.parse? t with
        | none => rfl
        | some later => exact ih _

/-- A layer is missing, or it is laid over the others, or loading ends with a fault of its own. -/
theorem layer_cases (file : Source) : file = .missing ∨
    (∃ later, file.document? = some later ∧
      ∀ doc files, mergeLayers doc (file :: files) = mergeLayers (doc.merge later) files) ∨
    (file.document? = none ∧ ∃ e, ∀ doc files, mergeLayers doc (file :: files) = .error e) := by
  cases file with
  | missing => exact .inl rfl
  | directory => exact .inr (.inr ⟨rfl, .directory, fun _ _ => rfl⟩)
  | content bytes =>
    refine .inr ?_
    simp only [Source.document?, mergeLayers, Source.text]
    cases Utf8.strict? bytes with
    | none => exact .inr ⟨rfl, .notText, fun _ _ => rfl⟩
    | some t =>
      simp only [Option.bind_some]
      cases Document.parse? t with
      | none => exact .inr ⟨rfl, .malformed, fun _ _ => rfl⟩
      | some later => exact .inl ⟨later, rfl, fun _ _ => rfl⟩

theorem isTidy_of_document? (h : file.document? = some doc) : doc.IsTidy := by
  cases file with
  | missing | directory => cases h
  | content bytes =>
    obtain ⟨t, -, hp⟩ := Option.bind_eq_some_iff.1 h
    exact Document.isTidy_of_parse? hp

theorem isWhole_mergeLayers (hw : doc.IsWhole) (h : mergeLayers doc files = .ok doc') :
    doc'.IsWhole := by
  induction files generalizing doc with
  | nil =>
    cases h
    exact hw
  | cons file files ih =>
    rcases layer_cases file with rfl | ⟨later, hd, hmerge⟩ | ⟨-, e, herror⟩
    · exact ih hw h
    · rw [hmerge] at h
      exact ih (hw.merge (isSound_of_document? hd).isWhole) h
    · rw [herror] at h
      cases h

/-! ## Layers without keys -/

theorem mergeLayers_neutral (h : file = .missing ∨ file.document? = some []) (doc : Document) :
    mergeLayers doc (file :: after) = mergeLayers doc after := by
  rcases layer_cases file with rfl | ⟨later, hd, hmerge⟩ | ⟨hnone, -⟩
  · rfl
  · rcases h with rfl | h
    · cases hd
    · obtain rfl := Option.some.inj (hd.symm.trans h)
      exact hmerge doc after
  · rcases h with rfl | h
    · rfl
    · rw [hnone] at h
      cases h

/-- A layer that is missing or has no keys changes nothing. -/
theorem loadLayers_neutral (h : file = .missing ∨ file.document? = some [])
    (before after : List Source) :
    loadLayers (before ++ file :: after) = loadLayers (before ++ after) := by
  simp only [loadLayers, mergeLayers_append, mergeLayers_neutral h]

/-! ## One layer -/

/-- The settings of a document that is written down and read again are those of the document, if it
comes back. -/
theorem fromDocument_reread (hw : doc.IsWhole) : fromDocument doc.reread? =
    if doc.reread?.isSome then fromDocument (some doc) else .error .unfit := by
  cases h : doc.reread? with
  | none => rfl
  | some doc' =>
    simp only [fromDocument, Option.bind_some, ofDocument?_congr (hw.resemble_reread h),
      Option.isSome_some, if_true]

/-- One layer is loaded as a file of its own. -/
theorem loadLayers_singleton (h : file ≠ .missing) (s : Settings) :
    loadLayers [file] = .ok s ↔ load file = .ok s := by
  rw [load_eq_ok_iff]
  rcases layer_cases file with rfl | ⟨doc, hd, hmerge⟩ | ⟨hnone, e, herror⟩
  · exact absurd rfl h
  · have hsound := isSound_of_document? hd
    have hmerged : Document.merge [] doc = doc :=
      overEntries_nil (entriesKeyed_iff.1 hsound.isKeyed).1
    obtain ⟨doc', hread, -⟩ := Document.exists_reread? hsound fun _ =>
      (isTidy_of_document? hd).hasKeys_of_mem_statements
    have hsame := ofDocument?_congr (hsound.isWhole.resemble_reread hread)
    simp only [loadLayers, hmerge, hmerged, mergeLayers, hread, fromDocument, Option.bind_some,
      ← hsame, hd, Option.some.injEq, exists_eq_left']
    cases ofDocument? doc <;> simp
  · simp [loadLayers, herror, hnone]

/-! ## Layers that are given twice -/

/-- Layers over a document and over its double end with the same fault, or in a document and its
double. -/
theorem mergeLayers_double {b : Bool} (h : Entries.DoubleIf b doc doc') (files : List Source) :
    (∃ e, mergeLayers doc files = .error e ∧ mergeLayers doc' files = .error e) ∨
    ∃ d d', mergeLayers doc files = .ok d ∧ mergeLayers doc' files = .ok d' ∧
      Entries.DoubleIf b d d' := by
  induction files generalizing doc doc' with
  | nil => exact .inr ⟨doc, doc', rfl, rfl, h⟩
  | cons file files ih =>
    rcases layer_cases file with rfl | ⟨later, -, hmerge⟩ | ⟨-, e, herror⟩
    · exact ih h
    · rw [hmerge, hmerge]
      exact ih (.over later h)
    · exact .inl ⟨e, herror doc files, herror doc' files⟩

/-- A document and its double give the same settings unless a table in the lists that are doubled
has a header. -/
theorem fromDocument_double {b : Bool} (hw : doc.IsWhole) (hw' : doc'.IsWhole)
    (h : Entries.Double b doc doc') : fromDocument doc'.reread? =
      if b then fromDocument doc.reread? else .error .unfit := by
  have hiff := Document.isSome_reread_double h
  have hsame : fromDocument (some doc') = fromDocument (some doc) := by
    simp only [fromDocument, Option.bind_some, ofDocument?_congr (h.resemble hw.isKeyed)]
  rw [fromDocument_reread hw', fromDocument_reread hw, hsame]
  cases b <;> simp [hiff]

/-- A layer that is laid over others a second time doubles the tables in its lists. -/
theorem double_layers (hbefore : mergeLayers [] before = .ok doc)
    (hd : file.document? = some later) : (doc.merge later).IsWhole ∧
      ((doc.merge later).merge later).IsWhole ∧
      Entries.Double later.listsFlat (doc.merge later) ((doc.merge later).merge later) := by
  have hsound := isSound_of_document? hd
  have hw := isWhole_mergeLayers Document.isWhole_nil hbefore
  have hmerge := hw.merge hsound.isWhole
  exact ⟨hmerge, hmerge.merge hsound.isWhole,
    Document.double_merge hw.isKeyed hsound.isKeyed (isTidy_of_document? hd)⟩

/-- A file that is given again changes nothing, or a table in its lists has a header and the layers
cannot be loaded. -/
theorem loadLayers_twice (before : List Source) (file : Source) (after : List Source) :
    loadLayers (before ++ file :: file :: after) = loadLayers (before ++ file :: after) ∨
    (loadLayers (before ++ file :: file :: after) = .error .unfit ∧
      ∃ doc ∈ file.document?, doc.listsFlat = false) := by
  simp only [loadLayers, mergeLayers_append]
  cases hbefore : mergeLayers [] before with
  | error e => exact .inl rfl
  | ok doc =>
    rcases layer_cases file with rfl | ⟨later, hd, hmerge⟩ | ⟨-, e, herror⟩
    · exact .inl rfl
    · simp only [Except.bind, hmerge]
      obtain ⟨hw, hw', hdouble⟩ := double_layers hbefore hd
      rcases mergeLayers_double ⟨_, id, hdouble⟩ after with
        ⟨e, he, he'⟩ | ⟨d, d', hok, hok', flat, hflat, h⟩
      · rw [he, he']
        exact .inl rfl
      · rw [hok, hok']
        simp only [fromDocument_double (isWhole_mergeLayers hw hok)
          (isWhole_mergeLayers hw' hok') h]
        cases flat with
        | true => exact .inl rfl
        | false =>
          exact .inr ⟨rfl, later, hd, Bool.eq_false_iff.2 fun ht => by simpa using hflat ht⟩
    · exact .inl (by simp only [Except.bind, herror])

/-- A file with a header in a table of its lists cannot be the last layer and the one before it. -/
theorem not_loadLayers_twice (h : ∃ doc ∈ file.document?, doc.listsFlat = false)
    (before : List Source) (s : Settings) : loadLayers (before ++ [file, file]) ≠ .ok s := by
  obtain ⟨later, hd, hflat⟩ := h
  simp only [loadLayers, mergeLayers_append]
  cases hbefore : mergeLayers [] before with
  | error e => simp [Except.bind]
  | ok doc =>
    rcases layer_cases file with rfl | ⟨_, hd', hmerge⟩ | ⟨hnone, -⟩
    · cases hd
    · obtain rfl := Option.some.inj (hd'.symm.trans hd)
      obtain ⟨hw, hw', hdouble⟩ := double_layers hbefore hd
      rw [hflat] at hdouble
      simp [Except.bind, hmerge, mergeLayers, fromDocument_double hw hw' hdouble]
    · rw [hnone] at hd
      cases hd

/-- A layer without a file or without keys changes nothing, and one file is loaded as a layer as it
is by itself. A file that is given twice in a row changes nothing the second time, or else a table
in one of its lists has a header; then the layers may be unfit, and are if no others follow. -/
theorem neutral_layers (before : List Source) (file : Source) (after : List Source) :
    (file = .missing ∨ file.document? = some [] →
      loadLayers (before ++ file :: after) = loadLayers (before ++ after)) ∧
    (loadLayers (before ++ file :: file :: after) = loadLayers (before ++ file :: after) ∨
      (loadLayers (before ++ file :: file :: after) = .error .unfit ∧
        ∃ doc ∈ file.document?, doc.listsFlat = false)) ∧
    ((∃ doc ∈ file.document?, doc.listsFlat = false) →
      ∀ s, loadLayers (before ++ [file, file]) ≠ .ok s) ∧
    (file ≠ .missing → ∀ s, loadLayers [file] = .ok s ↔ load file = .ok s) :=
  ⟨fun h => loadLayers_neutral h before after, loadLayers_twice before file after,
    fun h => not_loadLayers_twice h before, loadLayers_singleton⟩

/-- A list of one table, with a table in it. -/
def withList : Source := .ofString "[[a]]\n[a.b]\n"

/-- A list of one table with a table in it that keys with dots made, after a group. -/
def withFlatList : Source := .ofString "[cache]\nlifetime = 9\n[[a]]\nb.c = 1\n"

/-- A file without keys. -/
def withComment : Source := .ofString "# none\n"

/-- The list may be given twice in a row, one with a header in its table may not. -/
theorem flat_list_given_twice :
    loadLayers [withFlatList, withComment, withFlatList] = .ok { lifetime := ⟨9000000000⟩ } ∧
    ∀ s, loadLayers [withList, withList] ≠ .ok s := by
  have hload : load withFlatList = .ok { lifetime := ⟨9000000000⟩ } := by decide +kernel
  have hcomment : withComment.document? = some [] := by rfl
  have hflat : ∀ doc ∈ withFlatList.document?, doc.listsFlat = true := by decide +kernel
  have hheader : ∃ doc ∈ withList.document?, doc.listsFlat = false := by decide +kernel
  have hneutral := (neutral_layers [withFlatList] withComment [withFlatList]).1 (.inr hcomment)
  obtain ⟨-, htwice, -, hone⟩ := neutral_layers [] withFlatList []
  have htwice := htwice.resolve_right fun ⟨_, doc, hd, hf⟩ => by simp [hflat doc hd] at hf
  refine ⟨?_, (neutral_layers [] withList []).2.2.1 hheader⟩
  exact hneutral.trans (htwice.trans ((hone (by decide) _).2 hload))

/-- A list with a header in its table is loaded once and not twice. -/
theorem list_given_twice_unfit : load withList = .ok {} ∧ loadLayers [withList] = .ok {} ∧
    loadLayers [withList, withList] = .error .unfit := by
  have hload : load withList = .ok {} := by decide +kernel
  have hone : loadLayers [withList] = .ok {} := (loadLayers_singleton (by decide) _).2 hload
  have hheader : ∃ doc ∈ withList.document?, doc.listsFlat = false := by decide +kernel
  refine ⟨hload, hone, ?_⟩
  rcases loadLayers_twice [] withList [] with hsame | ⟨hunfit, -⟩
  · exact absurd (hsame.trans hone) (not_loadLayers_twice hheader [] {})
  · exact hunfit

end Settings

end Sweep
