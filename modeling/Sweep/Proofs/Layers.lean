import Sweep.Proofs.Given
import Sweep.Proofs.Merging
import Sweep.Proofs.Reread
/-!
# Settings in merged documents

Documents are laid over each other group by group. Where both give a group with headers or with keys
with dots, the later one decides each setting that it sets (`given_merge_open`). In all other cases
the group of the later one takes the place of the earlier one, settings that it does not mention
included (`lookup_merge_cases`). So a setting is given by the last document that sets it, as long as
its group lasts (`given_layers`).
-/

namespace Sweep

open Toml

namespace Settings

variable {doc later : Document} {f : Setting}

/-! ## Documents that can be layers -/

/-- A document that gives settings in tables and can be laid over others. -/
structure IsLayer (doc : Document) : Prop where
  isKeyed : doc.IsKeyed
  tables : GivesTables doc
  reads : ∀ f : Setting, ∃ s, f.Reads (f.given doc) s

/-- A document that gives settings in tables can be a layer. -/
theorem isLayer_of_ofDocument? {s : Settings} (hk : doc.IsKeyed) (hg : GivesTables doc)
    (h : ofDocument? doc = some s) : IsLayer doc :=
  ⟨hk, hg, fun f => ⟨s, (ofDocument?_eq_some_iff hg).1 h f⟩⟩

theorem isKeyed_of_lookup {k : Key} {item : Item} (hk : doc.IsKeyed)
    (h : lookup k doc = some item) : item.IsKeyed :=
  (entriesKeyed_iff.1 hk).2 _ (mem_of_lookup h)

/-- In open groups, settings are values. -/
theorem IsLayer.values {o : Origin} {p : Option Nat} {es : Entries} {item : Item} (h : IsLayer doc)
    (hl : lookup f.group doc = some (.table o p es)) (hi : lookup f.name es = some item) :
    ∃ v, item = .value v := by
  obtain ⟨s, hr⟩ := h.reads f
  rw [given_table hl, hi, Option.map_some] at hr
  cases item with
  | value v => exact ⟨v, rfl⟩
  | table o p es => exact absurd hr (not_reads_table f _ _ s)
  | tables ts =>
    have hts := isKeyed_of_lookup (isKeyed_of_lookup h.isKeyed hl) hi
    exact absurd hr (not_reads_tables f hts s)

/-! ## Merged layers -/

/-- A group of merged documents is that of the earlier one if the later one gives none, the two laid
into each other if both are open, and that of the later one else. -/
theorem lookup_merge_cases (hk : later.IsKeyed) (ht : GivesTables later) (f : Setting) :
    (lookup f.group later = none ∧ lookup f.group (doc.merge later) = lookup f.group doc) ∨
    (∃ o p es o' p' olds, lookup f.group later = some (.table o p es) ∧
      lookup f.group doc = some (.table o' p' olds) ∧
      lookup f.group (doc.merge later) = some (.table o' p' (overEntries olds es))) ∨
    ∃ item, lookup f.group later = some item ∧
      (item.isOpen = false ∨ ∀ old ∈ lookup f.group doc, old.isOpen = false) ∧
      lookup f.group (doc.merge later) = some item := by
  rw [Document.lookup_merge hk]
  cases hl : lookup f.group later with
  | none => exact .inl ⟨rfl, rfl⟩
  | some item =>
    cases item with
    | value v => exact .inr (.inr ⟨_, rfl, .inl rfl, rfl⟩)
    | tables ts =>
      have := ht f _ hl
      rw [Item.isTable, Item.toValue] at this
      cases this
    | table o p es =>
      cases hold : lookup f.group doc with
      | none => exact .inr (.inr ⟨_, rfl, .inr (by simp), rfl⟩)
      | some old =>
        cases old with
        | table o' p' olds => exact .inr (.inl ⟨_, _, _, _, _, _, rfl, rfl, rfl⟩)
        | value _ | tables _ =>
          exact .inr (.inr ⟨_, rfl, .inr (by simp [Item.isOpen]), rfl⟩)

/-- What two open groups give for a setting when they are laid into each other. -/
theorem lookup_overEntries_values {es olds : Entries} (hk : entriesKeyed es)
    (hv : ∀ item, lookup f.name es = some item → ∃ v, item = .value v) :
    lookup f.name (overEntries olds es) = (lookup f.name es).or (lookup f.name olds) := by
  rw [lookup_overEntries (entriesKeyed_iff.1 hk).1]
  cases hl : lookup f.name es with
  | none => rfl
  | some item =>
    obtain ⟨v, rfl⟩ := hv item hl
    rfl

/-- Whether a document gives the group of a setting as an open table, if it gives it at all. -/
def IsOpen (f : Setting) (doc : Document) : Prop := ∀ item ∈ lookup f.group doc, item.isOpen = true

instance (f : Setting) (doc : Document) : Decidable (IsOpen f doc) :=
  inferInstanceAs (Decidable (∀ item ∈ lookup f.group doc, item.isOpen = true))

/-- Whether the group of a setting in a document is still there after later documents: none of them
gives the group, or all of them lay theirs into it. -/
def Lasts (f : Setting) (doc : Document) (after : List Document) : Prop :=
  (∀ later ∈ after, lookup f.group later = none) ∨ ∀ d ∈ doc :: after, IsOpen f d

theorem given_merge_open {o o' : Origin} {p p' : Option Nat} {es olds : Entries}
    (hl : IsLayer later) (hlater : lookup f.group later = some (.table o p es))
    (hdoc : lookup f.group doc = some (.table o' p' olds))
    (hmerge : lookup f.group (doc.merge later) = some (.table o' p' (overEntries olds es))) :
    f.given (doc.merge later) = (f.given later).or (f.given doc) := by
  rw [given_table hmerge, given_table hlater, given_table hdoc,
    lookup_overEntries_values (isKeyed_of_lookup hl.isKeyed hlater)
      fun _ => hl.values hlater, Option.map_or]

theorem isLayer_merge (hd : IsLayer doc) (hl : IsLayer later) : IsLayer (doc.merge later) := by
  have hcases := @lookup_merge_cases doc later hl.isKeyed hl.tables
  refine ⟨Document.isKeyed_merge hl.isKeyed hd.isKeyed, fun f item hi => ?_, fun f => ?_⟩
  · rcases hcases f with ⟨-, h⟩ | ⟨_, _, _, _, _, _, -, -, h⟩ | ⟨_, hitem, -, h⟩
    · exact hd.tables f item (h ▸ hi)
    · rw [h, Option.mem_some] at hi
      rw [← hi]
      rfl
    · rw [h, Option.mem_some] at hi
      exact hi ▸ hl.tables f _ hitem
  · rcases hcases f with ⟨-, h⟩ | ⟨_, _, _, _, _, _, hlater, hdoc, h⟩ | ⟨_, hitem, -, h⟩
    · rw [given_congr h]
      exact hd.reads f
    · rw [given_merge_open hl hlater hdoc h]
      cases hgiven : f.given later with
      | none => exact hd.reads f
      | some v =>
        rw [Option.some_or, ← hgiven]
        exact hl.reads f
    · rw [given_congr (h.trans hitem.symm)]
      exact hl.reads f

/-- A document that sets a setting decides it. -/
theorem given_merge_of_set (hl : IsLayer later) (hset : f.given later ≠ none) :
    f.given (doc.merge later) = f.given later ∧
      (IsOpen f (doc.merge later) ↔ IsOpen f later) := by
  rcases @lookup_merge_cases doc _ hl.isKeyed hl.tables f with
    ⟨hnone, -⟩ | ⟨_, _, _, _, _, _, hlater, hdoc, h⟩ | ⟨_, hlater, -, h⟩
  · exact absurd (given_none hnone) hset
  · obtain ⟨v, hv⟩ := Option.ne_none_iff_exists'.1 hset
    rw [given_merge_open hl hlater hdoc h, hv, IsOpen, IsOpen, hlater, h]
    simp [Item.isOpen]
  · have heq := h.trans hlater.symm
    exact ⟨given_congr heq, by rw [IsOpen, IsOpen, heq]⟩

/-- Documents that do not set a setting leave it as it was, or take its place with all its group. -/
theorem given_foldl_merge {docs : List Document} (hl : ∀ d ∈ docs, IsLayer d)
    (hset : ∀ d ∈ docs, f.given d = none) :
    (Lasts f doc docs → f.given (docs.foldl Document.merge doc) = f.given doc) ∧
    (¬Lasts f doc docs → f.given (docs.foldl Document.merge doc) = none) := by
  induction docs generalizing doc with
  | nil => exact ⟨fun _ => rfl, fun h => absurd (.inl (by simp)) h⟩
  | cons d docs ih =>
    rw [List.forall_mem_cons] at hl hset
    have ih := @ih (doc.merge d) hl.2 hset.2
    rw [List.foldl_cons]
    rcases @lookup_merge_cases doc _ hl.1.isKeyed hl.1.tables f with
      ⟨hnone, h⟩ | ⟨_, _, _, _, _, _, hd, hdoc, h⟩ | ⟨item, hd, ho, h⟩
    · have hlasts : Lasts f (doc.merge d) docs ↔ Lasts f doc (d :: docs) := by
        simp only [Lasts, List.forall_mem_cons, IsOpen, h, hnone]
        simp
      rw [← hlasts, ← given_congr h]
      exact ih
    · have hgiven : f.given (doc.merge d) = f.given doc := by
        rw [given_merge_open hl.1 hd hdoc h, hset.1, Option.none_or]
      have hlasts : Lasts f (doc.merge d) docs ↔ Lasts f doc (d :: docs) := by
        simp only [Lasts, List.forall_mem_cons, IsOpen, h, hd, hdoc, Option.mem_some, forall_eq',
          Item.isOpen, true_and, reduceCtorEq, false_and, false_or, or_iff_right_iff_imp]
        intro hnone later hm item hi
        rw [hnone later hm] at hi
        cases hi
      rw [← hlasts, ← hgiven]
      exact ih
    · -- The later group has taken the place of the earlier one and does not give the setting.
      have hnone : f.given (docs.foldl Document.merge (doc.merge d)) = none := by
        have hgiven : f.given (doc.merge d) = none :=
          (given_congr (h.trans hd.symm)).trans hset.1
        by_cases hlasts : Lasts f (doc.merge d) docs
        · exact (ih.1 hlasts).trans hgiven
        · exact ih.2 hlasts
      refine ⟨fun hlasts => ?_, fun _ => hnone⟩
      rw [hnone]
      refine (given_none ?_).symm
      rcases hlasts with hlasts | hlasts
      · have := hlasts d List.mem_cons_self
        rw [hd] at this
        cases this
      · -- The later group is open, so there was none to lay it into.
        simp only [List.forall_mem_cons, IsOpen] at hlasts
        have hopen := hlasts.2.1 item hd
        refine Option.eq_none_iff_forall_ne_some.2 fun old hold => ?_
        have := ho.resolve_left (by simp [hopen]) old hold
        rw [hlasts.1 old hold] at this
        cases this

theorem given_layers_none {docs : List Document} (hl : ∀ d ∈ docs, IsLayer d)
    (hset : ∀ d ∈ docs, f.given d = none) : f.given (docs.foldl Document.merge []) = none := by
  by_cases h : Lasts f [] docs
  · exact (given_foldl_merge hl hset).1 h
  · exact (given_foldl_merge hl hset).2 h

/-- The last document that sets a setting decides it if its group lasts, else nothing does. -/
theorem given_layers {before after : List Document} (hl : IsLayer later)
    (hafter : ∀ d ∈ after, IsLayer d) (hset : f.given later ≠ none)
    (hnone : ∀ d ∈ after, f.given d = none) :
    (Lasts f later after →
      f.given ((before ++ later :: after).foldl Document.merge []) = f.given later) ∧
    (¬Lasts f later after →
      f.given ((before ++ later :: after).foldl Document.merge []) = none) := by
  obtain ⟨hgiven, hopen⟩ := @given_merge_of_set (before.foldl Document.merge []) _ _ hl hset
  have hlasts : Lasts f ((before.foldl Document.merge []).merge later) after ↔
      Lasts f later after := by
    simp only [Lasts, List.forall_mem_cons, hopen]
  rw [List.foldl_append, List.foldl_cons, ← hlasts, ← hgiven]
  exact given_foldl_merge hafter hnone

theorem isLayer_foldl_merge {docs : List Document} (hd : IsLayer doc)
    (hl : ∀ d ∈ docs, IsLayer d) : IsLayer (docs.foldl Document.merge doc) := by
  induction docs generalizing doc with
  | nil => exact hd
  | cons d docs ih =>
    rw [List.forall_mem_cons] at hl
    exact ih (isLayer_merge hd hl.1) hl.2

theorem isLayer_nil : IsLayer [] where
  isKeyed := trivial
  tables _ _ h := by cases h
  reads f := ⟨{}, f.reads_none⟩

/-- A layer that is written down and read again gives the same settings. -/
theorem given_of_isReread {doc' : Document} (hd : IsLayer doc) (h : IsReread doc doc') :
    GivesTables doc' ∧ ∀ f : Setting, f.given doc' = f.given doc := by
  have hk := (entriesKeyed_iff.1 hd.isKeyed).1
  have hgroup (f : Setting) : (lookup f.group doc' = lookup f.group doc) ∨
      ∃ o p es es', lookup f.group doc = some (.table o p es) ∧
        IsTableOf (lookup f.group doc') es' ∧ IsReread es es' := by
    match hl : lookup f.group doc with
    | none => exact .inl (h.lookup_eq_none hk hl)
    | some (.value v) => exact .inl (h.lookup_value hk hl)
    | some (.table o p es) =>
      obtain ⟨es', ht, hr⟩ := h.lookup_table hk hl
      exact .inr ⟨o, p, es, es', rfl, ht, hr⟩
    | some (.tables _) =>
      have := hd.tables f _ hl
      rw [Item.isTable, Item.toValue] at this
      cases this
  refine ⟨fun f item hi => ?_, fun f => ?_⟩
  · rcases hgroup f with heq | ⟨_, _, _, _, -, ⟨hn, -⟩ | ⟨_, _, ht⟩, -⟩
    · exact hd.tables f item (heq ▸ hi)
    · rw [hn] at hi
      cases hi
    · rw [ht] at hi
      cases hi
      rfl
  · rcases hgroup f with heq | ⟨o, p, es, es', hes, ht, hr⟩
    · exact given_congr heq
    · have hke := (entriesKeyed_iff.1 (isKeyed_of_lookup hd.isKeyed hes)).1
      have hname : lookup f.name es' = lookup f.name es := by
        cases hl : lookup f.name es with
        | none => exact hr.lookup_eq_none hke hl
        | some item =>
          obtain ⟨v, rfl⟩ := hd.values hes hl
          exact hr.lookup_value hke hl
      rw [given_table hes, ← hname]
      rcases ht with ⟨hn, rfl⟩ | ⟨_, _, ht⟩
      · rw [given_none hn]
        rfl
      · exact given_table ht

end Settings

end Sweep
