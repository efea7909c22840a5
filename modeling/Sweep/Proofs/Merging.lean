import Sweep.Proofs.Ordered
/-!
# Merged documents

Behind each key of a later document stands its item laid over the earlier one (`lookup_merge`). The
merged document is sound, and no deeper than the others, unless two of them have a list of tables at
the same path: the headers of one list cannot tell which tables came first (`isSound_foldl_merge`).
-/

namespace Sweep.Toml

mutual

/-- The paths of the lists of tables in an item that are not in lists themselves. -/
def Item.lists : Item → List (List Key)
  | .value _ => []
  | .table _ _ es => entriesLists es
  | .tables _ => [[]]

/-- The paths of the lists of tables in some entries. -/
def entriesLists : Entries → List (List Key)
  | [] => []
  | (k, item) :: es => item.lists.map (k :: ·) ++ entriesLists es

end

/-- The paths of the lists of tables in a document. -/
def Document.lists (doc : Document) : List (List Key) := entriesLists doc

variable {k : Key} {olds es : Entries} {e : Key × Item} {path : List Key}

theorem mem_entriesLists : path ∈ entriesLists es ↔
    ∃ e ∈ es, ∃ p ∈ e.2.lists, e.1 :: p = path := by
  induction es with
  | nil => simp [entriesLists]
  | cons e es ih => simp [entriesLists, ih, Prod.exists]

/-! ## What stands behind a key -/

theorem lookup_overEntries (hk : (es.map Prod.fst).Nodup) (k : Key) :
    lookup k (overEntries olds es) =
      match lookup k es with
      | none => lookup k olds
      | some item => some (item.over (lookup k olds)) := by
  induction es generalizing olds with
  | nil => rfl
  | cons e es ih =>
    obtain ⟨j, item⟩ := e
    rw [List.map_cons, List.nodup_cons] at hk
    rw [overEntries, ih hk.2, lookup, lookup_putItem]
    by_cases hj : j = k
    · subst hj
      rw [lookup_eq_none_iff.2 hk.1, if_pos rfl, if_pos rfl]
    · rw [if_neg hj, if_neg hj]

/-- Behind each key of a later document stands its item over the one before. -/
theorem Document.lookup_merge {doc later : Document} (hk : later.IsKeyed) (k : Key) :
    lookup k (doc.merge later) =
      match lookup k later with
      | none => lookup k doc
      | some item => some (item.over (lookup k doc)) :=
  lookup_overEntries (entriesKeyed_iff.1 hk).1 k

theorem nodup_overEntries (h : (olds.map Prod.fst).Nodup) :
    ((overEntries olds es).map Prod.fst).Nodup := by
  induction es generalizing olds with
  | nil => exact h
  | cons e es ih => exact ih (nodup_putItem h)

theorem lookup_of_mem (hk : (es.map Prod.fst).Nodup) (h : e ∈ es) :
    lookup e.1 es = some e.2 := by
  induction es with
  | nil => cases h
  | cons d es ih =>
    rw [List.map_cons, List.nodup_cons] at hk
    rw [lookup]
    rcases List.mem_cons.1 h with rfl | h
    · exact if_pos rfl
    · have hne : d.1 ≠ e.1 := fun hd => hk.1 (by
        rw [hd]
        exact List.mem_map_of_mem h)
      rw [if_neg hne, ih hk.2 h]

theorem mem_overEntries (ho : (olds.map Prod.fst).Nodup) (hk : (es.map Prod.fst).Nodup)
    (h : e ∈ overEntries olds es) :
    e ∈ olds ∨ ∃ item, (e.1, item) ∈ es ∧ e.2 = item.over (lookup e.1 olds) := by
  have hl := lookup_of_mem (nodup_overEntries ho) h
  rw [lookup_overEntries hk] at hl
  cases hitem : lookup e.1 es with
  | none =>
    rw [hitem] at hl
    exact .inl (mem_of_lookup hl)
  | some item =>
    rw [hitem] at hl
    exact .inr ⟨item, mem_of_lookup hitem, (Option.some.inj hl).symm⟩

/-! ## What merging keeps -/

theorem entriesKeyed_over (hk : entriesKeyed es) (ho : entriesKeyed olds)
    (h : ∀ e ∈ es, ∀ old, (∀ i ∈ old, i.IsKeyed) → (e.2.over old).IsKeyed) :
    entriesKeyed (overEntries olds es) := by
  obtain ⟨hko, ho⟩ := entriesKeyed_iff.1 ho
  refine entriesKeyed_iff.2 ⟨nodup_overEntries hko, fun e he => ?_⟩
  rcases mem_overEntries hko (entriesKeyed_iff.1 hk).1 he with he | ⟨item, hi, heq⟩
  · exact ho e he
  · rw [heq]
    exact h _ hi _ fun i hi => ho _ (mem_of_lookup hi)

mutual

theorem Item.isKeyed_over : (item : Item) → item.IsKeyed → (old : Option Item) →
    (∀ i ∈ old, i.IsKeyed) → (item.over old).IsKeyed
  | .value _, _, _, _ => trivial
  | .table _ _ es, hk, some (.table _ _ _), ho =>
    entriesKeyed_over hk (ho _ rfl) (entries_isKeyed_over es hk)
  | .table _ _ _, hk, none, _ | .table _ _ _, hk, some (.value _), _
  | .table _ _ _, hk, some (.tables _), _ => hk
  | .tables _, hk, none, _ | .tables _, hk, some (.value _), _
  | .tables _, hk, some (.table _ _ _), _ => hk
  | .tables _, hk, some (.tables _), _ => fun h => hk (List.append_eq_nil_iff.1 h).1

theorem entries_isKeyed_over : (es : Entries) → entriesKeyed es → ∀ e ∈ es, ∀ old,
    (∀ i ∈ old, i.IsKeyed) → (e.2.over old).IsKeyed
  | [], _ => by simp
  | (k, item) :: es, ⟨_, hi, h⟩ => by
    rw [List.forall_mem_cons]
    exact ⟨item.isKeyed_over hi, entries_isKeyed_over es h⟩

end

theorem Document.isKeyed_merge {doc later : Document} (hk : later.IsKeyed) (ho : doc.IsKeyed) :
    (doc.merge later).IsKeyed :=
  entriesKeyed_over hk ho (entries_isKeyed_over later hk)

/-- Whether an item can be laid over another: the two have no list of tables at the same path. -/
def Item.GoesOver (item : Item) (old : Option Item) : Prop :=
  ∀ i ∈ old, ∀ path ∈ item.lists, path ∉ i.lists

/-- What is kept when an item is laid over another. -/
structure Item.Kept (item : Item) (old : Option Item) : Prop where
  isSound : (item.over old).IsSound
  lists : ∀ path ∈ (item.over old).lists, path ∈ item.lists ∨ ∃ i ∈ old, path ∈ i.lists
  depth : ∀ n, item.depth ≤ n → (∀ i ∈ old, i.depth ≤ n) → (item.over old).depth ≤ n

theorem Item.Kept.refl {item : Item} {old : Option Item} (hs : item.IsSound)
    (h : item.over old = item) : item.Kept old := by
  constructor
  · rw [h]
    exact hs
  · rw [h]
    exact fun path hp => .inl hp
  · rw [h]
    exact fun n hn _ => hn

/-- What is kept when entries are laid over others. -/
structure EntriesKept (es olds : Entries) : Prop where
  isSound : entriesSound (overEntries olds es)
  lists : ∀ path ∈ entriesLists (overEntries olds es),
    path ∈ entriesLists es ∨ path ∈ entriesLists olds
  depth : ∀ n, entriesDepth es ≤ n → entriesDepth olds ≤ n → entriesDepth (overEntries olds es) ≤ n

theorem overEntries_ne_nil (h : olds ≠ [] ∨ es ≠ []) : overEntries olds es ≠ [] := by
  induction es generalizing olds with
  | nil => exact h.resolve_right (fun h => h rfl)
  | cons e es ih => exact ih (.inl (putItem_ne_nil _ _ _))

/-- Entries are kept if what is behind each key is. -/
theorem entriesKept_of_items (hs : entriesSound es) (ho : entriesSound olds)
    (hl : ∀ path ∈ entriesLists es, path ∉ entriesLists olds)
    (h : ∀ e ∈ es, ∀ old, (∀ i ∈ old, i.IsSound) → e.2.GoesOver old → e.2.Kept old) :
    EntriesKept es olds := by
  obtain ⟨hk, hs⟩ := entriesSound_iff.1 hs
  obtain ⟨hko, ho⟩ := entriesSound_iff.1 ho
  have hmem : ∀ e ∈ overEntries olds es, e ∈ olds ∨ ∃ item, (e.1, item) ∈ es ∧
      e.2 = item.over (lookup e.1 olds) ∧ item.Kept (lookup e.1 olds) := by
    intro e he
    refine (mem_overEntries hko hk he).imp_right ?_
    rintro ⟨item, hi, heq⟩
    refine ⟨item, hi, heq, h _ hi _ (fun i hi => ho _ (mem_of_lookup hi)) ?_⟩
    intro i hio path hp hpo
    exact hl (e.1 :: path) (mem_entriesLists.2 ⟨_, hi, path, hp, rfl⟩)
      (mem_entriesLists.2 ⟨_, mem_of_lookup hio, path, hpo, rfl⟩)
  constructor
  · refine entriesSound_iff.2 ⟨nodup_overEntries hko, fun e he => ?_⟩
    rcases hmem e he with he | ⟨item, -, heq, hkept⟩
    · exact ho e he
    · rw [heq]
      exact hkept.isSound
  · intro path hpath
    obtain ⟨e, he, p, hp, rfl⟩ := mem_entriesLists.1 hpath
    rcases hmem e he with he | ⟨item, hi, heq, hkept⟩
    · exact .inr (mem_entriesLists.2 ⟨e, he, p, hp, rfl⟩)
    · rw [heq] at hp
      rcases hkept.lists p hp with hp | ⟨i, hio, hp⟩
      · exact .inl (mem_entriesLists.2 ⟨_, hi, p, hp, rfl⟩)
      · exact .inr (mem_entriesLists.2 ⟨_, mem_of_lookup hio, p, hp, rfl⟩)
  · intro n hn hno
    rw [entriesDepth_le_iff] at hn hno ⊢
    intro e he
    rcases hmem e he with he | ⟨item, hi, heq, hkept⟩
    · exact hno e he
    · have hpos := hn _ hi
      obtain ⟨m, rfl⟩ : ∃ m, n = m + 1 := ⟨n - 1, by omega⟩
      rw [heq]
      exact Nat.succ_le_succ (hkept.depth m (Nat.le_of_succ_le_succ hpos) fun i hio =>
        Nat.le_of_succ_le_succ (hno _ (mem_of_lookup hio)))

mutual

theorem Item.kept : (item : Item) → item.IsSound → (old : Option Item) →
    (∀ i ∈ old, i.IsSound) → item.GoesOver old → item.Kept old
  | .value _, hs, _, _, _ => .refl hs rfl
  | .table o p es, ⟨hne, hs⟩, some (.table o' p' olds), ho, hl => by
    obtain ⟨hne', ho⟩ := ho _ rfl
    have hkept := entriesKept_of_items hs ho (hl _ rfl) (entries_kept es hs)
    refine ⟨⟨?_, hkept.isSound⟩, fun path hp => ?_, fun n hn hno => ?_⟩
    · exact hne'.imp_right fun h => overEntries_ne_nil (.inl h)
    · exact (hkept.lists path hp).imp_right fun hp => ⟨_, rfl, hp⟩
    · exact hkept.depth n hn (hno _ rfl)
  | .table _ _ _, hs, none, _, _ | .table _ _ _, hs, some (.value _), _, _
  | .table _ _ _, hs, some (.tables _), _, _ => .refl hs rfl
  | .tables _, hs, none, _, _ | .tables _, hs, some (.value _), _, _
  | .tables _, hs, some (.table _ _ _), _, _ => .refl hs rfl
  | .tables _, _, some (.tables _), _, hl => by
    -- Both are lists at the same path.
    have hnil : ([] : List Key) ∉ [[]] := hl _ rfl [] (List.mem_singleton_self _)
    exact absurd (List.mem_singleton_self _) hnil

theorem entries_kept : (es : Entries) → entriesSound es → ∀ e ∈ es, ∀ old,
    (∀ i ∈ old, i.IsSound) → e.2.GoesOver old → e.2.Kept old
  | [], _ => by simp
  | (k, item) :: es, ⟨_, hi, h⟩ => by
    rw [List.forall_mem_cons]
    exact ⟨item.kept hi, entries_kept es h⟩

end

namespace Document

/-- Whether documents have no list of tables at the same path. -/
def ListsApart (doc later : Document) : Prop := ∀ path ∈ later.lists, path ∉ doc.lists

instance (doc later : Document) : Decidable (ListsApart doc later) :=
  inferInstanceAs (Decidable (∀ path ∈ later.lists, path ∉ doc.lists))

theorem kept_merge {doc later : Document} (hs : later.IsSound) (ho : doc.IsSound)
    (hl : doc.ListsApart later) : EntriesKept later doc :=
  entriesKept_of_items hs ho hl (entries_kept later hs)

/-- Sound documents that have no list of tables at the same path are merged into a sound one, which
is no deeper than they are. -/
theorem isSound_foldl_merge {doc : Document} {docs : List Document} (hd : doc.IsSound)
    (hs : ∀ d ∈ docs, d.IsSound) (hp : (doc :: docs).Pairwise ListsApart) :
    (docs.foldl merge doc).IsSound ∧
      ∀ n, (∀ d ∈ doc :: docs, d.depth ≤ n) → (docs.foldl merge doc).depth ≤ n := by
  induction docs generalizing doc with
  | nil => exact ⟨hd, fun n hn => hn doc List.mem_cons_self⟩
  | cons d docs ih =>
    rw [List.forall_mem_cons] at hs
    obtain ⟨hdoc, hp⟩ := List.pairwise_cons.1 hp
    obtain ⟨hlater, hp⟩ := List.pairwise_cons.1 hp
    rw [List.forall_mem_cons] at hdoc
    have hkept := kept_merge hs.1 hd hdoc.1
    have hmerged : (doc.merge d :: docs).Pairwise ListsApart := by
      refine List.pairwise_cons.2 ⟨fun e he path hpath hm => ?_, hp⟩
      rcases hkept.lists path hm with hm | hm
      · exact hlater e he path hpath hm
      · exact hdoc.2 e he path hpath hm
    obtain ⟨hsound, hdepth⟩ := ih hkept.isSound hs.2 hmerged
    refine ⟨hsound, fun n hn => hdepth n ?_⟩
    simp only [List.forall_mem_cons] at hn ⊢
    exact ⟨hkept.depth n hn.2.1 hn.1, hn.2.2⟩

end Document

end Sweep.Toml
