import Sweep.Proofs.Ordered
/-!
# Documents that are written down and read again

A sound document comes back with the same values at the same keys, though its tables may be told
apart in other ways and stand in another order (`exists_reread?`). At one key, the moves of a table
are those of its entries with the header of the table anywhere among them, those of a list are the
tables one after the other; the rest is induction on the document. Any other document either does
not come back or has the same values at all paths without lists (`IsReread`).
-/

namespace Sweep.Toml

mutual

/-- Whether items have the same values, in tables and lists of tables alike. -/
inductive Item.Alike : Item → Item → Prop
  | value (v : Value) : Item.Alike (.value v) (.value v)
  | table {o o' : Origin} {p p' : Option Nat} {es es' : Entries} (h : Entries.Alike es es') :
    Item.Alike (.table o p es) (.table o' p' es')
  | tables {ts ts' : List (Nat × Entries)}
    (h : List.Forall₂ (fun t t' => Entries.Alike t.2 t'.2) ts ts') :
    Item.Alike (.tables ts) (.tables ts')

/-- Whether entries have the same values behind the same keys. -/
inductive Entries.Alike : Entries → Entries → Prop
  | intro {es es' : Entries}
    (h : ∀ k, Option.Rel Item.Alike (lookup k es) (lookup k es')) : Entries.Alike es es'

end

theorem Entries.Alike.lookup {es es' : Entries} (h : Entries.Alike es es') (k : Key) :
    Option.Rel Item.Alike (lookup k es) (lookup k es') := by
  obtain ⟨h⟩ := h
  exact h k

/-- Only empty entries are like those of an empty table. -/
theorem Entries.Alike.eq_nil {es : Entries} (h : Entries.Alike es []) : es = [] := by
  match es with
  | [] => rfl
  | (k, item) :: es =>
    have := h.lookup k
    simp only [Toml.lookup, if_true] at this
    cases this

open Move

variable {k : Key} {ms : List Move} {Q : Entries → Prop} {es : Entries}

/-! ## The moves of one item -/

/-- Moves through a key change what is wrapped in the item behind it. -/
theorem leads_through {wrap : Entries → Item}
    (hw : ∀ place m es, (through k m).touch place (some (wrap es)) = (m.act place es).map wrap)
    (h : Leads act ms Q es) :
    Leads reach (ms.map (.through k)) (fun new => ∃ es, new = some (wrap es) ∧ Q es)
      (some (wrap es)) := by
  induction ms generalizing es with
  | nil => exact ⟨es, rfl, h⟩
  | cons m ms ih =>
    rw [List.map_cons, leads_reach_cons]
    intro place
    obtain ⟨es', he, h⟩ := h place
    exact ⟨wrap es', by rw [hw, he]; rfl, ih h⟩

/-- The first move through a key makes a table there. -/
theorem leads_through_none (h : Leads act ms Q []) :
    Leads reach (ms.map (.through k)) (fun new =>
      (new = none ∧ Q []) ∨ ∃ es, new = some (.table .implied none es) ∧ Q es) none := by
  cases ms with
  | nil => exact .inl ⟨rfl, h⟩
  | cons m ms =>
    rw [List.map_cons, leads_reach_cons]
    intro place
    obtain ⟨es, he, h⟩ := h place
    refine ⟨.table .implied none es, Option.map_eq_some_iff.2 ⟨es, he, rfl⟩, ?_⟩
    exact (leads_through (fun _ _ _ => rfl) h).imp fun new hn => .inr hn

/-- The header of a table may stand anywhere among the moves through its key. -/
theorem leads_table {ms' : List Move} (h : Leads act (ms ++ ms') Q []) :
    Leads reach (ms.map (.through k) ++ .table k :: ms'.map (.through k))
      (fun new => ∃ o p es, new = some (.table o p es) ∧ Q es) none := by
  rw [leads_append] at h ⊢
  refine (leads_through_none h).imp fun old ho => ?_
  rw [leads_reach_cons]
  intro place
  -- What came before the header made the table by implication at most, so the header may open it.
  obtain ⟨es, ht, h⟩ : ∃ es, (table k).touch place old = some (.table .header (some place) es) ∧
      Leads act ms' Q es := by
    rcases ho with ⟨rfl, h⟩ | ⟨es, rfl, h⟩
    · exact ⟨[], rfl, h⟩
    · exact ⟨es, rfl, h⟩
  refine ⟨_, ht, (leads_through (fun _ _ _ => rfl) h).imp ?_⟩
  rintro new ⟨es, rfl, hq⟩
  exact ⟨_, _, es, rfl, hq⟩

/-- The move that goes on from the key of this one. -/
def Move.next : Move → Option Move
  | through _ m | dotted _ m => some m
  | _ => none

/-- Keys with dots and headers may lead into the same table as long as it has no header. -/
theorem leads_dotted (hm : ∀ m ∈ ms, ∃ m', m = .through k m' ∨ m = .dotted k m') {old : Option Item}
    (ho : (old = none ∧ es = []) ∨ ∃ o p, o ≠ .header ∧ old = some (.table o p es))
    (h : Leads act (ms.filterMap next) Q es) :
    Leads reach ms (fun new =>
      (new = none ∧ Q []) ∨ ∃ o p es, new = some (.table o p es) ∧ Q es) old := by
  induction ms generalizing es old with
  | nil =>
    rcases ho with ⟨rfl, rfl⟩ | ⟨o, p, -, rfl⟩
    · exact .inl ⟨rfl, h⟩
    · exact .inr ⟨o, p, es, rfl, h⟩
  | cons m ms ih =>
    rw [List.forall_mem_cons] at hm
    obtain ⟨⟨m', hm'⟩, hms⟩ := hm
    rw [leads_reach_cons]
    intro place
    have hnext : m.next = some m' := by rcases hm' with rfl | rfl <;> rfl
    rw [List.filterMap_cons_some hnext] at h
    obtain ⟨es', he, h⟩ := h place
    obtain ⟨o, p, hne, ht⟩ : ∃ o p, o ≠ .header ∧
        m.touch place old = some (.table o p es') := by
      have hmap {w : Entries → Item} : (m'.act place es).map w = some (w es') := by
        rw [he, Option.map_some]
      rcases ho with ⟨rfl, rfl⟩ | ⟨o, p, hne, rfl⟩
      · rcases hm' with rfl | rfl
        · exact ⟨.implied, none, by simp, hmap⟩
        · exact ⟨.dotted, none, by simp, hmap⟩
      · rcases hm' with rfl | rfl
        · exact ⟨o, p, hne, hmap⟩
        · cases o with
          | header => exact absurd rfl hne
          | implied | dotted => exact ⟨.dotted, p, by simp, hmap⟩
    exact ⟨_, ht, ih hms (.inr ⟨o, p, hne, rfl⟩) h⟩

/-! ## Documents -/

/-- The moves of an item in the order of their places make one that is alike. -/
def ComesBack (k : Key) (item : Item) : Prop :=
  ∀ here last, Leads reach ((inPlaces Prod.fst (itemMoves here last k item)).map Prod.snd)
    (fun new => ∃ i, new = some i ∧ item.Alike i) none

/-- Entries come back if all items behind their keys do. -/
theorem leads_entryMoves (hs : entriesSound es) (h : ∀ e ∈ es, ComesBack e.1 e.2)
    (here last : Nat) : Leads act ((inPlaces Prod.fst (entryMoves here last es)).map Prod.snd)
      (es.Alike ·) [] := by
  refine (leads_of_keys (Q := fun k => Option.Rel Item.Alike (lookup k es)) fun k => ?_).imp
    fun es' h => .intro h
  obtain ⟨last', hf⟩ := filter_entryMoves (entriesSound_iff.1 hs).1 k here last
  rw [List.filter_map, Function.comp_def, ← inPlaces_filter, hf]
  cases hl : lookup k es with
  | none =>
    rw [Option.elim_none, inPlaces_nil]
    exact Option.Rel.none
  | some item =>
    refine (h _ (mem_of_lookup hl) here last').imp ?_
    rintro _ ⟨i, rfl, ha⟩
    exact .some ha

theorem inPlaces_movesThrough (ms : List (Nat × Move)) :
    inPlaces Prod.fst (movesThrough k ms) = movesThrough k (inPlaces Prod.fst ms) :=
  inPlaces_map (fun _ => rfl) ms

theorem map_snd_movesThrough (ms : List (Nat × Move)) :
    (movesThrough k ms).map Prod.snd = (ms.map Prod.snd).map (.through k) := by
  simp [movesThrough]

theorem comesBack_value (v : Value) : ComesBack k (.value v) := by
  intro here last
  rw [itemMoves_value, inPlaces_singleton, List.map_singleton, leads_reach_cons]
  exact fun place => ⟨.value v, rfl, _, rfl, .value v⟩

/-- The moves of a table are its header, if it has one, and what goes on through its key. -/
theorem mem_itemMoves_table {o : Origin} {p : Option Nat} {here last : Nat} {m : Nat × Move}
    (h : m ∈ itemMoves here last k (.table o p es)) :
    (m.2 = .table k ∧ o ≠ .dotted) ∨ ∃ m', m.2 = .through k m' ∨ m.2 = .dotted k m' := by
  have hthrough {ms : List (Nat × Move)} (hm : m ∈ movesThrough k ms) :
      ∃ m', m.2 = .through k m' ∨ m.2 = .dotted k m' := by
    obtain ⟨m', -, rfl⟩ := List.mem_map.1 hm
    exact ⟨m'.2, .inl rfl⟩
  by_cases ho : o = .dotted
  · subst ho
    rw [itemMoves_dotted, List.mem_append] at h
    rcases h with h | h
    · obtain ⟨m', -, rfl⟩ := List.mem_map.1 h
      exact .inr ⟨m', .inr rfl⟩
    · exact .inr (hthrough h)
  · rw [itemMoves_table ho, List.mem_append] at h
    rcases h with h | h
    · split at h
      · cases h
      · rw [List.mem_singleton.1 h]
        exact .inl ⟨rfl, ho⟩
    · exact .inr (hthrough h)

/-- What goes on through the key of a table are the moves of its entries. -/
theorem filterMap_next (o : Origin) (p : Option Nat) (es : Entries) (here last : Nat) :
    ∃ here' last', ((inPlaces Prod.fst (itemMoves here last k (.table o p es))).map
      Prod.snd).filterMap next = (inPlaces Prod.fst (entryMoves here' last' es)).map Prod.snd := by
  let next' (m : Nat × Move) : Option (Nat × Move) := m.2.next.map (m.1, ·)
  have hplace : ∀ m, ∀ m' ∈ next' m, m'.1 = m.1 := fun m m' h => by
    obtain ⟨_, -, rfl⟩ := Option.map_eq_some_iff.1 h
    rfl
  have hthrough (ms : List (Nat × Move)) : (movesThrough k ms).filterMap next' = ms := by
    rw [movesThrough, List.filterMap_map]
    simp [next', next, Function.comp_def]
  obtain ⟨here', last', hmoves⟩ : ∃ here' last', entryMoves here' last' es =
      (itemMoves here last k (.table o p es)).filterMap next' := by
    by_cases ho : o = .dotted
    · subst ho
      refine ⟨here, last, ?_⟩
      rw [itemMoves_dotted, List.filterMap_append, hthrough, entryMoves, List.filterMap_map]
      simp [next', next, Function.comp_def]
    · refine ⟨p.getD last, p.getD last, ?_⟩
      rw [itemMoves_table ho, List.filterMap_append, hthrough]
      split <;> rfl
  refine ⟨here', last', ?_⟩
  rw [hmoves, inPlaces_filterMap hplace, List.filterMap_map, List.map_filterMap]
  congr 1
  funext m
  simp [next', Function.comp_def]

theorem comesBack_dotted {p : Option Nat} (hne : es ≠ [])
    (h : ∀ here last, Leads act ((inPlaces Prod.fst (entryMoves here last es)).map Prod.snd)
      (es.Alike ·) []) : ComesBack k (.table .dotted p es) := by
  intro here last
  have hm : ∀ m ∈ (inPlaces Prod.fst (itemMoves here last k (.table .dotted p es))).map Prod.snd,
      ∃ m', m = .through k m' ∨ m = .dotted k m' := by
    simp only [List.forall_mem_map, mem_inPlaces]
    exact fun m hm => (mem_itemMoves_table hm).resolve_left (by simp)
  obtain ⟨here', last', hnext⟩ := filterMap_next (k := k) .dotted p es here last
  have hl := h here' last'
  rw [← hnext] at hl
  refine (leads_dotted hm (.inl ⟨rfl, rfl⟩) hl).imp ?_
  rintro new (⟨-, ha⟩ | ⟨o, p, es', rfl, ha⟩)
  · -- Without entries no key with dots would be there to make the table again.
    exact absurd ha.eq_nil hne
  · exact ⟨_, rfl, .table ha⟩

theorem comesBack_table {o : Origin} {p : Option Nat} (ho : o ≠ .dotted)
    (hne : o = .header ∨ es ≠ [])
    (h : ∀ here last, Leads act ((inPlaces Prod.fst (entryMoves here last es)).map Prod.snd)
      (es.Alike ·) []) : ComesBack k (.table o p es) := by
  intro here last
  rw [itemMoves_table ho]
  generalize p.getD last = here
  have h := h here here
  split
  · next hempty =>
    rw [List.nil_append, inPlaces_movesThrough, map_snd_movesThrough]
    refine (leads_through_none h).imp ?_
    rintro new (⟨-, ha⟩ | ⟨es', rfl, ha⟩)
    · rw [hempty.1] at hne
      exact absurd ha.eq_nil (hne.resolve_left (by simp))
    · exact ⟨_, rfl, .table ha⟩
  · obtain ⟨ms, ms', hms, hsplit⟩ :=
      exists_inPlaces_cons Prod.fst (here, table k) (movesThrough k (entryMoves here here es))
    rw [inPlaces_movesThrough] at hsplit
    obtain ⟨l, l', hl, rfl, rfl⟩ := List.map_eq_append_iff.1 hsplit
    -- The header is sorted among the moves of the entries, which are split where it stands.
    rw [hl, List.map_append] at h
    have hl' := leads_table (k := k) h
    rw [← map_snd_movesThrough, ← map_snd_movesThrough] at hl'
    rw [List.singleton_append, hms, List.map_append, List.map_cons]
    refine Leads.imp hl' ?_
    rintro new ⟨o, p, es', rfl, ha⟩
    exact ⟨_, rfl, .table ha⟩

/-- The tables of a list come back one after the other. -/
theorem leads_elements {ts : List (Nat × Entries)} {lo hi : Nat} (ho : elementsOrdered lo hi ts)
    (h : ∀ t ∈ ts, ∀ here last, Leads act
      ((inPlaces Prod.fst (entryMoves here last t.2)).map Prod.snd) (t.2.Alike ·) [])
    (here last : Nat) :
    Leads reach ((inPlaces Prod.fst (itemMoves here last k (.tables ts))).map Prod.snd) (fun new =>
      (ts = [] ∧ new = none) ∨ ∃ ts', new = some (.tables ts') ∧
        List.Forall₂ (fun t t' => Entries.Alike t.2 t'.2) ts ts') none := by
  induction ts generalizing hi with
  | nil =>
    have hnil : itemMoves here last k (.tables []) = [] := rfl
    rw [hnil, inPlaces_nil]
    exact Or.inl ⟨rfl, rfl⟩
  | cons t ts ih =>
    obtain ⟨p, es⟩ := t
    obtain ⟨-, hp, hes, hts⟩ := ho
    rw [List.forall_mem_cons] at h
    have hbelow : ∀ m ∈ movesThrough k (entryMoves p p es), p ≤ m.1 := fun m hm => by
      obtain ⟨m, hmem, rfl⟩ := List.mem_map.1 hm
      exact (place_of_mem_entryMoves hes hp hmem).1
    rw [itemMoves_tables, inPlaces_append, inPlaces_cons _ hbelow, inPlaces_movesThrough,
      List.map_append, List.map_cons, map_snd_movesThrough, leads_append]
    · refine (ih hts h.2).imp fun old hold => ?_
      rw [leads_reach_cons]
      intro place
      obtain ⟨ts', ht, ha⟩ : ∃ ts', (element k).touch place old =
          some (.tables ((place, []) :: ts')) ∧
          List.Forall₂ (fun t t' => Entries.Alike t.2 t'.2) ts ts' := by
        rcases hold with ⟨rfl, rfl⟩ | ⟨ts', rfl, ha⟩
        · exact ⟨[], rfl, .nil⟩
        · exact ⟨ts', rfl, ha⟩
      refine ⟨_, ht, ?_⟩
      let wrap (es : Entries) : Item := .tables ((place, es) :: ts')
      have hwrap : ∀ n m es, (through k m).touch n (some (wrap es)) = (m.act n es).map wrap :=
        fun _ _ _ => rfl
      refine (leads_through hwrap (h.1 p p)).imp ?_
      rintro _ ⟨es', rfl, he⟩
      exact .inr ⟨_, rfl, .cons he ha⟩
    · intro m hm m' hm'
      refine (place_of_mem_itemMoves hts hm).trans ?_
      rcases List.mem_cons.1 hm' with rfl | hm'
      · exact Nat.le_refl p
      · exact hbelow m' hm'

mutual

theorem Item.comesBack : (item : Item) → item.IsSound → (k : Key) → ComesBack k item
  | .value v, _, _ => comesBack_value v
  | .table .dotted _ es, ⟨hne, h⟩, _ =>
    comesBack_dotted (hne.resolve_left (by simp)) (leads_entryMoves h (entries_comeBack es h))
  | .table .header _ es, ⟨hne, h⟩, _ | .table .implied _ es, ⟨hne, h⟩, _ =>
    comesBack_table (by simp) hne (leads_entryMoves h (entries_comeBack es h))
  | .tables ts, ⟨hne, hi, h⟩, _ => fun here last => by
    refine (leads_elements h (elements_comeBack ts h) here last).imp ?_
    rintro new (⟨rfl, -⟩ | ⟨ts', rfl, ha⟩)
    · exact absurd rfl hne
    · exact ⟨_, rfl, .tables ha⟩

theorem entries_comeBack : (es : Entries) → entriesSound es → ∀ e ∈ es, ComesBack e.1 e.2
  | [], _ => by simp
  | (k, item) :: es, ⟨_, hi, h⟩ => by
    rw [List.forall_mem_cons]
    exact ⟨item.comesBack hi k, entries_comeBack es h⟩

theorem elements_comeBack : (ts : List (Nat × Entries)) → {lo hi : Nat} →
    elementsOrdered lo hi ts → ∀ t ∈ ts, ∀ here last, Leads act
      ((inPlaces Prod.fst (entryMoves here last t.2)).map Prod.snd) (t.2.Alike ·) []
  | [], _, _, _ => by simp
  | (p, es) :: ts, _, _, ⟨_, _, h, hts⟩ => by
    rw [List.forall_mem_cons]
    have hs := entriesSound_of_ordered es h
    exact ⟨leads_entryMoves hs (entries_comeBack es hs), elements_comeBack ts hts⟩

end

/-- A sound document that is written without too long paths comes back when it is read again. -/
theorem Document.exists_reread? {doc : Document} (hs : doc.IsSound)
    (hk : ∀ s ∈ doc.statements, s.HasKeys depthLimit) :
    ∃ doc', doc.reread? = some doc' ∧ Entries.Alike doc doc' := by
  refine addStatements_of_leads hk ?_
  rw [moves_statements]
  exact leads_entryMoves hs (entries_comeBack doc hs) 0 0

/-! ## Whatever comes back -/

/-- Whether an item is a table with some entries, or not there for want of them. -/
def IsTableOf (item : Option Item) (es : Entries) : Prop :=
  (item = none ∧ es = []) ∨ ∃ o p, item = some (.table o p es)

/-- Moves through a key, and of headers of it, make a table there. -/
theorem runs_next {es : Entries} {old new : Option Item}
    (hm : ∀ m ∈ ms, m = .table k ∨ ∃ m', m = .through k m' ∨ m = .dotted k m')
    (ho : IsTableOf old es) (h : Runs reach ms old new) :
    ∃ es', IsTableOf new es' ∧ Runs act (ms.filterMap next) es es' := by
  induction ms generalizing es old with
  | nil =>
    obtain rfl : old = new := h
    exact ⟨es, ho, rfl⟩
  | cons m ms ih =>
    rw [List.forall_mem_cons] at hm
    obtain ⟨place, item, hi, hruns⟩ := runs_reach_cons.1 h
    have hgo {m' : Move} {w : Entries → Item} (hnext : m.next = some m')
        (hw : ∀ es, ∃ o p, w es = .table o p es) (hi : (m'.act place es).map w = some item) :
        ∃ es', IsTableOf new es' ∧ Runs act ((m :: ms).filterMap next) es es' := by
      obtain ⟨es₁, he, rfl⟩ := Option.map_eq_some_iff.1 hi
      obtain ⟨o, p, hw⟩ := hw es₁
      obtain ⟨es', hes', hsub⟩ := ih hm.2 (.inr ⟨o, p, congrArg some hw⟩) hruns
      rw [List.filterMap_cons_some hnext]
      exact ⟨es', hes', place, es₁, he, hsub⟩
    rcases hm.1 with rfl | ⟨m', rfl | rfl⟩
    · have hitem : IsTableOf (some item) es := by
        rcases ho with ⟨rfl, rfl⟩ | ⟨o, p, rfl⟩
        · cases hi
          exact .inr ⟨_, _, rfl⟩
        · cases o with
          | implied =>
            cases hi
            exact .inr ⟨_, _, rfl⟩
          | header | dotted => cases hi
      exact ih hm.2 hitem hruns
    · rcases ho with ⟨rfl, rfl⟩ | ⟨o, p, rfl⟩
      · exact hgo rfl (fun _ => ⟨_, _, rfl⟩) hi
      · exact hgo rfl (fun _ => ⟨_, _, rfl⟩) hi
    · rcases ho with ⟨rfl, rfl⟩ | ⟨o, p, rfl⟩
      · exact hgo rfl (fun _ => ⟨_, _, rfl⟩) hi
      · cases o with
        | header => cases hi
        | implied | dotted => exact hgo rfl (fun _ => ⟨_, _, rfl⟩) hi

/-- Whether entries are what comes of writing others down and reading them again. -/
def IsReread (es es' : Entries) : Prop :=
  ∃ here last, Runs act ((inPlaces Prod.fst (entryMoves here last es)).map Prod.snd) [] es'

theorem Document.isReread {doc doc' : Document} (h : doc.reread? = some doc') :
    IsReread doc doc' := by
  refine ⟨0, 0, ?_⟩
  rw [← moves_statements]
  exact runs_of_addStatements h

namespace IsReread

variable {es' : Entries}

theorem runs (hk : (es.map Prod.fst).Nodup) (h : IsReread es es') (k : Key) : ∃ here last,
    Runs reach ((inPlaces Prod.fst ((lookup k es).elim [] (itemMoves here last k))).map Prod.snd)
      none (lookup k es') := by
  obtain ⟨here, last, h⟩ := h
  obtain ⟨last', hf⟩ := filter_entryMoves hk k here last
  have hruns := runs_keys h k
  rw [List.filter_map, Function.comp_def, ← inPlaces_filter, hf] at hruns
  exact ⟨here, last', hruns⟩

theorem lookup_eq_none (hk : (es.map Prod.fst).Nodup) (h : IsReread es es')
    (hl : lookup k es = none) : lookup k es' = none := by
  obtain ⟨here, last, hruns⟩ := h.runs hk k
  rw [hl, Option.elim_none, inPlaces_nil] at hruns
  exact Eq.symm hruns

theorem lookup_value {v : Value} (hk : (es.map Prod.fst).Nodup) (h : IsReread es es')
    (hl : lookup k es = some (.value v)) : lookup k es' = some (.value v) := by
  obtain ⟨here, last, hruns⟩ := h.runs hk k
  rw [hl, Option.elim_some, itemMoves_value, inPlaces_singleton, List.map_singleton,
    runs_reach_cons] at hruns
  obtain ⟨place, item, hi, hruns⟩ := hruns
  cases hi
  exact Eq.symm hruns

theorem lookup_table {o : Origin} {p : Option Nat} {sub : Entries} (hk : (es.map Prod.fst).Nodup)
    (h : IsReread es es') (hl : lookup k es = some (.table o p sub)) :
    ∃ sub', IsTableOf (lookup k es') sub' ∧ IsReread sub sub' := by
  obtain ⟨here, last, hruns⟩ := h.runs hk k
  rw [hl, Option.elim_some] at hruns
  have hm : ∀ m ∈ (inPlaces Prod.fst (itemMoves here last k (.table o p sub))).map Prod.snd,
      m = .table k ∨ ∃ m', m = .through k m' ∨ m = .dotted k m' := by
    simp only [List.forall_mem_map, mem_inPlaces]
    exact fun m hm => (mem_itemMoves_table hm).imp_left And.left
  obtain ⟨sub', ht, hsub⟩ := runs_next hm (.inl ⟨rfl, rfl⟩) hruns
  obtain ⟨here', last', hnext⟩ := filterMap_next (k := k) o p sub here last
  rw [hnext] at hsub
  exact ⟨sub', ht, here', last', hsub⟩

end IsReread

end Sweep.Toml
