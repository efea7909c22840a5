import Sweep.Proofs.Given
import Sweep.Proofs.Merging
import Sweep.Proofs.Reread
/-!
# Documents that give the same settings

Settings are values in tables; a list of tables, whatever is in it, is neither a setting nor a
group. So documents with the same values at all paths without lists give the same settings
(`ofDocument?_congr`), and so does what comes back of a document that is written down and read again
(`IsWhole.resemble_reread`).
-/

namespace Sweep

namespace Toml

mutual

/-- Whether items have the same values in their tables, and lists of tables at the same paths. -/
inductive Item.Resembles : Item → Item → Prop
  | value (v : Value) : Item.Resembles (.value v) (.value v)
  | table {o o' : Origin} {p p' : Option Nat} {es es' : Entries} (h : Entries.Resemble es es') :
    Item.Resembles (.table o p es) (.table o' p' es')
  | tables {ts ts' : List (Nat × Entries)} (h : ts ≠ []) (h' : ts' ≠ []) :
    Item.Resembles (.tables ts) (.tables ts')

/-- Whether entries have the same values, and lists of tables, behind the same keys. -/
inductive Entries.Resemble : Entries → Entries → Prop
  | intro {es es' : Entries}
    (h : ∀ k, Option.Rel Item.Resembles (lookup k es) (lookup k es')) : Entries.Resemble es es'

end

theorem Entries.Resemble.lookup {es es' : Entries} (h : Entries.Resemble es es') (k : Key) :
    Option.Rel Item.Resembles (lookup k es) (lookup k es') := by
  obtain ⟨h⟩ := h
  exact h k

/-- Only empty entries resemble those of an empty table. -/
theorem Entries.Resemble.eq_nil {es : Entries} (h : Entries.Resemble es []) : es = [] := by
  match es with
  | [] => rfl
  | (k, item) :: es =>
    have := h.lookup k
    simp only [Toml.lookup, if_true] at this
    cases this

end Toml

open Toml

variable {es es' : Entries} {i i' : Item} {ts : List (Nat × Entries)} {k : Key}

/-! ## Settings of documents that resemble each other -/

namespace Settings

/-- Whether what is read of items is the same if they resemble each other. -/
def Agrees {α : Type} (read : Value → Option α) : Prop :=
  ∀ i i' : Item, i.Resembles i' → read i.toValue = read i'.toValue

theorem Agrees.elim {α : Type} {read : Value → Option α} (hread : Agrees read)
    (h : Entries.Resemble es es') (k : Key) (default : Option α) :
    (lookup k (entriesToValues es)).elim default read =
      (lookup k (entriesToValues es')).elim default read := by
  rw [lookup_entriesToValues, lookup_entriesToValues]
  have hk := h.lookup k
  generalize lookup k es = old, lookup k es' = old' at hk
  cases hk with
  | none => rfl
  | some hi => exact hread _ _ hi

theorem agrees_texts? : Agrees texts? := by
  rintro _ _ (_ | _ | ⟨h, h'⟩)
  · rfl
  · rfl
  · rw [texts?_tables h, texts?_tables h']

theorem agrees_paths? : Agrees paths? := fun i i' h => by
  rw [paths?, paths?, agrees_texts? i i' h]

theorem agrees_flag? : Agrees flag? := by
  rintro _ _ (_ | _ | _) <;> rfl

theorem agrees_seconds? : Agrees seconds? := by
  rintro _ _ (_ | _ | _) <;> rfl

/-- The first member of a list of tables is a table. -/
theorem exists_toValue_tables (h : ts ≠ []) :
    ∃ es vs, (Item.tables ts).toValue = .array (.table false es :: vs) := by
  obtain ⟨ts, ⟨p, es⟩, rfl⟩ := (List.eq_nil_or_concat ts).resolve_left h
  have happend : elementsToValues (ts ++ [(p, es)]) =
      elementsToValues ts ++ [.table false (entriesToValues es)] := by
    clear h
    induction ts with
    | nil => rfl
    | cons t ts ih =>
      rw [List.cons_append, elementsToValues, elementsToValues, ih, List.cons_append]
  refine ⟨entriesToValues es, (elementsToValues ts).reverse, ?_⟩
  rw [List.concat_eq_append, Item.toValue, happend, List.reverse_append, List.reverse_singleton,
    List.singleton_append]

theorem policy?_tables (h : ts ≠ []) : policy? (Item.tables ts).toValue = none := by
  obtain ⟨es, vs, heq⟩ := exists_toValue_tables h
  rw [heq]
  rfl

theorem lifetime?_tables (h : ts ≠ []) : lifetime? (Item.tables ts).toValue = none := by
  obtain ⟨es, vs, heq⟩ := exists_toValue_tables h
  rw [heq]
  rfl

theorem agrees_policy? : Agrees policy? := by
  rintro _ _ (_ | h | ⟨h, h'⟩)
  · rfl
  · refine Option.ext fun p => ?_
    simp only [Item.toValue, policy?_table, agrees_paths?.elim h, agrees_texts?.elim h,
      agrees_flag?.elim h]
  · rw [policy?_tables h, policy?_tables h']

theorem agrees_lifetime? : Agrees lifetime? := by
  rintro _ _ (_ | h | ⟨h, h'⟩)
  · rfl
  · simp only [Item.toValue, lifetime?, member_table, agrees_seconds?.elim h]
  · rw [lifetime?_tables h, lifetime?_tables h']

/-- Documents that resemble each other give the same settings. -/
theorem ofDocument?_congr {doc doc' : Document} (h : Entries.Resemble doc doc') :
    ofDocument? doc = ofDocument? doc' := by
  simp only [ofDocument?, ofValue?, Document.toValue, member_table, agrees_policy?.elim h,
    agrees_lifetime?.elim h]

end Settings

/-! ## What comes back -/

namespace Toml

open Move

mutual

/-- Whether no table in an item, lists apart, is there without need. -/
def Item.IsNeeded : Item → Prop
  | .value _ | .tables _ => True
  | .table o _ es => (o = .header ∨ es ≠ []) ∧ entriesNeeded es

/-- Whether no table in some entries is there without need. -/
def entriesNeeded : Entries → Prop
  | [] => True
  | (_, item) :: es => item.IsNeeded ∧ entriesNeeded es

end

theorem entriesNeeded_iff : entriesNeeded es ↔ ∀ e ∈ es, e.2.IsNeeded := by
  induction es with
  | nil => simp [entriesNeeded]
  | cons e es ih => rw [entriesNeeded, ih, List.forall_mem_cons]

mutual

theorem Item.IsSound.isNeeded : (item : Item) → item.IsSound → item.IsNeeded
  | .value _, _ | .tables _, _ => trivial
  | .table _ _ es, ⟨hne, h⟩ => ⟨hne, entriesNeeded_of_sound es h⟩

theorem entriesNeeded_of_sound : (es : Entries) → entriesSound es → entriesNeeded es
  | [], _ => trivial
  | (_, item) :: es, ⟨_, hi, h⟩ => ⟨hi.isNeeded item, entriesNeeded_of_sound es h⟩

end

mutual

theorem Item.isNeeded_over : (item : Item) → item.IsNeeded → (old : Option Item) →
    (∀ i ∈ old, i.IsNeeded) → (item.over old).IsNeeded
  | .value _, _, _, _ => trivial
  | .table _ _ es, ⟨_, h⟩, some (.table _ _ _), ho =>
    ⟨(ho _ rfl).1.imp_right fun hne => overEntries_ne_nil (.inl hne),
      entriesNeeded_over es h (ho _ rfl).2⟩
  | .table _ _ _, h, none, _ | .table _ _ _, h, some (.value _), _
  | .table _ _ _, h, some (.tables _), _ => h
  | .tables _, _, none, _ | .tables _, _, some (.value _), _
  | .tables _, _, some (.table _ _ _), _ | .tables _, _, some (.tables _), _ => trivial

theorem entriesNeeded_over : (es : Entries) → entriesNeeded es → {olds : Entries} →
    entriesNeeded olds → entriesNeeded (overEntries olds es)
  | [], _, _, ho => ho
  | (k, item) :: es, ⟨hi, h⟩, olds, ho => by
    rw [overEntries]
    refine entriesNeeded_over es h (entriesNeeded_iff.2 fun e he => ?_)
    rcases mem_putItem he with rfl | he
    · exact item.isNeeded_over hi _ fun i hl => entriesNeeded_iff.1 ho _ (mem_of_lookup hl)
    · exact entriesNeeded_iff.1 ho e he

end

theorem runs_reach_isSome {ms : List Move} {old new : Option Item} (h : Runs reach ms old new)
    (hs : ms ≠ [] ∨ old.isSome = true) : new.isSome = true := by
  induction ms generalizing old with
  | nil =>
    obtain rfl : old = new := h
    exact hs.resolve_left (· rfl)
  | cons m ms ih =>
    obtain ⟨_, item, -, h⟩ := runs_reach_cons.1 h
    exact ih h (.inr rfl)

theorem runs_tables {ms : List Move} {old new : Option Item} (h : Runs reach ms old new)
    (ho : ∃ ts, old = some (.tables ts) ∧ ts ≠ []) : ∃ ts, new = some (.tables ts) ∧ ts ≠ [] := by
  induction ms generalizing old with
  | nil =>
    obtain rfl : old = new := h
    exact ho
  | cons m ms ih =>
    obtain ⟨_, item, hi, h⟩ := runs_reach_cons.1 h
    refine ih h ?_
    obtain ⟨_ | ⟨⟨p, es⟩, ts⟩, rfl, hne⟩ := ho
    · exact absurd rfl hne
    cases m with
    | table | value => cases hi
    | element k =>
      cases hi
      exact ⟨_, rfl, List.cons_ne_nil _ _⟩
    | through k m =>
      obtain ⟨es', -, rfl⟩ := Option.map_eq_some_iff.1 hi
      exact ⟨_, rfl, List.cons_ne_nil _ _⟩
    | dotted k m =>
      rw [touch] at hi
      split at hi
      · cases hi
      · obtain ⟨es', -, rfl⟩ := Option.map_eq_some_iff.1 hi
        exact ⟨_, rfl, List.cons_ne_nil _ _⟩

/-- Where a table of a list is made, there is a list in the end. -/
theorem runs_element {ms : List Move} {old new : Option Item} (hm : element k ∈ ms)
    (h : Runs reach ms old new) : ∃ ts, new = some (.tables ts) ∧ ts ≠ [] := by
  induction ms generalizing old with
  | nil => cases hm
  | cons m ms ih =>
    obtain ⟨_, item, hi, hruns⟩ := runs_reach_cons.1 h
    rcases List.mem_cons.1 hm with rfl | hm
    · refine runs_tables hruns ?_
      match old with
      | none | some (.tables _) =>
        cases hi
        exact ⟨_, rfl, List.cons_ne_nil _ _⟩
      | some (.table _ _ _) | some (.value _) => cases hi
    · exact ih hm hruns

namespace IsReread

/-- A table of a header comes back even if it is empty. -/
theorem lookup_header {p : Option Nat} {sub : Entries} (hk : (es.map Prod.fst).Nodup)
    (h : IsReread es es') (hl : lookup k es = some (.table .header p sub)) :
    lookup k es' ≠ none := by
  obtain ⟨here, last, hruns⟩ := h.runs hk k
  rw [hl, Option.elim_some, itemMoves_table (by simp)] at hruns
  have hmem : (p.getD last, Move.table k) ∈ inPlaces Prod.fst ([(p.getD last, Move.table k)] ++
      movesThrough k (entryMoves (p.getD last) (p.getD last) sub)) :=
    mem_inPlaces.2 List.mem_cons_self
  simp only [reduceCtorEq, false_and, if_false] at hruns
  refine Option.isSome_iff_ne_none.1 (runs_reach_isSome hruns (.inl fun hnil => ?_))
  rw [List.map_eq_nil_iff.1 hnil] at hmem
  cases hmem

theorem lookup_tables (hk : (es.map Prod.fst).Nodup) (h : IsReread es es')
    (hl : lookup k es = some (.tables ts)) (hne : ts ≠ []) :
    ∃ ts', lookup k es' = some (.tables ts') ∧ ts' ≠ [] := by
  obtain ⟨here, last, hruns⟩ := h.runs hk k
  obtain ⟨⟨p, sub⟩, ts, rfl⟩ := List.exists_cons_of_ne_nil hne
  rw [hl, Option.elim_some, itemMoves_tables] at hruns
  refine runs_element (k := k) ?_ hruns
  have hmem : (p, element k) ∈ itemMoves here last k (.tables ts) ++
      (p, element k) :: movesThrough k (entryMoves p p sub) :=
    List.mem_append_right _ List.mem_cons_self
  exact List.mem_map_of_mem (mem_inPlaces.2 hmem)

end IsReread

/-- Entries come back alike if all items behind their keys do. -/
theorem resemble_of_entries (hk : entriesKeyed es) (h : IsReread es es')
    (hes : ∀ e ∈ es, ∀ {all all' : Entries}, (all.map Prod.fst).Nodup → IsReread all all' →
      lookup e.1 all = some e.2 → ∃ i, lookup e.1 all' = some i ∧ e.2.Resembles i) :
    Entries.Resemble es es' := by
  have hnodup := (entriesKeyed_iff.1 hk).1
  refine .intro fun k => ?_
  cases hl : lookup k es with
  | none =>
    rw [h.lookup_eq_none hnodup hl]
    exact .none
  | some item =>
    obtain ⟨i, hi, hr⟩ := hes _ (mem_of_lookup hl) hnodup h hl
    rw [hi]
    exact .some hr

mutual

theorem Item.resembles_of_isReread : (item : Item) → item.IsKeyed → item.IsNeeded →
    {es es' : Entries} → {k : Key} → (es.map Prod.fst).Nodup → IsReread es es' →
    lookup k es = some item → ∃ i, lookup k es' = some i ∧ item.Resembles i
  | .value v, _, _, _, _, _, hk, h, hl => ⟨_, h.lookup_value hk hl, .value v⟩
  | .table o p sub, hks, ⟨hne, hn⟩, _, es', k, hk, h, hl => by
    obtain ⟨sub', ht, hr⟩ := h.lookup_table hk hl
    have hsub := resemble_of_entries hks hr (entries_of_isReread sub hks hn)
    rcases ht with ⟨hnone, rfl⟩ | ⟨o', p', ht⟩
    · obtain rfl := hne.resolve_right (not_not.2 hsub.eq_nil)
      exact absurd hnone (h.lookup_header hk hl)
    · exact ⟨_, ht, .table hsub⟩
  | .tables ts, hne, _, _, _, _, hk, h, hl => by
    obtain ⟨ts', ht, hne'⟩ := h.lookup_tables hk hl hne
    exact ⟨_, ht, .tables hne hne'⟩

theorem entries_of_isReread : (es : Entries) → entriesKeyed es → entriesNeeded es → ∀ e ∈ es,
    ∀ {all all' : Entries}, (all.map Prod.fst).Nodup → IsReread all all' →
    lookup e.1 all = some e.2 → ∃ i, lookup e.1 all' = some i ∧ e.2.Resembles i
  | [], _, _ => by simp
  | (_, item) :: es, ⟨_, hki, hk⟩, ⟨hni, hn⟩ => by
    rw [List.forall_mem_cons]
    exact ⟨item.resembles_of_isReread hki hni, entries_of_isReread es hk hn⟩

end

/-- A document in which no key is twice in a table, and no table is there without need, tables of
lists apart. -/
structure Document.IsWhole (doc : Document) : Prop where
  isKeyed : doc.IsKeyed
  isNeeded : entriesNeeded doc

namespace Document

variable {doc later : Document}

theorem isWhole_nil : IsWhole [] := ⟨trivial, trivial⟩

theorem IsSound.isWhole (h : doc.IsSound) : doc.IsWhole :=
  ⟨h.isKeyed, entriesNeeded_of_sound doc h⟩

theorem IsWhole.merge (h : doc.IsWhole) (hl : later.IsWhole) : (doc.merge later).IsWhole :=
  ⟨isKeyed_merge hl.isKeyed h.isKeyed, entriesNeeded_over later hl.isNeeded h.isNeeded⟩

/-- What comes back of a document resembles it. -/
theorem IsWhole.resemble_reread (hw : doc.IsWhole) {doc' : Document}
    (h : doc.reread? = some doc') : Entries.Resemble doc doc' :=
  resemble_of_entries hw.isKeyed (isReread h) (entries_of_isReread doc hw.isKeyed hw.isNeeded)

end Document

end Toml

end Sweep
