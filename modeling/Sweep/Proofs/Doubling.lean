import Sweep.Proofs.Merging
import Sweep.Proofs.Tidy
/-!
# Documents laid over themselves

A document that is laid over another twice changes nothing the second time but lists of tables: the
tables that it has there stand there once more (`Document.double_merge`). They still do, or all of
them are gone, when other documents are laid over both (`Entries.DoubleIf.over`).
-/

namespace Sweep.Toml

variable {k : Key} {es es' olds : Entries} {ts : List (Nat × Entries)} {b c : Bool}

/-! ## Lists without headers -/

mutual

/-- Whether no table in an item has a header, tables of lists apart. -/
def Item.isFlat : Item → Bool
  | .value _ => true
  | .table o _ es => o != .header && entriesFlat es
  | .tables ts => elementsFlat ts

/-- Whether no table in some entries has a header. -/
def entriesFlat : Entries → Bool
  | [] => true
  | (_, item) :: es => item.isFlat && entriesFlat es

/-- Whether no table in the tables of a list has a header. -/
def elementsFlat : List (Nat × Entries) → Bool
  | [] => true
  | (_, es) :: ts => entriesFlat es && elementsFlat ts

end

mutual

/-- Whether no table in the lists of an item has a header. -/
def Item.listsFlat : Item → Bool
  | .value _ => true
  | .table _ _ es => entriesListsFlat es
  | .tables ts => elementsFlat ts

/-- Whether no table in the lists of some entries has a header. -/
def entriesListsFlat : Entries → Bool
  | [] => true
  | (_, item) :: es => item.listsFlat && entriesListsFlat es

end

/-- Whether no table in the lists of a document has a header, the tables of lists apart. -/
def Document.listsFlat (doc : Document) : Bool := entriesListsFlat doc

theorem entriesListsFlat_iff : entriesListsFlat es = true ↔ ∀ e ∈ es, e.2.listsFlat = true := by
  induction es with
  | nil => simp [entriesListsFlat]
  | cons e es ih => rw [entriesListsFlat, Bool.and_eq_true, ih, List.forall_mem_cons]

/-! ## Items with tables that stand there twice -/

mutual

/-- Whether one item is the other but for tables of lists that stand there twice, and whether no
table in those has a header. -/
inductive Item.Doubles : Bool → Item → Item → Prop
  | value (v : Value) : Item.Doubles true (.value v) (.value v)
  | table {b : Bool} (o : Origin) (p : Option Nat) {es es' : Entries}
    (h : Entries.Double b es es') : Item.Doubles b (.table o p es) (.table o p es')
  | tables (ts : List (Nat × Entries)) : Item.Doubles true (.tables ts) (.tables ts)
  | twice (later ts earlier : List (Nat × Entries)) {n : Nat} (ht : elementsTidy n ts)
    (hp : (elementsPlaces ts).Nodup) : Item.Doubles (elementsFlat ts)
      (.tables (later ++ (ts ++ earlier))) (.tables (later ++ (ts ++ (ts ++ earlier))))

/-- Whether entries are others but for tables of lists that stand there twice, and whether no table
in those has a header. -/
inductive Entries.Double : Bool → Entries → Entries → Prop
  | nil : Entries.Double true [] []
  | cons {b c : Bool} (k : Key) {i i' : Item} {es es' : Entries} (hi : Item.Doubles b i i')
    (h : Entries.Double c es es') : Entries.Double (b && c) ((k, i) :: es) ((k, i') :: es')

end

mutual

theorem Item.Doubles.refl : (item : Item) → Item.Doubles true item item
  | .value v => .value v
  | .table o p es => .table o p (Entries.Double.refl es)
  | .tables ts => .tables ts

theorem Entries.Double.refl : (es : Entries) → Entries.Double true es es
  | [] => .nil
  | (k, item) :: es => .cons k (Item.Doubles.refl item) (Entries.Double.refl es)

end

/-! ## A document laid over another twice -/

theorem keys_putItem {item : Item} (h : k ∈ es.map Prod.fst) :
    (putItem k item es).map Prod.fst = es.map Prod.fst := by
  induction es with
  | nil => cases h
  | cons e es ih =>
    obtain ⟨j, i⟩ := e
    rw [putItem]
    split
    · rfl
    · next hj =>
      rw [List.map_cons, List.map_cons, ih]
      exact (List.mem_cons.1 h).resolve_left (Ne.symm hj)

theorem keys_overEntries (h : ∀ e ∈ es, e.1 ∈ olds.map Prod.fst) :
    (overEntries olds es).map Prod.fst = olds.map Prod.fst := by
  induction es generalizing olds with
  | nil => rfl
  | cons e es ih =>
    rw [List.forall_mem_cons] at h
    rw [overEntries, ih, keys_putItem h.1]
    rw [keys_putItem h.1]
    exact h.2

/-- Entries with the same keys are doubled if the items behind each key are. -/
theorem Entries.Double.of_lookup {flat : Key → Bool} (hk : es'.map Prod.fst = es.map Prod.fst)
    (hn : (es.map Prod.fst).Nodup) (h : ∀ k, ∀ i ∈ lookup k es, ∃ i', lookup k es' = some i' ∧
      Item.Doubles (flat k) i i') : Entries.Double (es.all fun e => flat e.1) es es' := by
  induction es generalizing es' with
  | nil =>
    obtain rfl := List.map_eq_nil_iff.1 hk
    exact .nil
  | cons e es ih =>
    obtain ⟨k, i⟩ := e
    obtain ⟨⟨j, i'⟩, es', rfl, hj, htail⟩ := List.map_eq_cons_iff.1 hk
    obtain rfl : j = k := hj
    rw [List.map_cons, List.nodup_cons] at hn
    refine .cons j ?_ (ih htail hn.2 fun k i hi => ?_)
    · obtain ⟨i', hl, hi⟩ := h j i (if_pos rfl)
      obtain rfl := Option.some.inj ((if_pos rfl).symm.trans hl)
      exact hi
    · have hne : j ≠ k := by
        rintro rfl
        exact hn.1 (List.mem_map.2 ⟨_, mem_of_lookup hi, rfl⟩)
      have hl := h k i
      simp only [lookup, if_neg hne] at hl
      exact hl hi

/-- What is laid over entries twice doubles them if what is behind each key does. -/
theorem double_over (hk : (es.map Prod.fst).Nodup) (ho : entriesKeyed olds)
    (h : ∀ e ∈ es, ∀ old, (∀ i ∈ old, i.IsKeyed) →
      Item.Doubles e.2.listsFlat (e.2.over old) (e.2.over (some (e.2.over old)))) :
    Entries.Double (entriesListsFlat es) (overEntries olds es)
      (overEntries (overEntries olds es) es) := by
  let flat (k : Key) : Bool := (lookup k es).elim true Item.listsFlat
  have hmem : ∀ e ∈ es, e.1 ∈ (overEntries olds es).map Prod.fst := fun e he => by
    have hne : lookup e.1 (overEntries olds es) ≠ none := by
      rw [lookup_overEntries hk, lookup_of_mem hk he]
      exact Option.some_ne_none _
    exact not_not.1 (mt lookup_eq_none_iff.2 hne)
  have hflat : entriesListsFlat es = (overEntries olds es).all fun e => flat e.1 := by
    rw [Bool.eq_iff_iff, entriesListsFlat_iff, List.all_eq_true]
    constructor
    · intro hes e _
      cases hl : lookup e.1 es with
      | none => simp [flat, hl]
      | some item => simpa [flat, hl] using hes _ (mem_of_lookup hl)
    · intro hall e he
      obtain ⟨d, hd, hkey⟩ := List.mem_map.1 (hmem e he)
      have hd := hall d hd
      simpa [flat, hkey, lookup_of_mem hk he] using hd
  rw [hflat]
  obtain ⟨hko, ho⟩ := entriesKeyed_iff.1 ho
  refine .of_lookup (keys_overEntries hmem) (nodup_overEntries hko) fun k i hi => ?_
  rw [Option.mem_def, lookup_overEntries hk] at hi
  rw [lookup_overEntries hk, lookup_overEntries hk]
  cases hl : lookup k es with
  | none =>
    simp only [hl] at hi
    have htrue : flat k = true := by simp [flat, hl]
    rw [htrue]
    exact ⟨i, hi, .refl i⟩
  | some item =>
    simp only [hl, Option.some.injEq] at hi
    have hfl : flat k = item.listsFlat := by simp [flat, hl]
    rw [hfl, ← hi]
    exact ⟨_, rfl, h _ (mem_of_lookup hl) _ fun i hi => ho _ (mem_of_lookup hi)⟩

theorem putItem_of_not_mem {item : Item} (h : k ∉ es.map Prod.fst) :
    putItem k item es = es ++ [(k, item)] := by
  induction es with
  | nil => rfl
  | cons e es ih =>
    rw [List.map_cons, List.mem_cons, not_or] at h
    rw [putItem, if_neg (Ne.symm h.1), ih h.2, List.cons_append]

theorem Item.over_none (item : Item) : item.over none = item := by cases item <;> rfl

/-- Entries with keys that are not there yet go to the end. -/
theorem overEntries_eq_append (h : ((olds ++ es).map Prod.fst).Nodup) :
    overEntries olds es = olds ++ es := by
  induction es generalizing olds with
  | nil => exact (List.append_nil olds).symm
  | cons e es ih =>
    obtain ⟨k, item⟩ := e
    have hk : k ∉ olds.map Prod.fst := fun hm => by
      rw [List.map_append, List.nodup_append] at h
      exact h.2.2 k hm k (by simp) rfl
    rw [overEntries, lookup_eq_none_iff.2 hk, item.over_none, putItem_of_not_mem hk, ih]
    · simp
    · simpa using h

theorem overEntries_nil (hk : (es.map Prod.fst).Nodup) : overEntries [] es = es :=
  overEntries_eq_append hk

theorem Item.IsTidy.exists_entries {n m : Nat} : {o : Origin} → {p : Option Nat} →
    (Item.table o p es).IsTidy n m → ∃ m, entriesTidy n m es
  | .header, _, ⟨_, _, h⟩ => ⟨0, h⟩
  | .implied, _, ⟨_, h⟩ => ⟨0, h 0⟩
  | .dotted, _, ⟨_, h⟩ => ⟨m, h⟩

mutual

theorem Item.doubles_over : (item : Item) → item.IsKeyed → {n m : Nat} → item.IsTidy n m →
    item.places.Nodup → (old : Option Item) → (∀ i ∈ old, i.IsKeyed) →
    Item.Doubles item.listsFlat (item.over old) (item.over (some (item.over old)))
  | .value v, _, _, _, _, _, _, _ => .value v
  | .table _ _ es, hk, _, _, ht, hp, some (.table o p olds), ho => by
    obtain ⟨m, ht⟩ := ht.exists_entries
    have hes := entries_double_over es hk ht (List.nodup_append.1 hp).2.1
    exact .table o p (double_over (entriesKeyed_iff.1 hk).1 (ho _ rfl) hes)
  | .table o p es, hk, _, _, ht, hp, none, _ | .table o p es, hk, _, _, ht, hp, some (.value _), _
  | .table o p es, hk, _, _, ht, hp, some (.tables _), _ => by
    obtain ⟨m, ht⟩ := ht.exists_entries
    have hes := entries_double_over es hk ht (List.nodup_append.1 hp).2.1
    have hnodup := (entriesKeyed_iff.1 hk).1
    have hnil : entriesKeyed [] := trivial
    have hdouble := double_over hnodup hnil hes
    rw [overEntries_nil hnodup] at hdouble
    exact .table o p hdouble
  | .tables ts, _, _, _, ⟨_, ht⟩, hp, some (.tables olds), _ => .twice [] ts olds ht hp
  | .tables ts, _, _, _, ⟨_, ht⟩, hp, none, _ | .tables ts, _, _, _, ⟨_, ht⟩, hp, some (.value _), _
  | .tables ts, _, _, _, ⟨_, ht⟩, hp, some (.table _ _ _), _ => by
    have htwice := Item.Doubles.twice [] ts [] ht hp
    rw [List.append_nil] at htwice
    exact htwice

theorem entries_double_over : (es : Entries) → entriesKeyed es → {n m : Nat} →
    entriesTidy n m es → (entriesPlaces es).Nodup → ∀ e ∈ es, ∀ old, (∀ i ∈ old, i.IsKeyed) →
    Item.Doubles e.2.listsFlat (e.2.over old) (e.2.over (some (e.2.over old)))
  | [], _, _, _, _, _ => by simp
  | (_, item) :: es, ⟨_, hki, hk⟩, _, _, ⟨hti, ht⟩, hp => by
    obtain ⟨hpi, hp, -⟩ := List.nodup_append.1 hp
    rw [List.forall_mem_cons]
    exact ⟨item.doubles_over hki hti hpi, entries_double_over es hk ht hp⟩

end

/-- A document that is laid over another a second time doubles the tables in its lists. -/
theorem Document.double_merge {doc later : Document} (hd : doc.IsKeyed) (hk : later.IsKeyed)
    (ht : later.IsTidy) :
    Entries.Double later.listsFlat (doc.merge later) ((doc.merge later).merge later) :=
  double_over (entriesKeyed_iff.1 hk).1 hd (entries_double_over later hk ht.entries ht.places)

/-! ## What is laid over both -/

/-- Whether one item is the other but for tables of lists that stand there twice, and no table in
those has a header if `b` is true. -/
def Item.DoublesIf (b : Bool) (i i' : Item) : Prop :=
  ∃ c, (b = true → c = true) ∧ Item.Doubles c i i'

/-- Whether entries are others but for tables of lists that stand there twice, and no table in those
has a header if `b` is true. -/
def Entries.DoubleIf (b : Bool) (es es' : Entries) : Prop :=
  ∃ c, (b = true → c = true) ∧ Entries.Double c es es'

theorem Item.DoublesIf.refl (b : Bool) (item : Item) : item.DoublesIf b item :=
  ⟨true, fun _ => rfl, .refl item⟩

theorem Entries.doubleIf_cons {i i' : Item} : Entries.DoubleIf b ((k, i) :: es) ((k, i') :: es') ↔
    i.DoublesIf b i' ∧ Entries.DoubleIf b es es' := by
  constructor
  · rintro ⟨c, hc, h⟩
    cases h with
    | cons _ hi h =>
      simp only [Bool.and_eq_true] at hc
      exact ⟨⟨_, fun hb => (hc hb).1, hi⟩, ⟨_, fun hb => (hc hb).2, h⟩⟩
  · rintro ⟨⟨c, hc, hi⟩, ⟨d, hd, h⟩⟩
    exact ⟨c && d, fun hb => by rw [hc hb, hd hb, Bool.and_self], .cons k hi h⟩

theorem Entries.DoubleIf.induct {P : Entries → Entries → Prop} (hnil : P [] [])
    (hcons : ∀ k i i' es es', i.DoublesIf b i' → Entries.DoubleIf b es es' → P es es' →
      P ((k, i) :: es) ((k, i') :: es')) (h : Entries.DoubleIf b es es') : P es es' := by
  induction es generalizing es' with
  | nil =>
    obtain ⟨_, -, ⟨⟩⟩ := h
    exact hnil
  | cons e es ih =>
    obtain ⟨c, hc, hd⟩ := h
    cases hd with
    | cons k hi hes =>
      obtain ⟨hi, hes⟩ := Entries.doubleIf_cons.1 ⟨_, hc, .cons k hi hes⟩
      exact hcons k _ _ _ _ hi hes (ih hes)

namespace Entries.DoubleIf

theorem lookup (h : Entries.DoubleIf b es es') (k : Key) :
    Option.Rel (Item.DoublesIf b) (Toml.lookup k es) (Toml.lookup k es') := by
  refine Entries.DoubleIf.induct
    (P := fun es es' => Option.Rel (Item.DoublesIf b) (Toml.lookup k es) (Toml.lookup k es'))
    .none (fun j i i' es es' hi _ ih => ?_) h
  simp only [Toml.lookup]
  split
  · exact .some hi
  · exact ih

theorem putItem {i i' : Item} (h : Entries.DoubleIf b es es') (hi : i.DoublesIf b i') :
    Entries.DoubleIf b (putItem k i es) (Toml.putItem k i' es') := by
  refine Entries.DoubleIf.induct
    (P := fun es es' => Entries.DoubleIf b (Toml.putItem k i es) (Toml.putItem k i' es'))
    (Entries.doubleIf_cons.2 ⟨hi, true, fun _ => rfl, .nil⟩)
    (fun j old old' es es' ho h ih => ?_) h
  simp only [Toml.putItem]
  split
  · exact Entries.doubleIf_cons.2 ⟨hi, h⟩
  · exact Entries.doubleIf_cons.2 ⟨ho, ih⟩

end Entries.DoubleIf

mutual

theorem Item.DoublesIf.over : (item : Item) → {b : Bool} → {old old' : Option Item} →
    Option.Rel (Item.DoublesIf b) old old' → (item.over old).DoublesIf b (item.over old')
  | .value v, b, _, _, _ => .refl b (.value v)
  | .table o p es, b, none, none, _ => .refl b (.table o p es)
  | .table o p es, b, some _, some _, .some ⟨c, hc, h⟩ => by
    cases h with
    | value | tables | twice => exact .refl b (.table o p es)
    | table o' p' h =>
      obtain ⟨d, hd, h⟩ := Entries.DoubleIf.over es ⟨c, hc, h⟩
      exact ⟨d, hd, .table o' p' h⟩
  | .tables ts, b, none, none, _ => .refl b (.tables ts)
  | .tables ts, b, some _, some _, .some ⟨c, hc, h⟩ => by
    cases h with
    | value | table => exact .refl b (.tables ts)
    | tables olds => exact .refl b (.tables (ts ++ olds))
    | twice later mid earlier ht hp =>
      refine ⟨_, hc, ?_⟩
      have htwice := Item.Doubles.twice (ts ++ later) mid earlier ht hp
      simp only [List.append_assoc] at htwice
      exact htwice

theorem Entries.DoubleIf.over : (es : Entries) → {b : Bool} → {olds olds' : Entries} →
    Entries.DoubleIf b olds olds' → Entries.DoubleIf b (overEntries olds es) (overEntries olds' es)
  | [], _, _, _, h => h
  | (k, item) :: es, _, _, _, h => by
    rw [overEntries, overEntries]
    exact Entries.DoubleIf.over es (h.putItem (Item.DoublesIf.over item (h.lookup k)))

end

end Sweep.Toml
