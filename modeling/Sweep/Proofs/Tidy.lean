import Sweep.Proofs.Blocks
import Sweep.Proofs.Layout
import Mathlib.Data.List.Nodup
/-!
# Documents as reading makes them

In a document that was read each header has a number of its own, tables without a header of their
own have no values unless keys with dots made them, and no path of a header, and no path of keys
from a header to a value, is too long (`isTidy_of_parse?`). So all statements that write it down are
short enough to be read again (`IsTidy.hasKeys_of_mem_statements`).
-/

namespace Sweep.Toml

mutual

/-- Whether an item is as reading makes it, `n` keys away from the document itself and `m` from the
table of the last header. -/
def Item.IsTidy (n m : Nat) : Item → Prop
  | .value _ => m ≤ depthLimit
  | .table .header place es => place.isSome = true ∧ n ≤ depthLimit ∧ entriesTidy n 0 es
  | .table .implied place es => place = none ∧ ∀ m, entriesTidy n m es
  | .table .dotted place es => place = none ∧ entriesTidy n m es
  | .tables ts => n ≤ depthLimit ∧ elementsTidy n ts

/-- Whether the entries of a table are as reading makes them. -/
def entriesTidy (n m : Nat) : Entries → Prop
  | [] => True
  | (_, item) :: es => item.IsTidy (n + 1) (m + 1) ∧ entriesTidy n m es

/-- Whether the tables of a list are as reading makes them. -/
def elementsTidy (n : Nat) : List (Nat × Entries) → Prop
  | [] => True
  | (_, es) :: ts => entriesTidy n 0 es ∧ elementsTidy n ts

end

mutual

/-- The numbers of the headers in an item. -/
def Item.places : Item → List Nat
  | .value _ => []
  | .table _ place es => place.toList ++ entriesPlaces es
  | .tables ts => elementsPlaces ts

/-- The numbers of the headers in some entries. -/
def entriesPlaces : Entries → List Nat
  | [] => []
  | (_, item) :: es => item.places ++ entriesPlaces es

/-- The numbers of the headers in the tables of a list, and of the tables themselves. -/
def elementsPlaces : List (Nat × Entries) → List Nat
  | [] => []
  | (place, es) :: ts => place :: (entriesPlaces es ++ elementsPlaces ts)

end

/-- A document as reading makes it. -/
structure Document.IsTidy (doc : Document) : Prop where
  entries : entriesTidy 0 0 doc
  places : (entriesPlaces doc).Nodup

variable {n m : Nat} {k : Key} {es es' : Entries} {ts : List (Nat × Entries)}
  {values : List Statement}

theorem entriesTidy_iff : entriesTidy n m es ↔ ∀ e ∈ es, e.2.IsTidy (n + 1) (m + 1) := by
  induction es with
  | nil => simp [entriesTidy]
  | cons e es ih => rw [entriesTidy, ih, List.forall_mem_cons]

namespace Document

/-! ## Reading keeps documents tidy -/

/-- Whether a change keeps entries tidy. -/
def KeepsTidy (n m : Nat) (f : Entries → Option Entries) : Prop :=
  ∀ es es', entriesTidy n m es → f es = some es' → entriesTidy n m es'

/-- Whether a change keeps an item tidy. -/
def ItemKeepsTidy (n m : Nat) (f : Option Item → Option Item) : Prop :=
  ∀ old item, (∀ i ∈ old, i.IsTidy n m) → f old = some item → item.IsTidy n m

theorem keepsTidy_alter {f : Option Item → Option Item} (hf : ItemKeepsTidy (n + 1) (m + 1) f) :
    KeepsTidy n m (alter k f) := by
  intro es es' h he
  obtain ⟨item, hi, rfl⟩ := alter_eq_some_iff.1 he
  rw [entriesTidy_iff] at h ⊢
  intro e hm
  rcases mem_putItem hm with rfl | hm
  · exact hf _ item (fun i hl => h _ (mem_of_lookup hl)) hi
  · exact h e hm

variable {f : Entries → Option Entries}

/-- A list of tables counts from its own header, which is nearer. -/
theorem itemKeepsTidy_inside (path : List Key) (hf : ∀ l ≤ m, KeepsTidy n l f) :
    ItemKeepsTidy n m (inside path f) := by
  intro old item ho hi
  match old with
  | none =>
    obtain ⟨sub, hsub, rfl⟩ := Option.map_eq_some_iff.1 hi
    have hnil : entriesTidy n m [] := trivial
    exact ⟨rfl, hf m le_rfl [] sub hnil hsub⟩
  | some (.table .implied _ _) =>
    -- There are no values in the table yet, so it may count from any header.
    obtain ⟨sub, hsub, rfl⟩ := Option.map_eq_some_iff.1 hi
    obtain ⟨hplace, ht⟩ := ho _ rfl
    exact ⟨hplace, hf m le_rfl _ sub (ht m) hsub⟩
  | some (.table .dotted _ _) =>
    obtain ⟨sub, hsub, rfl⟩ := Option.map_eq_some_iff.1 hi
    obtain ⟨hplace, ht⟩ := ho _ rfl
    exact ⟨hplace, hf m le_rfl _ sub ht hsub⟩
  | some (.tables ((_, _) :: _)) =>
    simp only [inside, alterLatest, Option.map_map] at hi
    split at hi
    · cases hi
    · obtain ⟨sub, hsub, rfl⟩ := Option.map_eq_some_iff.1 hi
      obtain ⟨hn, ht, hts⟩ := ho _ rfl
      exact ⟨hn, hf 0 (Nat.zero_le m) _ sub ht hsub, hts⟩
  | some (.tables []) => simp [inside, alterLatest] at hi
  | some (.table .header _ _) | some (.value _) => cases hi

theorem keepsTidy_assign {path : List Key} (key : Key) (v : Value)
    (hp : m + (path.length + 1) ≤ depthLimit) : KeepsTidy n m (assign path key v) := by
  induction path generalizing n m with
  | nil =>
    refine keepsTidy_alter fun old item _ hi => ?_
    split at hi
    · cases hi
      exact hp
    · cases hi
  | cons k path ih =>
    rw [List.length_cons] at hp
    rw [assign_cons]
    exact keepsTidy_alter (itemKeepsTidy_inside path fun l hl => ih (by omega))

theorem keepsTidy_fill (values : List Statement) : KeepsTidy n 0 (fill values) := by
  intro es es' h he
  induction values generalizing es with
  | nil =>
    cases he
    exact h
  | cons s values ih =>
    cases s with
    | header | element => cases he
    | assign p v =>
      rw [fill] at he
      split at he
      · cases he
      · next way key hp =>
        obtain ⟨rfl, hn⟩ := eq_of_splitPath? hp
        rw [List.length_append, List.length_singleton] at hn
        obtain ⟨sub, hsub, he⟩ := Option.bind_eq_some_iff.1 he
        exact ih sub (keepsTidy_assign key v (by omega) es sub h hsub) he

theorem itemKeepsTidy_below (hf : ∀ m, KeepsTidy n m f) : ItemKeepsTidy n m (below f) := by
  intro old item ho hi
  match old with
  | none =>
    obtain ⟨sub, hsub, rfl⟩ := Option.map_eq_some_iff.1 hi
    exact ⟨rfl, fun m => hf m [] sub trivial hsub⟩
  | some (.table .header _ _) =>
    obtain ⟨sub, hsub, rfl⟩ := Option.map_eq_some_iff.1 hi
    obtain ⟨hplace, hn, ht⟩ := ho _ rfl
    exact ⟨hplace, hn, hf 0 _ sub ht hsub⟩
  | some (.table .implied _ _) =>
    obtain ⟨sub, hsub, rfl⟩ := Option.map_eq_some_iff.1 hi
    obtain ⟨hplace, ht⟩ := ho _ rfl
    exact ⟨hplace, fun m => hf m _ sub (ht m) hsub⟩
  | some (.table .dotted _ _) =>
    obtain ⟨sub, hsub, rfl⟩ := Option.map_eq_some_iff.1 hi
    obtain ⟨hplace, ht⟩ := ho _ rfl
    exact ⟨hplace, hf m _ sub ht hsub⟩
  | some (.tables ((_, _) :: _)) =>
    simp only [below, alterLatest, Option.map_map] at hi
    obtain ⟨sub, hsub, rfl⟩ := Option.map_eq_some_iff.1 hi
    obtain ⟨hn, ht, hts⟩ := ho _ rfl
    exact ⟨hn, hf 0 _ sub ht hsub, hts⟩
  | some (.tables []) | some (.value _) => cases hi

theorem keepsTidy_within (path : List Key) (hf : ∀ m, KeepsTidy (n + path.length) m f) (m : Nat) :
    KeepsTidy n m (within path f) := by
  induction path generalizing n m with
  | nil => exact hf m
  | cons k path ih =>
    rw [List.length_cons, Nat.add_comm path.length, ← Nat.add_assoc] at hf
    rw [within_cons]
    exact keepsTidy_alter (itemKeepsTidy_below (ih hf))

theorem itemKeepsTidy_opened (hn : n ≤ depthLimit) (hf : KeepsTidy n 0 f) (place : Nat)
    (s : Statement) : ItemKeepsTidy n m (opened place f s) := by
  intro old item ho hi
  have hnil : entriesTidy n 0 [] := trivial
  cases s with
  | assign => cases hi
  | header p =>
    match old with
    | none =>
      obtain ⟨sub, hsub, rfl⟩ := Option.map_eq_some_iff.1 hi
      exact ⟨rfl, hn, hf [] sub hnil hsub⟩
    | some (.table .implied _ _) =>
      obtain ⟨sub, hsub, rfl⟩ := Option.map_eq_some_iff.1 hi
      exact ⟨rfl, hn, hf _ sub ((ho _ rfl).2 0) hsub⟩
    | some (.table .header _ _) | some (.table .dotted _ _) | some (.tables _)
    | some (.value _) => cases hi
  | element p =>
    match old with
    | none =>
      obtain ⟨sub, hsub, rfl⟩ := Option.map_eq_some_iff.1 hi
      exact ⟨hn, hf [] sub hnil hsub, trivial⟩
    | some (.tables _) =>
      obtain ⟨sub, hsub, rfl⟩ := Option.map_eq_some_iff.1 hi
      exact ⟨hn, hf [] sub hnil hsub, (ho _ rfl).2⟩
    | some (.table _ _ _) | some (.value _) => cases hi

theorem keepsTidy_block (place : Nat) (values : List Statement) (s : Statement) :
    KeepsTidy 0 m (block place (fill values) s) := by
  intro doc doc' h hd
  rw [block] at hd
  split at hd
  · cases hd
  · next way key hp =>
    obtain ⟨hkeys, hn⟩ := eq_of_splitPath? hp
    rw [hkeys, List.length_append, List.length_singleton] at hn
    have hopened (m : Nat) : ItemKeepsTidy (0 + way.length + 1) (m + 1)
        (opened place (fill values) s) :=
      itemKeepsTidy_opened (by omega) (keepsTidy_fill values) place s
    exact keepsTidy_within way (fun m => keepsTidy_alter (hopened m)) m doc doc' h hd

/-! ## Each header has a number of its own -/

/-- Whether a change brings no numbers of headers but some. -/
def Brings (places : List Nat) (f : Entries → Option Entries) : Prop :=
  ∀ es es', f es = some es' → ∀ p,
    (entriesPlaces es').count p ≤ places.count p + (entriesPlaces es).count p

/-- Whether a change of an item brings no numbers of headers but some. -/
def ItemBrings (places : List Nat) (f : Option Item → Option Item) : Prop :=
  ∀ old item, f old = some item → ∀ p,
    item.places.count p ≤ places.count p + (old.elim [] Item.places).count p

variable {places : List Nat}

theorem brings_alter {f : Option Item → Option Item} (hf : ItemBrings places f) :
    Brings places (alter k f) := by
  intro es es' he p
  induction es generalizing es' with
  | nil =>
    obtain ⟨item, hi, rfl⟩ := Option.map_eq_some_iff.1 he
    simpa [entriesPlaces] using hf none item hi p
  | cons e es ih =>
    obtain ⟨j, old⟩ := e
    rw [alter] at he
    split at he
    · obtain ⟨item, hi, rfl⟩ := Option.map_eq_some_iff.1 he
      have hitem := hf _ item hi p
      simp only [entriesPlaces, List.count_append, Option.elim_some] at hitem ⊢
      omega
    · obtain ⟨es₁, hes, rfl⟩ := Option.map_eq_some_iff.1 he
      have hrest := ih es₁ hes
      simp only [entriesPlaces, List.count_append]
      omega

/-- A change of its entries brings to a table what it brings to them, and its own number. -/
theorem count_places_table (hf : Brings places f) {o : Origin} {p : Option Nat} {item : Item}
    (hi : (f es).map (.table o p) = some item) (n : Nat) :
    item.places.count n ≤ places.count n + p.toList.count n + (entriesPlaces es).count n := by
  obtain ⟨es', he, rfl⟩ := Option.map_eq_some_iff.1 hi
  have hes := hf es es' he n
  simp only [Item.places, List.count_append]
  omega

/-- A change of the entries of the latest table brings to a list what it brings to them. -/
theorem count_places_latest (hf : Brings places f) {p : Nat} {item : Item}
    (hi : (f es).map (fun es => .tables ((p, es) :: ts)) = some item) (n : Nat) :
    item.places.count n ≤ places.count n + (Item.tables ((p, es) :: ts)).places.count n := by
  obtain ⟨es', he, rfl⟩ := Option.map_eq_some_iff.1 hi
  have hes := hf es es' he n
  simp only [Item.places, elementsPlaces, List.count_cons, List.count_append]
  omega

/-- A new table of a list brings what is in it, and the number of its header. -/
theorem count_places_element (hf : Brings [] f) {place : Nat} {item : Item}
    (hi : (f []).map (fun es => .tables ((place, es) :: ts)) = some item) (n : Nat) :
    item.places.count n ≤ [place].count n + (elementsPlaces ts).count n := by
  obtain ⟨es', he, rfl⟩ := Option.map_eq_some_iff.1 hi
  have hes := hf [] es' he n
  simp only [Item.places, elementsPlaces, entriesPlaces, List.count_cons, List.count_append,
    List.count_nil] at hes ⊢
  omega

theorem itemBrings_inside (path : List Key) (hf : Brings [] f) :
    ItemBrings [] (inside path f) := by
  intro old item hi n
  match old with
  | none => exact count_places_table hf hi n
  | some (.table .implied p _) | some (.table .dotted p _) =>
    simpa [Item.places] using count_places_table hf hi n
  | some (.tables ((_, _) :: _)) =>
    simp only [inside, alterLatest, Option.map_map] at hi
    split at hi
    · cases hi
    · exact count_places_latest hf hi n
  | some (.tables []) => simp [inside, alterLatest] at hi
  | some (.table .header _ _) | some (.value _) => cases hi

theorem brings_assign (path : List Key) (key : Key) (v : Value) :
    Brings [] (assign path key v) := by
  induction path with
  | nil =>
    refine brings_alter fun old item hi p => ?_
    cases old with
    | none =>
      cases hi
      exact Nat.zero_le _
    | some => cases hi
  | cons k path ih =>
    rw [assign_cons]
    exact brings_alter (itemBrings_inside path ih)

theorem brings_fill (values : List Statement) : Brings [] (fill values) := by
  intro es es' he p
  induction values generalizing es with
  | nil =>
    cases he
    simp
  | cons s values ih =>
    cases s with
    | header | element => cases he
    | assign q v =>
      rw [fill] at he
      split at he
      · cases he
      · next way key hp =>
        obtain ⟨sub, hsub, he⟩ := Option.bind_eq_some_iff.1 he
        have hfirst := brings_assign way key v es sub hsub p
        have hrest := ih sub he
        simp only [List.count_nil] at hfirst hrest ⊢
        omega

theorem itemBrings_below (hf : Brings places f) : ItemBrings places (below f) := by
  intro old item hi n
  match old with
  | none => exact count_places_table hf hi n
  | some (.table _ _ _) => simpa [Item.places, Nat.add_assoc] using count_places_table hf hi n
  | some (.tables ((_, _) :: _)) =>
    simp only [below, alterLatest, Option.map_map] at hi
    exact count_places_latest hf hi n
  | some (.tables []) | some (.value _) => cases hi

theorem brings_within (path : List Key) (hf : Brings places f) :
    Brings places (within path f) := by
  induction path with
  | nil => exact hf
  | cons k path ih =>
    rw [within_cons]
    exact brings_alter (itemBrings_below ih)

theorem itemBrings_opened (hf : Brings [] f) (place : Nat) (s : Statement) :
    ItemBrings [place] (opened place f s) := by
  intro old item hi n
  cases s with
  | assign => cases hi
  | header q =>
    match old with
    | none => simpa [entriesPlaces] using count_places_table hf hi n
    | some (.table .implied p es) =>
      have hes := count_places_table hf hi n
      simp only [List.count_nil, Option.toList_some, Option.elim_some, Item.places,
        List.count_append] at hes ⊢
      omega
    | some (.table .header _ _) | some (.table .dotted _ _) | some (.tables _)
    | some (.value _) => cases hi
  | element q =>
    match old with
    | none | some (.tables _) => exact count_places_element hf hi n
    | some (.table _ _ _) | some (.value _) => cases hi

theorem brings_block (place : Nat) (s : Statement) :
    Brings [place] (block place (fill values) s) := by
  intro doc doc' hd
  rw [block] at hd
  split at hd
  · cases hd
  · next way key _ =>
    have hopened := itemBrings_opened (brings_fill values) place s
    exact brings_within way (brings_alter hopened) doc doc' hd

/-! ## Whole documents -/

/-- A header that comes next has a number that is new. -/
theorem isTidy_block {doc doc' : Document} {s : Statement} (h : doc.IsTidy)
    (hn : ∀ p ∈ entriesPlaces doc, p ≤ n) (hd : block (n + 1) (fill values) s doc = some doc') :
    doc'.IsTidy ∧ ∀ p ∈ entriesPlaces doc', p ≤ n + 1 := by
  have hbrings := brings_block (n + 1) s doc doc' hd
  refine ⟨⟨keepsTidy_block (n + 1) values s doc doc' h.entries hd, ?_⟩, fun p hp => ?_⟩
  · refine List.nodup_iff_count_le_one.2 fun p => ?_
    have hle := hbrings p
    have hold := List.nodup_iff_count_le_one.1 h.places p
    rw [List.count_singleton] at hle
    split at hle
    · next heq =>
      have hnew : (entriesPlaces doc).count p = 0 := List.count_eq_zero.2 fun hp => by
        have := hn p hp
        have := beq_iff_eq.1 heq
        omega
      omega
    · omega
  · have hpos := List.count_pos_iff.2 hp
    have hle := hbrings p
    rw [List.count_singleton] at hle
    split at hle
    · next heq => exact Nat.le_of_eq (beq_iff_eq.1 heq).symm
    · exact Nat.le_succ_of_le (hn p (List.count_pos_iff.1 (by omega)))

theorem isTidy_blocks {blocks : List (Statement × List Statement)}
    (hb : ∀ b ∈ blocks, b.1.isHeader = true ∧ ∀ v ∈ b.2, v.isHeader = false)
    {path : List Key} {doc doc' : Document} (h : doc.IsTidy) (hn : ∀ p ∈ entriesPlaces doc, p ≤ n)
    (hd : addStatements path n doc (blocks.flatMap fun b => b.1 :: b.2) = some doc') :
    doc'.IsTidy := by
  induction blocks generalizing path n doc with
  | nil =>
    cases hd
    exact h
  | cons b blocks ih =>
    rw [List.forall_mem_cons] at hb
    rw [List.flatMap_cons, List.cons_append, addStatements_block hb.1.1 hb.1.2,
      Option.bind_eq_some_iff] at hd
    obtain ⟨d, hblock, hd⟩ := hd
    obtain ⟨ht, hle⟩ := isTidy_block h hn hblock
    exact ih hb.2 ht hle hd

/-- A document that was read is tidy. -/
theorem isTidy_of_parse? {t : Text} {doc : Document} (h : parse? t = some doc) : doc.IsTidy := by
  obtain ⟨ss, -, hd⟩ := Option.bind_eq_some_iff.1 h
  obtain ⟨values, blocks, rfl, hv, hb⟩ := Statement.exists_blocks ss
  rw [ofStatements?, addStatements_fill hv, Option.bind_eq_some_iff] at hd
  obtain ⟨d, hfill, hd⟩ := hd
  have hnil : entriesTidy 0 0 [] := trivial
  have hnone : entriesPlaces d = [] := by
    refine List.eq_nil_iff_forall_not_mem.2 fun p hp => ?_
    have hle := brings_fill values [] d hfill p
    have hpos := List.count_pos_iff.2 hp
    simp only [entriesPlaces, List.count_nil] at hle
    omega
  refine isTidy_blocks hb ⟨keepsTidy_fill values [] d hnil hfill, ?_⟩ ?_ hd
  · rw [hnone]
    exact List.nodup_nil
  · simp [hnone]

end Document

/-! ## Tidy documents are written with short paths -/

mutual

/-- What counts from too far away has no values. -/
theorem Item.assignments_eq_nil : (item : Item) → (keys : List Key) → {n m : Nat} →
    depthLimit < m → item.IsTidy n m → item.assignments keys = []
  | .value _, _, _, _, hm, h => absurd h (Nat.not_le.2 hm)
  | .table .dotted _ es, keys, _, _, hm, ⟨_, h⟩ =>
    entryAssignments_eq_nil es keys (Nat.le_of_lt hm) h
  | .table .header _ _, _, _, _, _, _ | .table .implied _ _, _, _, _, _, _
  | .tables _, _, _, _, _, _ => rfl

theorem entryAssignments_eq_nil : (es : Entries) → (keys : List Key) → {n m : Nat} →
    depthLimit ≤ m → entriesTidy n m es → entryAssignments keys es = []
  | [], _, _, _, _, _ => rfl
  | (k, item) :: es, keys, _, _, hm, ⟨hi, h⟩ => by
    rw [entryAssignments, item.assignments_eq_nil _ (Nat.lt_succ_of_le hm) hi,
      entryAssignments_eq_nil es keys hm h, List.append_nil]

end

mutual

theorem Item.hasKeys_assignments : (item : Item) → (keys : List Key) → keys ≠ [] → {n m : Nat} →
    keys.length = m → item.IsTidy n m → ∀ s ∈ item.assignments keys, s.HasKeys depthLimit
  | .value _, keys, hne, _, _, hm, h => by
    simp only [Item.assignments, List.forall_mem_singleton]
    exact ⟨hne, hm.trans_le h⟩
  | .table .dotted _ es, keys, _, _, _, hm, ⟨_, h⟩ => hasKeys_entryAssignments es keys hm h
  | .table .header _ _, _, _, _, _, _, _ | .table .implied _ _, _, _, _, _, _, _
  | .tables _, _, _, _, _, _, _ => by simp [Item.assignments]

theorem hasKeys_entryAssignments : (es : Entries) → (keys : List Key) → {n m : Nat} →
    keys.length = m → entriesTidy n m es → ∀ s ∈ entryAssignments keys es, s.HasKeys depthLimit
  | [], _, _, _, _, _ => by simp [entryAssignments]
  | (k, item) :: es, keys, _, _, hm, ⟨hi, h⟩ => by
    rw [entryAssignments, List.forall_mem_append]
    exact ⟨item.hasKeys_assignments (keys ++ [k]) (by simp) (by simp [hm]) hi,
      hasKeys_entryAssignments es keys hm h⟩

end

theorem hasKeys_header {s : Statement} {path : List Key} (hs : s.keys = path) (hp : path ≠ [])
    (hn : path.length ≤ depthLimit) (h : entriesTidy n 0 es) :
    ∀ x ∈ s :: entryAssignments [] es, x.HasKeys depthLimit := by
  rw [List.forall_mem_cons]
  refine ⟨?_, hasKeys_entryAssignments es [] rfl h⟩
  rw [Statement.HasKeys, hs]
  exact ⟨hp, hn⟩

mutual

theorem Item.haveKeys_of_tidy : (item : Item) → (path : List Key) → (last : Nat) → path ≠ [] →
    {n m : Nat} → path.length = n → item.IsTidy n m →
    HaveKeys depthLimit (item.sections path last).1
  | .value _, _, _, _, _, _, _, _ => by simp [Item.sections, HaveKeys]
  | .table .dotted _ es, path, last, _, _, _, hl, ⟨_, h⟩ =>
    entries_haveKeys_of_tidy es path last hl h
  | .table .header place es, path, last, hp, _, _, hl, ⟨_, hn, h⟩ => by
    simp only [Item.sections, HaveKeys]
    rw [List.forall_mem_cons]
    refine ⟨?_, entries_haveKeys_of_tidy es path _ hl h⟩
    simp only [Section.ofTable, reduceCtorEq, false_and, if_false]
    exact hasKeys_header rfl hp (hl.trans_le hn) h
  | .table .implied place es, path, last, _, _, _, hl, ⟨_, h⟩ => by
    simp only [Item.sections, HaveKeys]
    rw [List.forall_mem_cons]
    refine ⟨?_, entries_haveKeys_of_tidy es path _ hl (h 0)⟩
    simp [Section.ofTable, entryAssignments_eq_nil es [] (Nat.le_refl _) (h depthLimit)]
  | .tables ts, path, last, hp, _, _, hl, ⟨hn, h⟩ => by
    rw [sections_tables]
    exact elements_haveKeys_of_tidy ts path hp hl hn h

theorem entries_haveKeys_of_tidy : (es : Entries) → (path : List Key) → (last : Nat) →
    {n m : Nat} → path.length = n → entriesTidy n m es →
    HaveKeys depthLimit (entrySections path last es).1
  | [], _, _, _, _, _, _ => by simp [entrySections, HaveKeys]
  | (k, item) :: es, path, last, _, _, hl, ⟨hi, h⟩ => by
    simp only [entrySections, haveKeys_append]
    exact ⟨item.haveKeys_of_tidy (path ++ [k]) last (by simp) (by simp [hl]) hi,
      entries_haveKeys_of_tidy es path _ hl h⟩

theorem elements_haveKeys_of_tidy : (ts : List (Nat × Entries)) → (path : List Key) →
    path ≠ [] → {n : Nat} → path.length = n → n ≤ depthLimit → elementsTidy n ts →
    HaveKeys depthLimit (earlierSections path ts [])
  | [], _, _, _, _, _, _ => by simp [earlierSections, HaveKeys]
  | (place, es) :: ts, path, hp, _, hl, hn, ⟨h, hts⟩ => by
    rw [earlierSections, earlierSections_append, haveKeys_append]
    refine ⟨elements_haveKeys_of_tidy ts path hp hl hn hts, ?_⟩
    rw [HaveKeys, List.append_nil, List.forall_mem_cons]
    exact ⟨hasKeys_header rfl hp (hl.trans_le hn) h, entries_haveKeys_of_tidy es path place hl h⟩

end

/-- All statements of a tidy document are short enough to be read. -/
theorem Document.IsTidy.hasKeys_of_mem_statements {doc : Document} (h : doc.IsTidy) {s : Statement}
    (hs : s ∈ doc.statements) : s.HasKeys depthLimit := by
  obtain ⟨section', hmem, hs⟩ := List.mem_flatMap.1 hs
  rw [sections, List.mem_mergeSort, List.mem_cons] at hmem
  rcases hmem with rfl | hmem
  · exact hasKeys_entryAssignments doc [] rfl h.entries s hs
  · exact entries_haveKeys_of_tidy doc [] 0 rfl h.entries section' hmem s hs

end Sweep.Toml
