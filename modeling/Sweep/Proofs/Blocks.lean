import Sweep.Proofs.Moves
import Mathlib.Data.List.Basic
/-!
# Documents put together by blocks

A header and the assignments after it change a document at one place: what the header opens there is
filled at once (`addStatements_block`). Statements are some assignments and then such blocks, so
what holds of a document is shown for one block.
-/

namespace Sweep.Toml

variable {k : Key} {es : Entries}

theorem putItem_putItem (k : Key) (old item : Item) (es : Entries) :
    putItem k item (putItem k old es) = putItem k item es := by
  induction es with
  | nil => simp [putItem]
  | cons e es ih =>
    rw [putItem, putItem]
    split
    · next h => rw [putItem, if_pos h]
    · next h => rw [putItem, if_neg h, ih]

theorem alter_bind (k : Key) (f g : Option Item → Option Item) (es : Entries) :
    (alter k f es).bind (alter k g) =
      alter k (fun old => (f old).bind fun item => g (some item)) es := by
  rw [alter_eq, alter_eq]
  cases f (lookup k es) with
  | none => rfl
  | some item =>
    rw [Option.map_some, Option.bind_some, Option.bind_some, alter_eq, lookup_putItem, if_pos rfl]
    simp only [putItem_putItem]

/-- Statements are assignments and then blocks of a header with assignments. -/
theorem Statement.exists_blocks (ss : List Statement) :
    ∃ (values : List Statement) (blocks : List (Statement × List Statement)),
      ss = values ++ blocks.flatMap (fun b => b.1 :: b.2) ∧
      (∀ v ∈ values, v.isHeader = false) ∧
      ∀ b ∈ blocks, b.1.isHeader = true ∧ ∀ v ∈ b.2, v.isHeader = false := by
  induction ss with
  | nil => exact ⟨[], [], rfl, by simp, by simp⟩
  | cons s ss ih =>
    obtain ⟨values, blocks, rfl, hv, hb⟩ := ih
    cases hs : s.isHeader with
    | true => exact ⟨[], (s, values) :: blocks, rfl, by simp, List.forall_mem_cons.2 ⟨⟨hs, hv⟩, hb⟩⟩
    | false => exact ⟨s :: values, blocks, rfl, List.forall_mem_cons.2 ⟨hs, hv⟩, hb⟩

namespace Document

/-- Makes some assignments in a table. -/
def fill : List Statement → Entries → Option Entries
  | [], es => some es
  | .assign p v :: values, es =>
    match splitPath? p with
    | none => none
    | some (way, key) => (assign way key v es).bind (fill values)
  | _ :: _, _ => none

/-- What a header makes of the item behind its last key if `f` fills its table. -/
def opened (place : Nat) (f : Entries → Option Entries) : Statement → Option Item → Option Item
  | .header _, none => (f []).map (.table .header (some place))
  | .header _, some (.table .implied _ es) => (f es).map (.table .header (some place))
  | .element _, none => (f []).map fun es => .tables [(place, es)]
  | .element _, some (.tables ts) => (f []).map fun es => .tables ((place, es) :: ts)
  | _, _ => none

/-- What a header makes of a document if `f` fills its table. -/
def block (place : Nat) (f : Entries → Option Entries) (s : Statement) (doc : Document) :
    Option Document :=
  match splitPath? s.keys with
  | none => none
  | some (way, key) => within way (alter key (opened place f s)) doc

/-- What a change of its entries makes of the table behind a key that a header gives. -/
def below (f : Entries → Option Entries) : Option Item → Option Item
  | none => (f []).map (.table .implied none)
  | some (.table origin place sub) => (f sub).map (.table origin place)
  | some (.tables ts) => (alterLatest f ts).map .tables
  | some (.value _) => none

/-- What a change of its entries makes of the table behind the first key of an assignment if the
path is what stands between this key and the last one. -/
def inside (path : List Key) (f : Entries → Option Entries) : Option Item → Option Item
  | none => (f []).map (.table .dotted none)
  | some (.table .header _ _) => none
  | some (.table _ place sub) => (f sub).map (.table .dotted place)
  | some (.tables ts) => if path = [] then none else (alterLatest f ts).map .tables
  | some (.value _) => none

theorem assign_cons (k : Key) (path : List Key) (key : Key) (v : Value) :
    assign (k :: path) key v = alter k (inside path (assign path key v)) := by
  funext es
  rw [assign]
  rfl

theorem within_cons (k : Key) (path : List Key) (f : Entries → Option Entries) :
    within (k :: path) f = alter k (below (within path f)) := by
  funext es
  rw [within]
  rfl

theorem alter_none (k : Key) (es : Entries) : alter k (fun _ => none) es = none := by
  rw [alter_eq]
  rfl

theorem within_none (path : List Key) (es : Entries) : within path (fun _ => none) es = none := by
  induction path generalizing es with
  | nil => rfl
  | cons k path ih =>
    have hbelow : below (within path fun _ => none) = fun _ => none := by
      funext old
      match old with
      | none | some (.table _ _ _) | some (.tables ((_, _) :: _)) => simp [below, alterLatest, ih]
      | some (.tables []) | some (.value _) => rfl
    rw [within_cons, hbelow, alter_none]

theorem below_bind (f g : Entries → Option Entries) (old : Option Item) :
    ((below f old).bind fun item => below g (some item)) =
      below (fun es => (f es).bind g) old := by
  match old with
  | none | some (.table _ _ _) | some (.tables ((_, _) :: _)) =>
    simp only [below, alterLatest, Option.map_map, Option.bind_map, Function.comp_def,
      Option.map_bind]
  | some (.tables []) | some (.value _) => rfl

/-- Two changes of the table at a path are one. -/
theorem within_bind (path : List Key) (f g : Entries → Option Entries) (es : Entries) :
    (within path f es).bind (within path g) = within path (fun es => (f es).bind g) es := by
  induction path generalizing es with
  | nil => rfl
  | cons k path ih => simp only [within_cons, alter_bind, below_bind, ih]

theorem within_append (way path : List Key) (f : Entries → Option Entries) :
    within (way ++ path) f = within way (within path f) := by
  induction way with
  | nil => rfl
  | cons k way ih =>
    funext es
    rw [List.cons_append, within, within, ih]

theorem eq_of_splitPath? {p way : List Key} {key : Key} (h : splitPath? p = some (way, key)) :
    p = way ++ [key] ∧ p.length ≤ depthLimit := by
  rw [splitPath?] at h
  split at h
  · next hn =>
    obtain ⟨k, hk, heq⟩ := Option.map_eq_some_iff.1 h
    cases heq
    exact ⟨(List.dropLast_append_getLast? _ hk).symm, hn⟩
  · cases h

theorem opened_bind {s : Statement} (hs : s.isHeader = true) (place : Nat)
    (f g : Entries → Option Entries) (old : Option Item) :
    ((opened place f s old).bind fun item => below g (some item)) =
      opened place (fun es => (f es).bind g) s old := by
  cases s with
  | assign => cases hs
  | header p =>
    match old with
    | none | some (.table .implied _ _) =>
      simp only [opened, below, Option.bind_map, Function.comp_def, Option.map_bind]
    | some (.table .header _ _) | some (.table .dotted _ _) | some (.tables _)
    | some (.value _) => rfl
  | element p =>
    match old with
    | none | some (.tables _) =>
      simp only [opened, below, alterLatest, Option.map_map, Option.bind_map, Function.comp_def,
        Option.map_bind]
    | some (.table _ _ _) | some (.value _) => rfl

theorem opened_none (place : Nat) (s : Statement) :
    opened place (fun _ => none) s = fun _ => none := by
  funext old
  cases s with
  | assign => rfl
  | header p =>
    match old with
    | none | some (.table .implied _ _) => rfl
    | some (.table .header _ _) | some (.table .dotted _ _) | some (.tables _)
    | some (.value _) => rfl
  | element p =>
    match old with
    | none | some (.tables _) => rfl
    | some (.table _ _ _) | some (.value _) => rfl

theorem base_eq_keys {s : Statement} (hs : s.isHeader = true) (path : List Key) :
    s.base path = s.keys := by
  cases s with
  | assign => cases hs
  | header | element => rfl

/-- What is changed in the table of a header is part of its block. -/
theorem block_bind {s : Statement} (hs : s.isHeader = true) (place : Nat)
    (f g : Entries → Option Entries) (path : List Key) (doc : Document) :
    (block place f s doc).bind (within (s.base path) g) =
      block place (fun es => (f es).bind g) s doc := by
  rw [base_eq_keys hs, block, block]
  cases hp : splitPath? s.keys with
  | none => rfl
  | some x =>
    obtain ⟨way, key⟩ := x
    have hone : within [key] g = alter key (below g) := within_cons key [] g
    simp only [(eq_of_splitPath? hp).1, within_append, hone, within_bind, alter_bind,
      opened_bind hs]

theorem block_none (place : Nat) (s : Statement) (doc : Document) :
    block place (fun _ => none) s doc = none := by
  have halter (key : Key) : alter key (fun _ => none) = fun _ : Entries => none :=
    funext (alter_none key)
  rw [block]
  split
  · rfl
  · rw [opened_none, halter, within_none]

/-- Two blocks of the same header are one change. -/
theorem block_bind_block (s : Statement) (m n : Nat) (f g : Entries → Option Entries)
    (doc : Document) : (block m f s doc).bind (block n g s) =
      match splitPath? s.keys with
      | none => none
      | some (way, key) => within way (alter key fun old =>
        (opened m f s old).bind fun item => opened n g s (some item)) doc := by
  cases hp : splitPath? s.keys with
  | none => simp only [block, hp, Option.bind_none]
  | some x =>
    have hblock (n : Nat) (g : Entries → Option Entries) :
        block n g s = within x.1 (alter x.2 (opened n g s)) := funext fun doc => by
      simp only [block, hp]
    simp only [hblock, within_bind, alter_bind]

theorem openTable_eq_alter (n : Nat) (key : Key) (p : List Key) :
    openTable n key = alter key (opened n some (.header p)) := by
  funext es
  rw [openTable]
  congr 1
  funext old
  match old with
  | none | some (.table .implied _ _) => rfl
  | some (.table .header _ _) | some (.table .dotted _ _) | some (.tables _)
  | some (.value _) => rfl

theorem openElement_eq_alter (n : Nat) (key : Key) (p : List Key) :
    openElement n key = alter key (opened n some (.element p)) := by
  funext es
  rw [openElement]
  congr 1
  funext old
  match old with
  | none | some (.tables _) => rfl
  | some (.table _ _ _) | some (.value _) => rfl

theorem addStatements_cons_header {s : Statement} (hs : s.isHeader = true) (path : List Key)
    (n : Nat) (doc : Document) (ss : List Statement) :
    addStatements path n doc (s :: ss) =
      (block (n + 1) some s doc).bind fun doc => addStatements (s.base path) (n + 1) doc ss := by
  cases s with
  | assign => cases hs
  | header p =>
    simp only [addStatements, block, Statement.keys, Statement.base, openTable_eq_alter _ _ p]
    cases splitPath? p with
    | none => rfl
    | some x =>
      simp only
      cases within x.1 (alter x.2 (opened (n + 1) some (.header p))) doc <;> rfl
  | element p =>
    simp only [addStatements, block, Statement.keys, Statement.base, openElement_eq_alter _ _ p]
    cases splitPath? p with
    | none => rfl
    | some x =>
      simp only
      cases within x.1 (alter x.2 (opened (n + 1) some (.element p))) doc <;> rfl

/-- An assignment changes the table of the last header. -/
theorem addStatements_assign (path : List Key) (n : Nat) (doc : Document) (p : List Key) (v : Value)
    (ss : List Statement) : addStatements path n doc (.assign p v :: ss) =
      (match splitPath? p with
        | none => none
        | some (way, key) => within path (assign way key v) doc).bind fun doc =>
          addStatements path n doc ss := by
  rw [addStatements]
  cases splitPath? p with
  | none => rfl
  | some x =>
    simp only
    cases within path (assign x.1 x.2 v) doc <;> rfl

/-- A header and the assignments after it. -/
theorem addStatements_block {s : Statement} (hs : s.isHeader = true) {values : List Statement}
    (hv : ∀ v ∈ values, v.isHeader = false) (path : List Key) (n : Nat) (doc : Document)
    (ss : List Statement) : addStatements path n doc (s :: (values ++ ss)) =
      (block (n + 1) (fill values) s doc).bind fun doc =>
        addStatements (s.base path) (n + 1) doc ss := by
  -- Each assignment joins what has filled the table so far.
  have hstep (f : Entries → Option Entries) :
      ((block (n + 1) f s doc).bind fun doc =>
        addStatements (s.base path) (n + 1) doc (values ++ ss)) =
      (block (n + 1) (fun es => (f es).bind (fill values)) s doc).bind fun doc =>
        addStatements (s.base path) (n + 1) doc ss := by
    induction values generalizing f with
    | nil => simp only [List.nil_append, fill, Option.bind_fun_some]
    | cons v values ih =>
      rw [List.forall_mem_cons] at hv
      cases v with
      | header | element => cases hv.1
      | assign p v =>
        simp only [List.cons_append, addStatements_assign, fill]
        cases splitPath? p with
        | none => simp [block_none]
        | some x =>
          simp only
          rw [← Option.bind_assoc, block_bind hs, ih hv.2]
          simp only [Option.bind_assoc]
  rw [addStatements_cons_header hs, hstep]
  rfl

/-- The assignments before all headers. -/
theorem addStatements_fill {values : List Statement} (hv : ∀ v ∈ values, v.isHeader = false)
    (n : Nat) (doc : Document) (ss : List Statement) :
    addStatements [] n doc (values ++ ss) =
      (fill values doc).bind fun doc => addStatements [] n doc ss := by
  induction values generalizing doc with
  | nil => rfl
  | cons v values ih =>
    rw [List.forall_mem_cons] at hv
    cases v with
    | header | element => cases hv.1
    | assign p v =>
      simp only [List.cons_append, addStatements_assign, fill]
      cases splitPath? p with
      | none => rfl
      | some x =>
        simp only [within, ih hv.2]
        rw [Option.bind_assoc]

end Document

end Sweep.Toml
