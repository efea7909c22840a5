import Sweep.Proofs.Copies
/-!
# Documents with the same latest tables

What statements do to a document does not depend on the earlier tables of its lists, nor on the
numbers of headers (`Entries.Match`). So a table of a list may be written twice in a row without
getting in the way of anything after it, but a table with a header may not: a document with doubled
lists comes back if the one without comes back and no table in those lists has a header
(`isSome_reread_double`).
-/

namespace Sweep.Toml

theorem rel_map {α β γ δ : Type} {R : α → β → Prop} {S : γ → δ → Prop} {f : α → γ} {g : β → δ}
    {a : Option α} {b : Option β} (h : Option.Rel R a b) (hfg : ∀ x y, R x y → S (f x) (g y)) :
    Option.Rel S (a.map f) (b.map g) := by
  cases h with
  | none => exact .none
  | some h => exact .some (hfg _ _ h)

theorem rel_bind {α β γ δ : Type} {R : α → β → Prop} {S : γ → δ → Prop} {f : α → Option γ}
    {g : β → Option δ} {a : Option α} {b : Option β} (h : Option.Rel R a b)
    (hfg : ∀ x y, R x y → Option.Rel S (f x) (g y)) : Option.Rel S (a.bind f) (b.bind g) := by
  cases h with
  | none => exact .none
  | some h => exact hfg _ _ h

mutual

/-- Whether statements do the same to both items: they have the same values in tables that came
about in the same way, and in the latest tables of lists. -/
inductive Item.Matches : Item → Item → Prop
  | value (v : Value) : Item.Matches (.value v) (.value v)
  | table (o : Origin) (p p' : Option Nat) {es es' : Entries} (h : Entries.Match es es') :
    Item.Matches (.table o p es) (.table o p' es')
  | tables (p p' : Nat) (ts ts' : List (Nat × Entries)) {es es' : Entries}
    (h : Entries.Match es es') : Item.Matches (.tables ((p, es) :: ts)) (.tables ((p', es') :: ts'))
  | none : Item.Matches (.tables []) (.tables [])

/-- Whether statements do the same to both entries. -/
inductive Entries.Match : Entries → Entries → Prop
  | intro {es es' : Entries}
    (h : ∀ k, Option.Rel Item.Matches (lookup k es) (lookup k es')) : Entries.Match es es'

end

theorem Entries.Match.lookup {es es' : Entries} (h : Entries.Match es es') (k : Key) :
    Option.Rel Item.Matches (lookup k es) (lookup k es') := by
  obtain ⟨h⟩ := h
  exact h k

theorem Entries.Match.nil : Entries.Match [] [] := .intro fun _ => .none

namespace Document

/-- Whether two changes do the same to entries that match. -/
def SameChange (f g : Entries → Option Entries) : Prop :=
  ∀ es es', Entries.Match es es' → Option.Rel Entries.Match (f es) (g es')

/-- Whether two changes do the same to items that match. -/
def SameItemChange (f g : Option Item → Option Item) : Prop :=
  ∀ old old', Option.Rel Item.Matches old old' → Option.Rel Item.Matches (f old) (g old')

variable {f g : Entries → Option Entries} {s : Statement} {m n : Nat}

theorem sameChange_alter {f g : Option Item → Option Item} (h : SameItemChange f g) (k : Key) :
    SameChange (alter k f) (alter k g) := by
  intro es es' hes
  rw [alter_eq, alter_eq]
  refine rel_map (h _ _ (hes.lookup k)) fun i i' hi => .intro fun j => ?_
  rw [lookup_putItem, lookup_putItem]
  split
  · exact .some hi
  · exact hes.lookup j

theorem sameItemChange_below (h : SameChange f g) : SameItemChange (below f) (below g) := by
  rintro _ _ (hi | _)
  · cases hi with
    | value | none => exact .none
    | table o p p' hes => exact rel_map (h _ _ hes) fun _ _ => .table o p p'
    | tables p p' ts ts' hes =>
      simp only [below, alterLatest, Option.map_map]
      exact rel_map (h _ _ hes) fun _ _ => .tables p p' ts ts'
  · exact rel_map (h _ _ .nil) fun _ _ => .table .implied none none

theorem sameChange_within (path : List Key) (h : SameChange f g) :
    SameChange (within path f) (within path g) := by
  induction path with
  | nil => exact h
  | cons k path ih =>
    rw [within_cons, within_cons]
    exact sameChange_alter (sameItemChange_below ih) k

theorem sameItemChange_inside (path : List Key) (h : SameChange f g) :
    SameItemChange (inside path f) (inside path g) := by
  rintro _ _ (hi | _)
  · cases hi with
    | value => exact .none
    | none => simp [inside, alterLatest]
    | table o p p' hes =>
      cases o with
      | header => exact .none
      | implied | dotted => exact rel_map (h _ _ hes) fun _ _ => .table .dotted p p'
    | tables p p' ts ts' hes =>
      simp only [inside, alterLatest, Option.map_map]
      split
      · exact .none
      · exact rel_map (h _ _ hes) fun _ _ => .tables p p' ts ts'
  · exact rel_map (h _ _ .nil) fun _ _ => .table .dotted none none

theorem sameChange_assign (path : List Key) (key : Key) (v : Value) :
    SameChange (assign path key v) (assign path key v) := by
  induction path with
  | nil =>
    refine sameChange_alter ?_ key
    rintro _ _ (_ | _)
    · exact .none
    · exact .some (.value v)
  | cons k path ih =>
    rw [assign_cons]
    exact sameChange_alter (sameItemChange_inside path ih) k

theorem sameChange_fill (values : List Statement) : SameChange (fill values) (fill values) := by
  induction values with
  | nil => exact fun es es' h => .some h
  | cons v values ih =>
    intro es es' h
    cases v with
    | header | element => exact .none
    | assign p v =>
      rw [fill, fill]
      split
      · exact .none
      · exact rel_bind (sameChange_assign _ _ _ _ _ h) ih

theorem sameItemChange_opened (h : SameChange f g) (m n : Nat) (s : Statement) :
    SameItemChange (opened m f s) (opened n g s) := by
  have hnil := h _ _ .nil
  rintro _ _ (hi | _)
  · cases s with
    | assign => cases hi <;> exact .none
    | header q =>
      cases hi with
      | value | none | tables => exact .none
      | table o p p' hes =>
        cases o with
        | implied => exact rel_map (h _ _ hes) fun _ _ => .table .header (some m) (some n)
        | header | dotted => exact .none
    | element q =>
      cases hi with
      | value | table => exact .none
      | none | tables => exact rel_map hnil fun _ _ => .tables m n _ _
  · cases s with
    | assign => exact .none
    | header q => exact rel_map hnil fun _ _ => .table .header (some m) (some n)
    | element q => exact rel_map hnil fun _ _ => .tables m n _ _

theorem sameChange_block (h : SameChange f g) (m n : Nat) (s : Statement) :
    SameChange (block m f s) (block n g s) := by
  intro doc doc' hd
  rw [block, block]
  split
  · exact .none
  · exact sameChange_within _ (sameChange_alter (sameItemChange_opened h m n s) _) _ _ hd

/-- A table of a list that is made twice is there as if it were made once. -/
theorem sameChange_block_twice {p : List Key} (h : SameChange f f) (l m n : Nat) :
    SameChange (block l f (.element p))
      (fun doc => (block m f (.element p) doc).bind (block n f (.element p))) := by
  have hopened : SameItemChange (opened l f (.element p)) (fun old =>
      (opened m f (.element p) old).bind fun item => opened n f (.element p) (some item)) := by
    have hnil := h _ _ .nil
    cases hf : f [] with
    | none =>
      rintro _ _ (hi | _)
      · cases hi <;> simp [opened, hf]
      · simp [opened, hf]
    | some es =>
      rw [hf] at hnil
      obtain ⟨hes⟩ := hnil
      rintro _ _ (hi | _)
      · cases hi with
        | value | table => exact .none
        | none | tables =>
          simp only [opened, hf, Option.map_some, Option.bind_some]
          exact .some (.tables l n _ _ hes)
      · simp only [opened, hf, Option.map_some, Option.bind_some]
        exact .some (.tables l n _ _ hes)
  intro doc doc' hd
  simp only [block_bind_block]
  rw [block]
  split
  · exact .none
  · exact sameChange_within _ (sameChange_alter hopened _) _ _ hd

/-- A table with a header is not made twice. -/
theorem block_header_twice (p : List Key) (m n : Nat) (doc : Document) :
    (block m f (.header p) doc).bind (block n f (.header p)) = none := by
  have hopened (old : Option Item) : ((opened m f (.header p) old).bind fun item =>
      opened n f (.header p) (some item)) = none := by
    match old with
    | none | some (.table .implied _ _) =>
      simp only [opened, Option.bind_map, Function.comp_def, Option.bind_fun_none]
    | some (.table .header _ _) | some (.table .dotted _ _) | some (.tables _)
    | some (.value _) => rfl
  rw [block_bind_block]
  split
  · rfl
  · next way key _ =>
    have halter : alter key (fun _ => none) = fun _ : Entries => none := funext (alter_none key)
    simp only [hopened, halter, within_none]

/-- Sections that are written twice can be added if they can once and none of them is that of a
table with a header. -/
theorem isSome_addStatements_copies {xs : List (Section × Bool)} (hx : ∀ x ∈ xs, x.1.IsBlock)
    {path path' : List Key} {doc doc' : Document} (h : Entries.Match doc doc') :
    (addStatements path' n doc' (xs.flatMap fun x => (copies x).flatMap (·.statements))).isSome =
        true ↔
      (addStatements path m doc (xs.flatMap (·.1.statements))).isSome = true ∧
        ∀ x ∈ xs, x.2 = true → x.1.isTable = false := by
  induction xs generalizing path path' m n doc doc' with
  | nil => simp [addStatements]
  | cons x xs ih =>
    rw [List.forall_mem_cons] at hx
    obtain ⟨⟨head, values, hs, hhead, hv⟩, hxs⟩ := hx
    obtain ⟨s, twice⟩ := x
    have hfill := sameChange_fill values
    change s.statements = head :: values at hs
    rw [List.forall_mem_cons, List.flatMap_cons, List.flatMap_cons, hs, List.cons_append,
      addStatements_block hhead hv]
    -- What the sections after this one do once it is there in both documents.
    have hrest {q : List Key} {l : Nat} {a b : Option Document}
        (hab : Option.Rel Entries.Match a b) :
        (b.bind fun doc => addStatements q l doc
          (xs.flatMap fun x => (copies x).flatMap (·.statements))).isSome = true ↔
        (a.bind fun doc => addStatements (head.base path) (m + 1) doc
          (xs.flatMap (·.1.statements))).isSome = true ∧
          ∀ x ∈ xs, x.2 = true → x.1.isTable = false := by
      cases hab with
      | none => simp
      | some hab => exact ih hxs hab
    cases twice with
    | false =>
      have hcopies : (copies (s, false)).flatMap (·.statements) = head :: values := by
        simp [copies, hs]
      rw [hcopies, List.cons_append, addStatements_block hhead hv,
        hrest (sameChange_block hfill (m + 1) (n + 1) head _ _ h)]
      simp
    | true =>
      have hcopies : (copies (s, true)).flatMap (·.statements) =
          head :: (values ++ head :: values) := by
        simp [copies, hs]
      have htwice (ss : List Statement) :
          addStatements path' n doc' (head :: (values ++ head :: values) ++ ss) =
            ((block (n + 1) (fill values) head doc').bind
              (block (n + 1 + 1) (fill values) head)).bind fun doc =>
                addStatements (head.base (head.base path')) (n + 1 + 1) doc ss := by
        simp only [List.cons_append, List.append_assoc, addStatements_block hhead hv,
          Option.bind_assoc]
      rw [hcopies, htwice]
      cases head with
      | assign => cases hhead
      | header p =>
        have htable : s.isTable = true := by rw [Section.isTable, hs]
        simp [block_header_twice, htable]
      | element p =>
        have htable : s.isTable = false := by rw [Section.isTable, hs]
        rw [hrest (sameChange_block_twice hfill (m + 1) (n + 1) (n + 1 + 1) _ _ h)]
        simp [htable]

/-- A document in which tables of lists stand twice comes back if it does with each of them once and
none of those has a table with a header in it. -/
theorem isSome_reread_double {b : Bool} {doc doc' : Document} (h : Entries.Double b doc doc') :
    doc'.reread?.isSome = true ↔ doc.reread?.isSome = true ∧ b = true := by
  obtain ⟨xs, hx, hdoc, hdoc', hb⟩ := h.statements
  have hv := isHeader_of_mem_entryAssignments doc []
  rw [reread?, reread?, ofStatements?, ofStatements?, hdoc, hdoc', hb, addStatements_fill hv,
    addStatements_fill hv]
  have hfill := sameChange_fill (entryAssignments [] doc) _ _ .nil
  cases hd : fill (entryAssignments [] doc) [] with
  | none => simp
  | some d =>
    rw [hd] at hfill
    obtain ⟨hfill⟩ := hfill
    exact isSome_addStatements_copies hx hfill

end Document

end Sweep.Toml
