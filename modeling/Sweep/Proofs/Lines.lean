import Sweep.Proofs.Values
import Sweep.Toml.Document
/-!
# Written tables are read back

A table is written as a header and a line for each of its fields. The main statement says that
tables with a blank line between each two of them are read as the document that has just these.
-/

namespace Sweep.Toml

open Written

/-- Whether the key can be written without quotes. -/
structure IsBare (k : Key) : Prop where
  nonempty : k.toList.isEmpty = false
  all : k.toList.all isBareKeyChar = true

/-- A field of a table: its key, its value, and how the value is written. -/
structure Field where
  key : Key
  spelling : Text
  value : Value

namespace Field

/-- Whether the field is read as it is meant. -/
def IsSound (f : Field) : Prop := IsBare f.key ∧ Denotes f.spelling f.value

def text (f : Field) : Text := line f.key f.spelling

def statement (f : Field) : Statement := .assign [f.key] f.value

def entry (f : Field) : Key × Item := (f.key, .value f.value)

end Field

variable {t rest : Text} {c : Char} {k : Key}

/-! ## Keys -/

theorem IsBare.char (hk : IsBare k) : ∀ c ∈ k.toList, isBareKeyChar c = true :=
  List.all_eq_true.1 hk.all

theorem IsBare.eq_cons (hk : IsBare k) : ∃ b u, k.toList = b :: u ∧ isBareKeyChar b = true := by
  obtain ⟨b, u, hu⟩ := List.exists_cons_of_ne_nil (List.isEmpty_eq_false_iff.1 hk.nonempty)
  exact ⟨b, u, hu, hk.char b (by simp [hu])⟩

theorem skipBlanks_cons (hc : isBlank c = false) : skipBlanks (c :: t) = c :: t :=
  List.dropWhile_cons_of_neg (by simp [hc])

theorem isBlank_of_isBareKeyChar (hc : isBareKeyChar c = true) : isBlank c = false := by
  have hs : c ≠ ' ' := ne_of_test hc rfl
  have ht : c ≠ '\t' := ne_of_test hc rfl
  simp [isBlank, hs, ht]

theorem key?_bare (hk : IsBare k) (hc : isBareKeyChar c = false) :
    key? (k.toList ++ c :: rest) = some (k, c :: rest) := by
  obtain ⟨b, u, hu, -⟩ := hk.eq_cons
  rw [key?, takeWhile_append hk.char hc, dropWhile_append hk.char hc]
  split
  · next he =>
    rw [hu] at he
    cases he
  · rw [String.ofList_toList]

/-- A key with something behind it that is no dot is a path of its own. -/
theorem path?_bare {d : Char} {more : Text} (hk : IsBare k) (hc : isBareKeyChar c = false)
    (hs : skipBlanks (c :: rest) = d :: more) (hd : d ≠ '.') :
    path? (k.toList ++ c :: rest) = some ([k], d :: more) := by
  have hkey : key? (k.toList ++ c :: rest) = some (k, c :: rest) := key?_bare hk hc
  obtain ⟨b, u, hu, hb⟩ := hk.eq_cons
  rw [hu, List.cons_append] at hkey ⊢
  rw [path?, keys?, skipBlanks_cons (isBlank_of_isBareKeyChar hb), hkey]
  simp only [hs]
  split
  · next he => exact absurd (List.cons.inj he).1 hd
  · rfl

/-! ## Statements -/

theorem read?_header (hk : IsBare k) (rest : Text) :
    Statement.read? (header k ++ rest) = some (.header [k], '\n' :: rest) := by
  have hp : path? (k.toList ++ ']' :: '\n' :: rest) = some ([k], ']' :: '\n' :: rest) :=
    path?_bare hk rfl rfl (by decide)
  have ht : header k ++ rest = '[' :: (k.toList ++ ']' :: '\n' :: rest) := by simp [header]
  obtain ⟨b, u, hu, hb⟩ := hk.eq_cons
  have hb : b ≠ '[' := ne_of_test hb rfl
  rw [ht]
  rw [hu, List.cons_append] at hp ⊢
  simp [Statement.read?, hb, hp]

theorem read?_line {f : Field} (hf : f.IsSound) (rest : Text) :
    Statement.read? (f.text ++ rest) = some (f.statement, '\n' :: rest) := by
  obtain ⟨hk, ⟨v, w, hw, hv⟩, hread⟩ := hf
  have hp : path? (f.key.toList ++ ' ' :: '=' :: ' ' :: (f.spelling ++ '\n' :: rest)) =
      some ([f.key], '=' :: ' ' :: (f.spelling ++ '\n' :: rest)) :=
    path?_bare hk rfl rfl (by decide)
  have hs : skipBlanks (' ' :: (f.spelling ++ '\n' :: rest)) = f.spelling ++ '\n' :: rest := by
    rw [hw]
    exact skipBlanks_cons hv
  have ht : f.text ++ rest =
      f.key.toList ++ ' ' :: '=' :: ' ' :: (f.spelling ++ '\n' :: rest) := by
    simp [Field.text, line]
  have hpair : pair? skipBlanks value? (f.text ++ rest) =
      some (([f.key], f.value), '\n' :: rest) := by
    rw [ht, pair?, hp]
    change (value? (skipBlanks (' ' :: (f.spelling ++ '\n' :: rest)))).map _ = _
    rw [hs, hread rest]
    rfl
  obtain ⟨b, u, hu, hb⟩ := hk.eq_cons
  have hb : b ≠ '[' := ne_of_test hb rfl
  rw [ht, hu, List.cons_append] at hpair ⊢
  simp [Statement.read?, hb, hpair, Field.statement]

/-! ## Lines -/

/-- Whether the text is read as these statements, when there may be as many lines as it has
characters, or more. -/
def Lists (t : Text) (ss : List Statement) : Prop :=
  ∀ bound : Text, t.length ≤ bound.length → Statement.lines? bound t = some ss

theorem lists_nil : Lists [] [] := by
  intro bound _
  cases bound <;> rfl

variable {ss : List Statement}

theorem lists_blank (h : Lists t ss) : Lists ('\n' :: t) ss := by
  intro bound hb
  match bound, hb with
  | b :: bound, hb =>
    have ha : afterLine? ('\n' :: t) = some t := rfl
    rw [Statement.lines?, ha]
    · exact h bound (Nat.le_of_succ_le_succ hb)
    · simp

/-- A line that begins with a bracket or a key holds a statement. -/
theorem lists_statement {s : Statement} (hc : c = '[' ∨ isBareKeyChar c = true)
    (hr : Statement.read? (c :: (t ++ rest)) = some (s, '\n' :: rest)) (h : Lists rest ss) :
    Lists (c :: (t ++ rest)) (s :: ss) := by
  have hne (d : Char) (hd : d ≠ '[') (hb : isBareKeyChar d = false) : c ≠ d := by
    rcases hc with rfl | hc
    · exact hd.symm
    · exact ne_of_test hc hb
  have hblank : isBlank c = false := by
    simp [isBlank, hne ' ' (by decide) rfl, hne '\t' (by decide) rfl]
  have ha : afterLine? (c :: (t ++ rest)) = none := by
    rw [afterLine?, skipBlanks_cons hblank]
    simp [skipComment, hne '#' (by decide) rfl, afterBreak?, hne '\n' (by decide) rfl,
      hne '\r' (by decide) rfl]
  have he : afterLine? ('\n' :: rest) = some rest := rfl
  intro bound hb
  cases bound with
  | nil => cases hb
  | cons b bound =>
    have hl : rest.length ≤ bound.length := by
      simp only [List.length_cons, List.length_append] at hb
      omega
    rw [Statement.lines?, ha, skipBlanks_cons hblank]
    · simp only [hr, he, h bound hl]
      rfl
    · simp

theorem lists_fields {fs : List Field} (hf : ∀ f ∈ fs, f.IsSound) (h : Lists rest ss) :
    Lists (fs.flatMap Field.text ++ rest) (fs.map Field.statement ++ ss) := by
  induction fs with
  | nil => exact h
  | cons f fs ih =>
    have hs := hf f List.mem_cons_self
    have hr := read?_line hs (fs.flatMap Field.text ++ rest)
    obtain ⟨c, u, hu, hc⟩ := hs.1.eq_cons
    have ht : f.text = c :: (u ++ " = ".toList ++ f.spelling ++ ['\n']) := by
      rw [Field.text, line, hu]
      rfl
    rw [List.flatMap_cons, List.append_assoc, List.map_cons, List.cons_append]
    rw [ht, List.cons_append] at hr ⊢
    exact lists_statement (.inr hc) hr
      (ih fun g hg => hf g (List.mem_cons_of_mem f hg))

/-! ## Tables -/

/-- A table: its key and its fields. -/
structure Table where
  key : Key
  fields : List Field

namespace Table

/-- Whether the table is read as it is meant. -/
structure IsSound (t : Table) : Prop where
  key : IsBare t.key
  fields : ∀ f ∈ t.fields, f.IsSound
  nodup : (t.fields.map Field.key).Nodup

def text (t : Table) : Text := header t.key ++ t.fields.flatMap Field.text

def statements (t : Table) : List Statement := .header [t.key] :: t.fields.map Field.statement

/-- The table with the number of its header. -/
def entry (place : Nat) (t : Table) : Key × Item :=
  (t.key, .table .header (some place) (t.fields.map Field.entry))

end Table

theorem lists_table {t : Table} (hs : t.IsSound) (h : Lists rest ss) :
    Lists (t.text ++ rest) (t.statements ++ ss) := by
  have hr := read?_header hs.key (t.fields.flatMap Field.text ++ rest)
  have ht : t.text ++ rest =
      '[' :: (t.key.toList ++ [']', '\n'] ++ (t.fields.flatMap Field.text ++ rest)) := by
    simp [Table.text, header]
  rw [ht]
  rw [header, List.cons_append] at hr
  exact lists_statement (.inl rfl) hr (lists_fields hs.fields h)

/-- Tables with a blank line between each two of them. -/
theorem lists_tables {ts : List Table} (hs : ∀ t ∈ ts, t.IsSound) :
    Lists (Text.join ['\n'] (ts.map Table.text)) (ts.flatMap Table.statements) := by
  induction ts with
  | nil => exact lists_nil
  | cons t ts ih =>
    have ht := hs t List.mem_cons_self
    have ih := ih fun u hu => hs u (List.mem_cons_of_mem t hu)
    match ts with
    | [] =>
      have := lists_table ht lists_nil
      simpa [Text.join] using this
    | u :: ts =>
      have := lists_table ht (lists_blank ih)
      simpa [Text.join] using this

/-! ## Documents -/

section

variable {α : Type} {key : Key} {f : Option α → Option α} {es : List (Key × α)}

theorem alter_of_new (h : key ∉ es.map Prod.fst) :
    alter key f es = (f none).map fun x => es ++ [(key, x)] := by
  induction es with
  | nil => rfl
  | cons e es ih =>
    rw [List.map_cons, List.mem_cons, not_or] at h
    rw [alter, if_neg (Ne.symm h.1), ih h.2, Option.map_map]
    rfl

theorem alter_last {x : α} (h : key ∉ es.map Prod.fst) :
    alter key f (es ++ [(key, x)]) = (f (some x)).map fun y => es ++ [(key, y)] := by
  induction es with
  | nil => simp [alter]
  | cons e es ih =>
    rw [List.map_cons, List.mem_cons, not_or] at h
    rw [List.cons_append, alter, if_neg (Ne.symm h.1), ih h.2, Option.map_map]
    rfl

end

namespace Document

theorem addStatements_header {path : List Key} {place : Nat} {doc : Document}
    (hk : k ∉ doc.map Prod.fst) :
    addStatements path place doc (.header [k] :: ss) =
      addStatements [k] (place + 1) (doc ++ [(k, .table .header (some (place + 1)) [])]) ss := by
  have hs : splitPath? [k] = some ([], k) := rfl
  rw [addStatements, hs]
  simp only [within, openTable, alter_of_new hk, Option.map_some]

theorem addStatements_field {place : Nat} {doc : Document} {o : Origin} {p : Option Nat}
    {es : Entries} {f : Field} (hk : k ∉ doc.map Prod.fst) (hf : f.key ∉ es.map Prod.fst) :
    addStatements [k] place (doc ++ [(k, .table o p es)]) (f.statement :: ss) =
      addStatements [k] place (doc ++ [(k, .table o p (es ++ [f.entry]))]) ss := by
  have hs : splitPath? [f.key] = some ([], f.key) := rfl
  rw [Field.statement, addStatements, hs]
  simp only [within, assign, alter_last hk, alter_of_new hf, Option.isNone_none, if_true,
    Option.map_some, Field.entry]

theorem addStatements_fields {place : Nat} {doc : Document} {o : Origin} {p : Option Nat}
    {es : Entries} {fs : List Field} (hk : k ∉ doc.map Prod.fst)
    (hf : (es.map Prod.fst ++ fs.map Field.key).Nodup) :
    addStatements [k] place (doc ++ [(k, .table o p es)]) (fs.map Field.statement ++ ss) =
      addStatements [k] place (doc ++ [(k, .table o p (es ++ fs.map Field.entry))]) ss := by
  induction fs generalizing es with
  | nil => rw [List.map_nil, List.map_nil, List.append_nil, List.nil_append]
  | cons f fs ih =>
    have hnew : f.key ∉ es.map Prod.fst := fun he =>
      (List.nodup_append.1 hf).2.2 _ he _ List.mem_cons_self rfl
    rw [List.map_cons, List.cons_append, addStatements_field hk hnew, ih]
    · rw [List.append_assoc, List.map_cons]
      rfl
    · simpa [Field.entry] using hf

/-- The entries of tables whose headers follow on the `place`-th one. -/
def ofTables (place : Nat) : List Table → Document
  | [] => []
  | t :: ts => t.entry (place + 1) :: ofTables (place + 1) ts

theorem addStatements_tables {path : List Key} {place : Nat} {doc : Document} {ts : List Table}
    (hs : ∀ t ∈ ts, t.IsSound) (hk : (doc.map Prod.fst ++ ts.map Table.key).Nodup) :
    addStatements path place doc (ts.flatMap Table.statements) =
      some (doc ++ ofTables place ts) := by
  induction ts generalizing path place doc with
  | nil => rw [List.flatMap_nil, addStatements, ofTables, List.append_nil]
  | cons t ts ih =>
    have hnew : t.key ∉ doc.map Prod.fst := fun he =>
      (List.nodup_append.1 hk).2.2 _ he _ List.mem_cons_self rfl
    have hnodup : (([] : Entries).map Prod.fst ++ t.fields.map Field.key).Nodup :=
      (hs t List.mem_cons_self).nodup
    rw [List.flatMap_cons, Table.statements, List.cons_append, addStatements_header hnew,
      addStatements_fields hnew hnodup, List.nil_append,
      ih (fun u hu => hs u (List.mem_cons_of_mem t hu)) (by simpa using hk), List.append_assoc]
    rfl

/-- Tables that are written with a blank line between each two of them are read back. -/
theorem parse?_tables {ts : List Table} (hs : ∀ t ∈ ts, t.IsSound)
    (hk : (ts.map Table.key).Nodup) :
    parse? (Text.join ['\n'] (ts.map Table.text)) = some (ofTables 0 ts) := by
  have hmark : (Text.join ['\n'] (ts.map Table.text)).head? ≠ some '\uFEFF' := by
    match ts with
    | [] => simp [Text.join]
    | [t] => simp [Text.join, Table.text, header]
    | t :: u :: ts => simp [Text.join, Table.text, header]
  have hl : Statement.list? (Text.join ['\n'] (ts.map Table.text)) =
      some (ts.flatMap Table.statements) := by
    rw [Statement.list?, if_neg hmark]
    exact lists_tables hs _ (Nat.le_refl _)
  rw [parse?, hl]
  exact addStatements_tables hs hk

/-- Tables as values do not tell where their headers stood. -/
theorem toValue_ofTables (place : Nat) (ts : List Table) :
    (ofTables place ts).toValue = .table false (ts.map fun t =>
      (t.key, .table false (t.fields.map fun f => (f.key, f.value)))) := by
  have hfields (fs : List Field) :
      entriesToValues (fs.map Field.entry) = fs.map fun f => (f.key, f.value) := by
    induction fs with
    | nil => rfl
    | cons f fs ih => rw [List.map_cons, Field.entry, entriesToValues, ih]; rfl
  have htables : entriesToValues (ofTables place ts) = ts.map fun t =>
      (t.key, .table false (t.fields.map fun f => (f.key, f.value))) := by
    induction ts generalizing place with
    | nil => rfl
    | cons t ts ih =>
      rw [ofTables, Table.entry, entriesToValues, ih, Item.toValue, hfields]
      rfl
  rw [toValue, htables]

end Document

end Sweep.Toml
