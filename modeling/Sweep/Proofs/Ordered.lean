import Sweep.Proofs.Layout
/-!
# Documents whose headers are in order

A document that was read has no key twice in a table, no empty table but those of headers, and the
tables of a list, with all that is in them, have their headers in the order of the list
(`isSound_of_parse?`). Merging keeps only part of it: each list is still in order, but tables of one
document stand anywhere among those of another (`IsSound`).
-/

namespace Sweep.Toml

mutual

/-- Whether the headers in an item lie between two places, those of a list in its order. -/
def Item.IsOrdered (lo hi : Nat) : Item → Prop
  | .value _ => True
  | .table o place es =>
    (o = .header ∨ es ≠ []) ∧ (∀ p ∈ place, lo ≤ p ∧ p ≤ hi) ∧ entriesOrdered lo hi es
  | .tables ts => ts ≠ [] ∧ elementsOrdered lo hi ts

/-- Whether the headers in some entries lie between two places. -/
def entriesOrdered (lo hi : Nat) : Entries → Prop
  | [] => True
  | (k, item) :: es => k ∉ es.map Prod.fst ∧ item.IsOrdered lo hi ∧ entriesOrdered lo hi es

/-- Whether the tables of a list follow each other between two places. -/
def elementsOrdered (lo hi : Nat) : List (Nat × Entries) → Prop
  | [] => True
  | (p, es) :: earlier =>
    lo ≤ p ∧ p ≤ hi ∧ entriesOrdered p hi es ∧ elementsOrdered lo p earlier

end

mutual

/-- Whether each list in an item is in order. -/
def Item.IsSound : Item → Prop
  | .value _ => True
  | .table o _ es => (o = .header ∨ es ≠ []) ∧ entriesSound es
  | .tables ts => ts ≠ [] ∧ ∃ hi, elementsOrdered 0 hi ts

/-- Whether each list in some entries is in order. -/
def entriesSound : Entries → Prop
  | [] => True
  | (k, item) :: es => k ∉ es.map Prod.fst ∧ item.IsSound ∧ entriesSound es

end

mutual

/-- Whether no table in an item has a key twice, and no list is empty. -/
def Item.IsKeyed : Item → Prop
  | .value _ => True
  | .table _ _ es => entriesKeyed es
  | .tables ts => ts ≠ []

/-- Whether no key is there twice. -/
def entriesKeyed : Entries → Prop
  | [] => True
  | (k, item) :: es => k ∉ es.map Prod.fst ∧ item.IsKeyed ∧ entriesKeyed es

end

/-- A document in which no key is twice in a table, tables of lists apart. -/
def Document.IsKeyed (doc : Document) : Prop := entriesKeyed doc

/-- A document in which no key is twice in a table, no table is there without need, and each list
of tables is in order. -/
def Document.IsSound (doc : Document) : Prop := entriesSound doc

variable {lo hi lo' hi' : Nat} {es es' : Entries} {ts : List (Nat × Entries)} {k : Key}

theorem entriesOrdered_iff : entriesOrdered lo hi es ↔
    (es.map Prod.fst).Nodup ∧ ∀ e ∈ es, e.2.IsOrdered lo hi := by
  induction es with
  | nil => simp [entriesOrdered]
  | cons e es ih =>
    rw [entriesOrdered, ih, List.map_cons, List.nodup_cons, List.forall_mem_cons]
    tauto

theorem entriesSound_iff : entriesSound es ↔
    (es.map Prod.fst).Nodup ∧ ∀ e ∈ es, e.2.IsSound := by
  induction es with
  | nil => simp [entriesSound]
  | cons e es ih =>
    rw [entriesSound, ih, List.map_cons, List.nodup_cons, List.forall_mem_cons]
    tauto

theorem entriesKeyed_iff : entriesKeyed es ↔
    (es.map Prod.fst).Nodup ∧ ∀ e ∈ es, e.2.IsKeyed := by
  induction es with
  | nil => simp [entriesKeyed]
  | cons e es ih =>
    rw [entriesKeyed, ih, List.map_cons, List.nodup_cons, List.forall_mem_cons]
    tauto

mutual

theorem Item.IsSound.isKeyed : (item : Item) → item.IsSound → item.IsKeyed
  | .value _, _ => trivial
  | .table _ _ es, ⟨_, h⟩ => entriesKeyed_of_sound es h
  | .tables _, ⟨h, _⟩ => h

theorem entriesKeyed_of_sound : (es : Entries) → entriesSound es → entriesKeyed es
  | [], _ => trivial
  | (_, item) :: es, ⟨hk, hi, h⟩ => ⟨hk, hi.isKeyed item, entriesKeyed_of_sound es h⟩

end

theorem Document.IsSound.isKeyed {doc : Document} (h : doc.IsSound) : doc.IsKeyed :=
  entriesKeyed_of_sound doc h

mutual

theorem Item.IsOrdered.mono : (item : Item) → {lo hi lo' hi' : Nat} → lo' ≤ lo → hi ≤ hi' →
    item.IsOrdered lo hi → item.IsOrdered lo' hi'
  | .value _, _, _, _, _, _, _, _ => trivial
  | .table _ _ es, _, _, _, _, hlo, hhi, ⟨he, hp, h⟩ =>
    ⟨he, fun p hm => ⟨hlo.trans (hp p hm).1, (hp p hm).2.trans hhi⟩,
      entriesOrdered_mono es hlo hhi h⟩
  | .tables ts, _, _, _, _, hlo, hhi, ⟨he, h⟩ => ⟨he, elementsOrdered_mono ts hlo hhi h⟩

theorem entriesOrdered_mono : (es : Entries) → {lo hi lo' hi' : Nat} → lo' ≤ lo → hi ≤ hi' →
    entriesOrdered lo hi es → entriesOrdered lo' hi' es
  | [], _, _, _, _, _, _, _ => trivial
  | (_, item) :: es, _, _, _, _, hlo, hhi, ⟨hk, hi, h⟩ =>
    ⟨hk, hi.mono item hlo hhi, entriesOrdered_mono es hlo hhi h⟩

theorem elementsOrdered_mono : (ts : List (Nat × Entries)) → {lo hi lo' hi' : Nat} →
    lo' ≤ lo → hi ≤ hi' → elementsOrdered lo hi ts → elementsOrdered lo' hi' ts
  | [], _, _, _, _, _, _, _ => trivial
  | (p, es) :: ts, _, _, _, _, hlo, hhi, ⟨hp, hp', h, hts⟩ =>
    ⟨hlo.trans hp, hp'.trans hhi, entriesOrdered_mono es (Nat.le_refl p) hhi h,
      elementsOrdered_mono ts hlo (Nat.le_refl p) hts⟩

end

mutual

theorem Item.IsOrdered.isSound : (item : Item) → {lo hi : Nat} → item.IsOrdered lo hi →
    item.IsSound
  | .value _, _, _, _ => trivial
  | .table _ _ es, _, _, ⟨he, _, h⟩ => ⟨he, entriesSound_of_ordered es h⟩
  | .tables ts, _, hi, ⟨he, h⟩ =>
    ⟨he, hi, elementsOrdered_mono ts (Nat.zero_le _) (Nat.le_refl hi) h⟩

theorem entriesSound_of_ordered : (es : Entries) → {lo hi : Nat} → entriesOrdered lo hi es →
    entriesSound es
  | [], _, _, _ => trivial
  | (_, item) :: es, _, _, ⟨hk, hi, h⟩ => ⟨hk, hi.isSound item, entriesSound_of_ordered es h⟩

end

/-! ## What is read is in order -/

theorem entriesOrdered_putItem {item : Item} (hitem : item.IsOrdered lo hi)
    (h : entriesOrdered lo hi es) : entriesOrdered lo hi (putItem k item es) := by
  rw [entriesOrdered_iff] at h ⊢
  refine ⟨nodup_putItem h.1, fun e he => ?_⟩
  rcases mem_putItem he with rfl | he
  · exact hitem
  · exact h.2 e he

theorem isOrdered_of_lookup {item : Item} (h : entriesOrdered lo hi es)
    (hl : lookup k es = some item) : item.IsOrdered lo hi :=
  (entriesOrdered_iff.1 h).2 _ (mem_of_lookup hl)

namespace Document

variable {n : Nat} {path : List Key}

/-- Whether a change keeps entries in order up to the `n`-th header and leaves some. -/
def KeepsOrder (n : Nat) (f : Entries → Option Entries) : Prop :=
  ∀ lo ≤ n, ∀ es es', entriesOrdered lo n es → f es = some es' →
    entriesOrdered lo n es' ∧ es' ≠ []

theorem keepsOrder_alter {f : Option Item → Option Item}
    (hf : ∀ lo ≤ n, ∀ old item, (∀ i ∈ old, i.IsOrdered lo n) → f old = some item →
      item.IsOrdered lo n) : KeepsOrder n (alter k f) := by
  intro lo hlo es es' h he
  obtain ⟨item, hi, rfl⟩ := alter_eq_some_iff.1 he
  exact ⟨entriesOrdered_putItem (hf lo hlo _ item (fun i hl => isOrdered_of_lookup h hl) hi) h,
    putItem_ne_nil _ _ _⟩

/-- A change of the entries of a table keeps the table in order. -/
theorem isOrdered_table {f : Entries → Option Entries} (hf : KeepsOrder n f) (hlo : lo ≤ n)
    {o : Origin} {p : Option Nat} {item : Item} (hp : ∀ m ∈ p, lo ≤ m ∧ m ≤ n)
    (h : entriesOrdered lo n es) (hi : (f es).map (.table o p) = some item) :
    item.IsOrdered lo n := by
  obtain ⟨es', he, rfl⟩ := Option.map_eq_some_iff.1 hi
  obtain ⟨hes, hne⟩ := hf lo hlo es es' h he
  exact ⟨.inr hne, hp, hes⟩

/-- A change of the last table of a list keeps the list in order. -/
theorem isOrdered_latest {f : Entries → Option Entries} (hf : KeepsOrder n f) {p : Nat}
    {item : Item} (h : (Item.tables ((p, es) :: ts)).IsOrdered lo n)
    (hi : (f es).map (fun es => .tables ((p, es) :: ts)) = some item) : item.IsOrdered lo n := by
  obtain ⟨es', he, rfl⟩ := Option.map_eq_some_iff.1 hi
  obtain ⟨-, hp, hp', hes, hts⟩ := h
  exact ⟨List.cons_ne_nil _ _, hp, hp', (hf p hp' es es' hes he).1, hts⟩

/-- Moves keep order while the last header is the `n`-th. -/
theorem isOrdered_touch (m : Move) : ∀ lo ≤ n, ∀ old item, (∀ i ∈ old, i.IsOrdered lo n) →
    m.touch n old = some item → item.IsOrdered lo n := by
  induction m with
  | table k =>
    intro lo hlo old item ho hi
    have hplace : ∀ p ∈ some n, lo ≤ p ∧ p ≤ n := by
      rintro _ ⟨⟩
      exact ⟨hlo, Nat.le_refl n⟩
    match old with
    | none =>
      cases hi
      exact ⟨.inl rfl, hplace, trivial⟩
    | some (.table .implied _ es) =>
      cases hi
      exact ⟨.inl rfl, hplace, (ho _ rfl).2.2⟩
    | some (.table .header _ _) | some (.table .dotted _ _) | some (.value _)
    | some (.tables _) => cases hi
  | element k =>
    intro lo hlo old item ho hi
    match old with
    | none =>
      cases hi
      exact ⟨List.cons_ne_nil _ _, hlo, Nat.le_refl n, trivial, trivial⟩
    | some (.tables ts) =>
      -- The new table has the last header of all, so the others stand before it.
      cases hi
      exact ⟨List.cons_ne_nil _ _, hlo, Nat.le_refl n, trivial, (ho _ rfl).2⟩
    | some (.table _ _ _) | some (.value _) => cases hi
  | value k v =>
    intro lo _ old item _ hi
    match old with
    | none =>
      cases hi
      trivial
    | some _ => cases hi
  | through k m ih =>
    have hact : KeepsOrder n (m.act n) := keepsOrder_alter ih
    intro lo hlo old item ho hi
    match old with
    | none =>
      have hnil : entriesOrdered lo n [] := trivial
      exact isOrdered_table hact hlo (fun _ h => by cases h) hnil hi
    | some (.table _ _ _) => exact isOrdered_table hact hlo (ho _ rfl).2.1 (ho _ rfl).2.2 hi
    | some (.tables ((_, _) :: _)) => exact isOrdered_latest hact (ho _ rfl) hi
    | some (.tables []) | some (.value _) => cases hi
  | dotted k m ih =>
    have hact : KeepsOrder n (m.act n) := keepsOrder_alter ih
    intro lo hlo old item ho hi
    match old with
    | none =>
      have hnil : entriesOrdered lo n [] := trivial
      exact isOrdered_table hact hlo (fun _ h => by cases h) hnil hi
    | some (.table .implied _ _) | some (.table .dotted _ _) =>
      exact isOrdered_table hact hlo (ho _ rfl).2.1 (ho _ rfl).2.2 hi
    | some (.tables ((_, _) :: _)) =>
      rw [Move.touch] at hi
      split at hi
      · cases hi
      · exact isOrdered_latest hact (ho _ rfl) hi
    | some (.table .header _ _) | some (.tables []) | some (.value _) => cases hi

theorem addStatements_ordered {ss : List Statement} {doc doc' : Document}
    (h : entriesOrdered 0 n doc) (hd : addStatements path n doc ss = some doc') :
    ∃ n', entriesOrdered 0 n' doc' := by
  induction ss generalizing path n doc with
  | nil =>
    cases hd
    exact ⟨n, h⟩
  | cons s ss ih =>
    obtain ⟨m, -, hadd⟩ := addStatements_cons (hasKeys_of_addStatements hd) path n doc ss
    rw [hadd, Option.bind_eq_some_iff] at hd
    obtain ⟨d, hm, hd⟩ := hd
    have hle : n ≤ s.place n := by cases s <;> simp [Statement.place]
    have hnext := entriesOrdered_mono doc (Nat.le_refl 0) hle h
    have hact : KeepsOrder (s.place n) (m.act (s.place n)) := keepsOrder_alter (isOrdered_touch m)
    exact ih (hact 0 (Nat.zero_le _) doc d hnext hm).1 hd

/-- A document that was read is sound. -/
theorem isSound_of_parse? {t : Text} {doc : Document} (h : parse? t = some doc) : doc.IsSound := by
  obtain ⟨ss, -, hd⟩ := Option.bind_eq_some_iff.1 h
  have hnil : entriesOrdered 0 0 [] := trivial
  obtain ⟨n, ho⟩ := addStatements_ordered hnil hd
  exact entriesSound_of_ordered doc ho

end Document

/-! ## Places of sections -/

/-- Whether sections stand between two places, and the place at which the last of them ends. -/
def Between (lo hi : Nat) (ss : List Section × Nat) : Prop :=
  (∀ s ∈ ss.1, lo ≤ s.place ∧ s.place ≤ hi) ∧ lo ≤ ss.2 ∧ ss.2 ≤ hi

theorem place_ofTable (place : Nat) (path : List Key) (o : Origin) (es : Entries) :
    (Section.ofTable place path o es).place = place := by
  simp only [Section.ofTable]
  split <;> rfl

mutual

theorem Item.between_sections : (item : Item) → (path : List Key) → {lo hi last : Nat} →
    item.IsOrdered lo hi → lo ≤ last → last ≤ hi → Between lo hi (item.sections path last)
  | .value _, _, _, _, _, _, hlo, hhi => ⟨by simp [Item.sections], hlo, hhi⟩
  | .table .dotted _ es, path, _, _, _, ⟨_, _, h⟩, hlo, hhi =>
    between_entrySections es path h hlo hhi
  | .table .header p es, path, lo, hi, last, ⟨_, hp, h⟩, hlo, hhi
  | .table .implied p es, path, lo, hi, last, ⟨_, hp, h⟩, hlo, hhi => by
    have hplace : lo ≤ p.getD last ∧ p.getD last ≤ hi := by
      cases p with
      | none => exact ⟨hlo, hhi⟩
      | some p => exact hp p rfl
    obtain ⟨hs, hl⟩ := between_entrySections es path h hplace.1 hplace.2
    simp only [Item.sections, Between, List.forall_mem_cons, place_ofTable]
    exact ⟨⟨hplace, hs⟩, hl⟩
  | .tables [], _, _, _, _, _, hlo, hhi => ⟨by simp [Item.sections], hlo, hhi⟩
  | .tables ((p, es) :: ts), path, lo, hi, _, ⟨_, hp, hp', h, hts⟩, _, _ => by
    obtain ⟨hs, hl⟩ := between_entrySections es path h (Nat.le_refl p) hp'
    simp only [Item.sections, Between]
    rw [earlierSections_append, List.forall_mem_append, List.forall_mem_cons]
    exact ⟨⟨fun s hm => (between_earlierSections ts path hts s hm).imp_right (·.trans hp'),
      ⟨hp, hp'⟩, fun s hm => (hs s hm).imp_left hp.trans⟩, hp.trans hl.1, hl.2⟩

theorem between_entrySections : (es : Entries) → (path : List Key) → {lo hi last : Nat} →
    entriesOrdered lo hi es → lo ≤ last → last ≤ hi → Between lo hi (entrySections path last es)
  | [], _, _, _, _, _, hlo, hhi => ⟨by simp [entrySections], hlo, hhi⟩
  | (k, item) :: es, path, _, _, last, ⟨_, hi, h⟩, hlo, hhi => by
    obtain ⟨hs, hlo, hhi⟩ := item.between_sections (path ++ [k]) hi hlo hhi
    obtain ⟨hss, hl⟩ := between_entrySections es path h hlo hhi
    simp only [entrySections, Between]
    rw [List.forall_mem_append]
    exact ⟨⟨hs, hss⟩, hl⟩

theorem between_earlierSections : (ts : List (Nat × Entries)) → (path : List Key) →
    {lo hi : Nat} → elementsOrdered lo hi ts →
    ∀ s ∈ earlierSections path ts [], lo ≤ s.place ∧ s.place ≤ hi
  | [], _, _, _, _ => by simp [earlierSections]
  | (p, es) :: ts, path, lo, hi, ⟨hp, hp', h, hts⟩ => by
    obtain ⟨hs, -⟩ := between_entrySections es path h (Nat.le_refl p) hp'
    rw [earlierSections, earlierSections_append, List.append_nil, List.forall_mem_append,
      List.forall_mem_cons]
    exact ⟨fun s hm => (between_earlierSections ts path hts s hm).imp_right (·.trans hp'),
      ⟨hp, hp'⟩, fun s hm => (hs s hm).imp_left hp.trans⟩

end

/-- All that is in a table of a list is written after its header. -/
theorem place_of_mem_entryMoves {p : Nat} (h : entriesOrdered p hi es) (hp : p ≤ hi)
    {m : Nat × Move} (hm : m ∈ entryMoves p p es) : p ≤ m.1 ∧ m.1 ≤ hi := by
  rcases List.mem_append.1 hm with hm | hm
  · obtain ⟨_, -, rfl⟩ := List.mem_map.1 hm
    exact ⟨Nat.le_refl p, hp⟩
  · obtain ⟨s, hs, hm⟩ := List.mem_flatMap.1 hm
    obtain ⟨_, -, rfl⟩ := List.mem_map.1 hm
    exact (between_entrySections es [] h (Nat.le_refl p) hp).1 s hs

theorem place_of_mem_itemMoves {here last : Nat} (h : elementsOrdered lo hi ts) {m : Nat × Move}
    (hm : m ∈ itemMoves here last k (.tables ts)) : m.1 ≤ hi := by
  induction ts generalizing hi with
  | nil => cases hm
  | cons t ts ih =>
    obtain ⟨p, es⟩ := t
    obtain ⟨-, hp, hes, hts⟩ := h
    rw [itemMoves_tables, List.mem_append, List.mem_cons] at hm
    rcases hm with hm | rfl | hm
    · exact (ih hts hm).trans hp
    · exact hp
    · obtain ⟨m, hmem, rfl⟩ := List.mem_map.1 hm
      exact (place_of_mem_entryMoves hes hp hmem).2

end Sweep.Toml
