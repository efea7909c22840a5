import Sweep.Proofs.Depth
import Sweep.Toml.Merge
/-!
# Documents put together by moves

What a statement does to a document does not depend on the statements before it but for the table
that the last header gave: it is a `Move`, a way through the document, key by key, and what is made
at its end. A move changes only what is behind its first key, so moves can be made if, key by key,
those that begin with this key can (`leads_of_keys`). Numbers of headers never decide whether a move
can be made; `Leads` asks for all of them.
-/

namespace Sweep.Toml

/-! ## Entries by their keys -/

section

variable {k : Key} {item : Item} {e : Key × Item} {es es' : Entries}
  {f g : Option Item → Option Item}

theorem lookup_putItem (k : Key) (item : Item) (es : Entries) (j : Key) :
    lookup j (putItem k item es) = if k = j then some item else lookup j es := by
  induction es with
  | nil => rfl
  | cons e es ih =>
    rw [putItem]
    split
    · next h =>
      subst h
      simp only [lookup]
      split <;> rfl
    · next h =>
      rw [lookup, lookup, ih]
      by_cases hk : k = j
      · rw [if_pos hk, if_pos hk, if_neg fun he => h (he.trans hk.symm)]
      · rw [if_neg hk, if_neg hk]

theorem lookup_eq_none_iff : lookup k es = none ↔ k ∉ es.map Prod.fst := by
  induction es with
  | nil => simp [lookup]
  | cons e es ih =>
    obtain ⟨j, item⟩ := e
    rw [lookup, List.map_cons, List.mem_cons, not_or, ← ih]
    by_cases hj : j = k
    · simp [hj]
    · simp [hj, Ne.symm hj]

theorem mem_of_lookup (h : lookup k es = some item) : (k, item) ∈ es := by
  induction es with
  | nil => cases h
  | cons e es ih =>
    obtain ⟨j, i⟩ := e
    rw [lookup] at h
    split at h
    · next hj =>
      cases h
      rw [hj]
      exact List.mem_cons_self
    · exact List.mem_cons_of_mem _ (ih h)

theorem mem_putItem (h : e ∈ putItem k item es) : e = (k, item) ∨ e ∈ es := by
  induction es with
  | nil => exact .inl (List.mem_singleton.1 h)
  | cons d es ih =>
    rw [putItem] at h
    split at h
    · next hk =>
      rcases List.mem_cons.1 h with rfl | h
      · exact .inl (by rw [hk])
      · exact .inr (List.mem_cons_of_mem _ h)
    · rcases List.mem_cons.1 h with rfl | h
      · exact .inr List.mem_cons_self
      · exact (ih h).imp_right (List.mem_cons_of_mem _)

theorem putItem_ne_nil (k : Key) (item : Item) (es : Entries) : putItem k item es ≠ [] := by
  cases es with
  | nil => simp [putItem]
  | cons e es =>
    rw [putItem]
    split <;> simp

theorem nodup_putItem (h : (es.map Prod.fst).Nodup) :
    ((putItem k item es).map Prod.fst).Nodup := by
  induction es with
  | nil => simp [putItem]
  | cons e es ih =>
    obtain ⟨j, i⟩ := e
    rw [putItem]
    split
    · exact h
    · next hj =>
      rw [List.map_cons, List.nodup_cons] at h ⊢
      refine ⟨?_, ih h.2⟩
      rw [← lookup_eq_none_iff, lookup_putItem, if_neg (Ne.symm hj), lookup_eq_none_iff]
      exact h.1

theorem alter_eq (k : Key) (f : Option Item → Option Item) (es : Entries) :
    alter k f es = (f (lookup k es)).map fun item => putItem k item es := by
  induction es with
  | nil => rfl
  | cons e es ih =>
    rw [alter, lookup]
    split
    · next h =>
      simp only [putItem, if_pos h]
    · next h =>
      rw [ih, Option.map_map]
      simp only [putItem, if_neg h, Function.comp_def]

theorem alter_eq_some_iff : alter k f es = some es' ↔
    ∃ item, f (lookup k es) = some item ∧ putItem k item es = es' := by
  rw [alter_eq, Option.map_eq_some_iff]

end

/-- A way from some entries, and what is made at its end. -/
inductive Move where
  /-- The table of a header. -/
  | table (key : Key)
  /-- A new table of a list. -/
  | element (key : Key)
  | value (key : Key) (v : Value)
  /-- On through the table at a key that a header gives. -/
  | through (key : Key) (m : Move)
  /-- On through the table at a key with dots. -/
  | dotted (key : Key) (m : Move)

namespace Move

/-- The key that the way begins with. -/
def key : Move → Key
  | table k | element k | value k _ | through k _ | dotted k _ => k

/-- Whether the move assigns a value right here. -/
def isValue : Move → Bool
  | value _ _ => true
  | _ => false

/-- What a move makes of the item behind its key, when the last header is the `place`-th. -/
def touch (place : Nat) : Move → Option Item → Option Item
  | table _, none => some (.table .header (some place) [])
  | table _, some (.table .implied _ es) => some (.table .header (some place) es)
  | element _, none => some (.tables [(place, [])])
  | element _, some (.tables ts) => some (.tables ((place, []) :: ts))
  | value _ v, none => some (.value v)
  | through _ m, none => (alter m.key (m.touch place) []).map (.table .implied none)
  | through _ m, some (.table o p es) => (alter m.key (m.touch place) es).map (.table o p)
  | through _ m, some (.tables ((p, es) :: ts)) =>
    (alter m.key (m.touch place) es).map fun es => .tables ((p, es) :: ts)
  | dotted _ m, none => (alter m.key (m.touch place) []).map (.table .dotted none)
  | dotted _ m, some (.table .implied p es) | dotted _ m, some (.table .dotted p es) =>
    (alter m.key (m.touch place) es).map (.table .dotted p)
  | dotted _ m, some (.tables ((p, es) :: ts)) =>
    if m.isValue then none
    else (alter m.key (m.touch place) es).map fun es => .tables ((p, es) :: ts)
  | _, _ => none

/-- What a move makes of entries. -/
def act (place : Nat) (m : Move) (es : Entries) : Option Entries := alter m.key (m.touch place) es

/-- What a move makes of an item, which is there then. -/
def reach (place : Nat) (m : Move) (item : Option Item) : Option (Option Item) :=
  (m.touch place item).map some

end Move

section

variable {σ : Type} {f : Nat → Move → σ → Option σ} {ms ms' : List Move} {P Q : σ → Prop} {s : σ}

/-- The moves can be made one after the other, whatever the numbers of the headers are, and then `Q`
holds. -/
def Leads (f : Nat → Move → σ → Option σ) : List Move → (σ → Prop) → σ → Prop
  | [], Q, s => Q s
  | m :: ms, Q, s => ∀ place, ∃ s', f place m s = some s' ∧ Leads f ms Q s'

/-- The moves lead from one state to another with some numbers of headers. -/
def Runs (f : Nat → Move → σ → Option σ) : List Move → σ → σ → Prop
  | [], s, t => s = t
  | m :: ms, s, t => ∃ place s', f place m s = some s' ∧ Runs f ms s' t

theorem Leads.imp (h : Leads f ms P s) (hPQ : ∀ s, P s → Q s) : Leads f ms Q s := by
  induction ms generalizing s with
  | nil => exact hPQ s h
  | cons m ms ih =>
    intro place
    obtain ⟨s', hs, h⟩ := h place
    exact ⟨s', hs, ih h⟩

theorem leads_append : Leads f (ms ++ ms') Q s ↔ Leads f ms (Leads f ms' Q) s := by
  induction ms generalizing s with
  | nil => rfl
  | cons m ms ih => simp only [List.cons_append, Leads, ih]

end

theorem runs_reach_cons {m : Move} {ms : List Move} {old new : Option Item} :
    Runs Move.reach (m :: ms) old new ↔
      ∃ place item, m.touch place old = some item ∧ Runs Move.reach ms (some item) new := by
  simp only [Runs, Move.reach, Option.map_eq_some_iff]
  exact exists_congr fun place => ⟨fun ⟨_, ⟨item, hi, rfl⟩, h⟩ => ⟨item, hi, h⟩,
    fun ⟨item, hi, h⟩ => ⟨_, ⟨item, hi, rfl⟩, h⟩⟩

theorem leads_reach_cons {m : Move} {ms : List Move} {Q : Option Item → Prop}
    {old : Option Item} : Leads Move.reach (m :: ms) Q old ↔
      ∀ place, ∃ item, m.touch place old = some item ∧ Leads Move.reach ms Q (some item) := by
  simp only [Leads, Move.reach, Option.map_eq_some_iff]
  exact forall_congr' fun place => ⟨fun ⟨_, ⟨item, hi, rfl⟩, h⟩ => ⟨item, hi, h⟩,
    fun ⟨item, hi, h⟩ => ⟨_, ⟨item, hi, rfl⟩, h⟩⟩

/-- Moves do not get in each other's way if they do not at any one key. -/
theorem leads_of_keys {ms : List Move} {Q : Key → Option Item → Prop} {es : Entries}
    (h : ∀ k, Leads Move.reach (ms.filter (·.key = k)) (Q k) (lookup k es)) :
    Leads Move.act ms (fun es => ∀ k, Q k (lookup k es)) es := by
  induction ms generalizing es with
  | nil => exact h
  | cons m ms ih =>
    intro place
    have hm := h m.key
    rw [List.filter_cons_of_pos (by simp), leads_reach_cons] at hm
    obtain ⟨item, hi, hm⟩ := hm place
    refine ⟨_, alter_eq_some_iff.2 ⟨item, hi, rfl⟩, ih fun k => ?_⟩
    rw [lookup_putItem]
    by_cases hk : m.key = k
    · subst hk
      rw [if_pos rfl]
      exact hm
    · rw [if_neg hk]
      have := h k
      rwa [List.filter_cons_of_neg (by simpa using hk)] at this

/-- What moves make of an item is what those do that begin with its key. -/
theorem runs_keys {ms : List Move} {es es' : Entries} (h : Runs Move.act ms es es') (k : Key) :
    Runs Move.reach (ms.filter (·.key = k)) (lookup k es) (lookup k es') := by
  induction ms generalizing es with
  | nil => exact congrArg (lookup k) h
  | cons m ms ih =>
    obtain ⟨place, es₁, he, h⟩ := h
    obtain ⟨item, hi, rfl⟩ := alter_eq_some_iff.1 he
    have ih := ih h
    rw [lookup_putItem] at ih
    by_cases hk : m.key = k
    · subst hk
      rw [if_pos rfl] at ih
      rw [List.filter_cons_of_pos (by simp), runs_reach_cons]
      exact ⟨place, item, hi, ih⟩
    · rw [if_neg hk] at ih
      rwa [List.filter_cons_of_neg (by simpa using hk)]

/-! ## Statements as moves -/

namespace Statement

/-- The table that the next statement is about, if this one is about the table at a path. -/
def base (path : List Key) : Statement → List Key
  | header p | element p => p
  | assign _ _ => path

/-- What a statement about the table at a path does. -/
def move? (path : List Key) : Statement → Option Move
  | header p => p.getLast?.map fun k => p.dropLast.foldr .through (.table k)
  | element p => p.getLast?.map fun k => p.dropLast.foldr .through (.element k)
  | assign p v => p.getLast?.map fun k =>
    path.foldr .through (p.dropLast.foldr .dotted (.value k v))

/-- The number of the last header after a statement, if it was this one before it. -/
def place (place : Nat) : Statement → Nat
  | header _ | element _ => place + 1
  | assign _ _ => place

/-- Whether the statement starts with a header. -/
def isHeader : Statement → Bool
  | header _ | element _ => true
  | assign _ _ => false

end Statement

/-- What statements do, the first of which is about the table at a path. -/
def moves (path : List Key) : List Statement → List Move
  | [] => []
  | s :: ss => (s.move? path).toList ++ moves (s.base path) ss

namespace Document

open Move

variable {place : Nat} {es es' : Entries} {k : Key} {v : Value} {m : Move} {p path : List Key}

theorem assign_eq_act (p : List Key) (k : Key) (v : Value) (place : Nat) :
    assign p k v = act place (p.foldr .dotted (.value k v)) := by
  induction p with
  | nil =>
    funext es
    rw [assign]
    show alter k _ es = alter k _ es
    congr 1
    funext old
    cases old <;> rfl
  | cons j p ih =>
    funext es
    rw [assign, ih]
    show alter j _ es = alter j _ es
    congr 1
    funext old
    match old with
    | none | some (.table .implied _ _) | some (.table .dotted _ _) => rfl
    | some (.table .header _ _) | some (.value _) => rfl
    | some (.tables []) => simp [alterLatest, touch]
    | some (.tables ((n, es) :: ts)) =>
      cases p with
      | nil => rfl
      | cons i p =>
        simp only [touch, List.foldr_cons, isValue, reduceCtorEq, if_false, alterLatest,
          Option.map_map]
        rfl

theorem within_eq_act {f : Entries → Option Entries} (hf : f = act place m) (p : List Key) :
    within p f = act place (p.foldr .through m) := by
  induction p with
  | nil =>
    funext es
    rw [within, hf]
    rfl
  | cons j p ih =>
    funext es
    rw [within, ih]
    show alter j _ es = alter j _ es
    congr 1
    funext old
    match old with
    | none | some (.table _ _ _) | some (.tables []) | some (.value _) => rfl
    | some (.tables ((n, es) :: ts)) =>
      simp only [touch, List.foldr_cons, alterLatest, Option.map_map]
      rfl

theorem openTable_eq_act (k : Key) (place : Nat) : openTable place k = act place (.table k) := by
  funext es
  show alter k _ es = alter k _ es
  congr 1
  funext old
  match old with
  | none | some (.table .implied _ _) | some (.table .header _ _) | some (.table .dotted _ _)
  | some (.value _) | some (.tables _) => rfl

theorem openElement_eq_act (k : Key) (place : Nat) :
    openElement place k = act place (.element k) := by
  funext es
  show alter k _ es = alter k _ es
  congr 1
  funext old
  match old with
  | none | some (.tables _) | some (.table _ _ _) | some (.value _) => rfl

theorem splitPath?_eq (hp : p ≠ []) (hn : p.length ≤ depthLimit) :
    splitPath? p = some (p.dropLast, p.getLast hp) := by
  rw [splitPath?, if_pos hn, List.getLast?_eq_some_getLast hp, Option.map_some]

/-- A statement with keys, not too many, does what its move does. -/
theorem addStatements_cons {s : Statement} (hs : s.HasKeys depthLimit) (path : List Key)
    (place : Nat) (doc : Document) (ss : List Statement) : ∃ m, s.move? path = some m ∧
      addStatements path place doc (s :: ss) = (act (s.place place) m doc).bind fun doc =>
        addStatements (s.base path) (s.place place) doc ss := by
  cases s with
  | header p =>
    obtain ⟨hp, hn⟩ : p ≠ [] ∧ p.length ≤ depthLimit := hs
    refine ⟨p.dropLast.foldr .through (.table (p.getLast hp)), ?_, ?_⟩
    · rw [Statement.move?, List.getLast?_eq_some_getLast hp, Option.map_some]
    · simp only [addStatements, splitPath?_eq hp hn, Statement.place, Statement.base,
        within_eq_act (openTable_eq_act (p.getLast hp) (place + 1))]
      cases act (place + 1) _ doc <;> rfl
  | element p =>
    obtain ⟨hp, hn⟩ : p ≠ [] ∧ p.length ≤ depthLimit := hs
    refine ⟨p.dropLast.foldr .through (.element (p.getLast hp)), ?_, ?_⟩
    · rw [Statement.move?, List.getLast?_eq_some_getLast hp, Option.map_some]
    · simp only [addStatements, splitPath?_eq hp hn, Statement.place, Statement.base,
        within_eq_act (openElement_eq_act (p.getLast hp) (place + 1))]
      cases act (place + 1) _ doc <;> rfl
  | assign p v =>
    obtain ⟨hp, hn⟩ : p ≠ [] ∧ p.length ≤ depthLimit := hs
    refine ⟨path.foldr .through (p.dropLast.foldr .dotted (.value (p.getLast hp) v)), ?_, ?_⟩
    · rw [Statement.move?, List.getLast?_eq_some_getLast hp, Option.map_some]
    · simp only [addStatements, splitPath?_eq hp hn, Statement.place, Statement.base,
        within_eq_act (assign_eq_act p.dropLast (p.getLast hp) v place)]
      cases act place _ doc <;> rfl

/-- A statement without keys, or with too many, cannot be added. -/
theorem hasKeys_of_addStatements {s : Statement} {doc doc' : Document} {ss : List Statement}
    (h : addStatements path place doc (s :: ss) = some doc') : s.HasKeys depthLimit := by
  have hsplit {p : List Key} {x : List Key × Key} (hp : splitPath? p = some x) :
      p ≠ [] ∧ p.length ≤ depthLimit := by
    rw [splitPath?] at hp
    split at hp
    · next hn =>
      refine ⟨?_, hn⟩
      rintro rfl
      cases hp
    · cases hp
  cases s with
  | header p | element p | assign p v =>
    rw [addStatements] at h
    split at h
    · cases h
    · next hp => exact hsplit hp

/-- If the moves of statements can be made, the statements can be added. -/
theorem addStatements_of_leads {ss : List Statement} {Q : Entries → Prop} {doc : Document}
    (hs : ∀ s ∈ ss, s.HasKeys depthLimit) (h : Leads act (moves path ss) Q doc) :
    ∃ doc', addStatements path place doc ss = some doc' ∧ Q doc' := by
  induction ss generalizing path place doc with
  | nil => exact ⟨doc, rfl, h⟩
  | cons s ss ih =>
    rw [List.forall_mem_cons] at hs
    obtain ⟨m, hm, hadd⟩ := addStatements_cons hs.1 path place doc ss
    rw [moves, hm, Option.toList_some, List.singleton_append] at h
    obtain ⟨doc', hd, h⟩ := h (s.place place)
    rw [hadd, hd, Option.bind_some]
    exact ih hs.2 h

/-- If statements can be added, their moves were made. -/
theorem runs_of_addStatements {ss : List Statement} {doc doc' : Document}
    (h : addStatements path place doc ss = some doc') : Runs act (moves path ss) doc doc' := by
  induction ss generalizing path place doc with
  | nil => exact Option.some.inj h
  | cons s ss ih =>
    obtain ⟨m, hm, hadd⟩ :=
      addStatements_cons (hasKeys_of_addStatements h) path place doc ss
    rw [hadd, Option.bind_eq_some_iff] at h
    obtain ⟨d, hd, h⟩ := h
    rw [moves, hm, Option.toList_some, List.singleton_append]
    exact ⟨_, d, hd, ih h⟩

end Document

end Sweep.Toml
