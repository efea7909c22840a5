import Sweep.Proofs.Moves
import Sweep.Proofs.Places
/-!
# A document as it is written

What the statements of a document do, as moves with the place at which each is made. What is below
a key is written like a document of its own with one key more in front (`moves_assignments_cons`,
`moves_entrySections_cons`), so the moves that begin with a key are those of the item behind it
(`filter_entryMoves`).
-/

namespace Sweep.Toml

variable {path keys : List Key} {k : Key} {ss ss' : List Statement} {es : Entries}

/-! ## Assignments -/

theorem moves_append (hs : ∀ s ∈ ss, s.isHeader = false) :
    moves path (ss ++ ss') = moves path ss ++ moves path ss' := by
  induction ss with
  | nil => rfl
  | cons s ss ih =>
    rw [List.forall_mem_cons] at hs
    cases s with
    | assign => rw [List.cons_append, moves, moves, Statement.base, ih hs.2, List.append_assoc]
    | header | element => cases hs.1

theorem moves_through (hs : ∀ s ∈ ss, s.isHeader = false) :
    moves (k :: path) ss = (moves path ss).map (.through k) := by
  induction ss with
  | nil => rfl
  | cons s ss ih =>
    rw [List.forall_mem_cons] at hs
    rw [moves, moves, List.map_append]
    cases s with
    | assign p v =>
      rw [Statement.base, Statement.base, ih hs.2]
      cases h : p.getLast? <;> simp [Statement.move?, h]
    | header | element => cases hs.1

mutual

theorem Item.isHeader_of_mem_assignments : (item : Item) → (keys : List Key) →
    ∀ s ∈ item.assignments keys, s.isHeader = false
  | .value v, keys => by simp [Item.assignments, Statement.isHeader]
  | .table .dotted _ es, keys => isHeader_of_mem_entryAssignments es keys
  | .table .header _ _, _ | .table .implied _ _, _ | .tables _, _ => by simp [Item.assignments]

theorem isHeader_of_mem_entryAssignments : (es : Entries) → (keys : List Key) →
    ∀ s ∈ entryAssignments keys es, s.isHeader = false
  | [], _ => by simp [entryAssignments]
  | (k, item) :: es, keys => by
    rw [entryAssignments, List.forall_mem_append]
    exact ⟨item.isHeader_of_mem_assignments _, isHeader_of_mem_entryAssignments es keys⟩

end

mutual

theorem Item.moves_assignments_cons : (item : Item) → (k : Key) → (keys : List Key) → keys ≠ [] →
    moves [] (item.assignments (k :: keys)) = (moves [] (item.assignments keys)).map (.dotted k)
  | .value v, k, keys, h => by
    obtain ⟨j, hj⟩ := Option.isSome_iff_exists.1 (List.getLast?_isSome.2 h)
    simp [Item.assignments, moves, Statement.move?, List.getLast?_cons, hj,
      List.dropLast_cons_of_ne_nil h]
  | .table .dotted _ es, k, keys, _ => moves_assignments_cons es k keys
  | .table .header _ _, _, _, _ | .table .implied _ _, _, _, _ | .tables _, _, _, _ => rfl

theorem moves_assignments_cons : (es : Entries) → (k : Key) → (keys : List Key) →
    moves [] (entryAssignments (k :: keys) es) =
      (moves [] (entryAssignments keys es)).map (.dotted k)
  | [], _, _ => rfl
  | (j, item) :: es, k, keys => by
    rw [entryAssignments, entryAssignments, moves_append (item.isHeader_of_mem_assignments _),
      moves_append (item.isHeader_of_mem_assignments _), List.map_append, List.cons_append,
      item.moves_assignments_cons k _ (by simp), moves_assignments_cons es k keys]

end

/-! ## Sections -/

/-- What the statements of a section do, and where the section stands. -/
def Section.moves (s : Section) : List (Nat × Move) :=
  (Toml.moves [] s.statements).map (s.place, ·)

/-- The moves of some sections with one key more in front. -/
def movesThrough (k : Key) (ms : List (Nat × Move)) : List (Nat × Move) :=
  ms.map fun m => (m.1, .through k m.2)

theorem movesThrough_append (k : Key) (ms ms' : List (Nat × Move)) :
    movesThrough k (ms ++ ms') = movesThrough k ms ++ movesThrough k ms' := List.map_append

theorem moves_ofTable (place : Nat) (hp : path ≠ []) (o : Origin) (es : Entries) :
    (Section.ofTable place (k :: path) o es).moves =
      movesThrough k (Section.ofTable place path o es).moves := by
  have hv := isHeader_of_mem_entryAssignments es []
  obtain ⟨j, hj⟩ := Option.isSome_iff_exists.1 (List.getLast?_isSome.2 hp)
  simp only [Section.ofTable]
  split
  · rfl
  · simp [Section.moves, moves, movesThrough, Statement.move?, Statement.base, List.getLast?_cons,
      hj, List.dropLast_cons_of_ne_nil hp, moves_through hv]

theorem moves_ofElement (place : Nat) (hp : path ≠ []) (es : Entries) :
    (Section.ofElement place (k :: path) es).moves =
      movesThrough k (Section.ofElement place path es).moves := by
  have hv := isHeader_of_mem_entryAssignments es []
  obtain ⟨j, hj⟩ := Option.isSome_iff_exists.1 (List.getLast?_isSome.2 hp)
  simp [Section.ofElement, Section.moves, moves, movesThrough, Statement.move?, Statement.base,
    List.getLast?_cons, hj, List.dropLast_cons_of_ne_nil hp, moves_through hv]

mutual

theorem Item.moves_sections_cons : (item : Item) → (path : List Key) → (last : Nat) → path ≠ [] →
    (item.sections (k :: path) last).1.flatMap Section.moves =
        movesThrough k ((item.sections path last).1.flatMap Section.moves) ∧
      (item.sections (k :: path) last).2 = (item.sections path last).2
  | .value _, _, _, _ => ⟨rfl, rfl⟩
  | .table .dotted _ es, path, last, _ => moves_entrySections_cons es path last
  | .table .header p es, path, last, h | .table .implied p es, path, last, h => by
    obtain ⟨hm, hl⟩ := moves_entrySections_cons es path (p.getD last)
    simp only [Item.sections, List.flatMap_cons, movesThrough_append, hm, hl, moves_ofTable _ h,
      and_self]
  | .tables [], _, _, _ => ⟨rfl, rfl⟩
  | .tables ((p, es) :: earlier), path, last, h => by
    obtain ⟨hm, hl⟩ := moves_entrySections_cons es path p
    refine ⟨?_, hl⟩
    simp only [Item.sections]
    apply moves_earlierSections_cons earlier path h
    simp only [List.flatMap_cons, movesThrough_append, hm, moves_ofElement _ h]

theorem moves_entrySections_cons : (es : Entries) → (path : List Key) → (last : Nat) →
    (entrySections (k :: path) last es).1.flatMap Section.moves =
        movesThrough k ((entrySections path last es).1.flatMap Section.moves) ∧
      (entrySections (k :: path) last es).2 = (entrySections path last es).2
  | [], _, _ => ⟨rfl, rfl⟩
  | (j, item) :: es, path, last => by
    obtain ⟨hm, hl⟩ := item.moves_sections_cons (path ++ [j]) last (by simp)
    obtain ⟨hms, hls⟩ := moves_entrySections_cons es path (item.sections (path ++ [j]) last).2
    simp only [entrySections, List.cons_append, List.flatMap_append, movesThrough_append, hm, hl,
      hms, hls, and_self]

theorem moves_earlierSections_cons : (ts : List (Nat × Entries)) → (path : List Key) → path ≠ [] →
    {later later' : List Section} →
    later'.flatMap Section.moves = movesThrough k (later.flatMap Section.moves) →
    (earlierSections (k :: path) ts later').flatMap Section.moves =
      movesThrough k ((earlierSections path ts later).flatMap Section.moves)
  | [], _, _, _, _, hl => hl
  | (p, es) :: ts, path, h, _, _, hl => by
    simp only [earlierSections]
    apply moves_earlierSections_cons ts path h
    simp only [List.flatMap_cons, List.flatMap_append, movesThrough_append, hl,
      (moves_entrySections_cons es path p).1, moves_ofElement _ h]

end

/-! ## Items -/

/-- What the statements of some entries do, if the values among them stand at `here` and the section
before the others at `last`. -/
def entryMoves (here last : Nat) (es : Entries) : List (Nat × Move) :=
  (moves [] (entryAssignments [] es)).map (here, ·) ++
    (entrySections [] last es).1.flatMap Section.moves

/-- What the statements of an item do. -/
def itemMoves (here last : Nat) (k : Key) (item : Item) : List (Nat × Move) :=
  (moves [] (item.assignments [k])).map (here, ·) ++
    (item.sections [k] last).1.flatMap Section.moves

variable {here last : Nat}

theorem itemMoves_value (v : Value) : itemMoves here last k (.value v) = [(here, .value k v)] := rfl

theorem itemMoves_dotted (p : Option Nat) (es : Entries) :
    itemMoves here last k (.table .dotted p es) =
      (moves [] (entryAssignments [] es)).map (fun m => (here, .dotted k m)) ++
        movesThrough k ((entrySections [] last es).1.flatMap Section.moves) := by
  rw [itemMoves, Item.assignments, Item.sections, moves_assignments_cons, List.map_map,
    (moves_entrySections_cons es [] last).1]
  rfl

theorem itemMoves_table {o : Origin} (ho : o ≠ .dotted) (p : Option Nat) (es : Entries) :
    itemMoves here last k (.table o p es) =
      (if o = .implied ∧ (entryAssignments [] es).isEmpty then []
        else [(p.getD last, .table k)]) ++
      movesThrough k (entryMoves (p.getD last) (p.getD last) es) := by
  have hv := isHeader_of_mem_entryAssignments es []
  have htable : (Section.ofTable (p.getD last) [k] o es).moves =
      (if o = .implied ∧ (entryAssignments [] es).isEmpty then []
        else [(p.getD last, .table k)]) ++
      movesThrough k ((moves [] (entryAssignments [] es)).map (p.getD last, ·)) := by
    simp only [Section.ofTable]
    split
    · next h =>
      rw [List.isEmpty_iff.1 h.2]
      rfl
    · simp [Section.moves, moves, movesThrough, Statement.move?, Statement.base, moves_through hv]
  have hsections : itemMoves here last k (.table o p es) =
      (Section.ofTable (p.getD last) [k] o es).moves ++
        (entrySections [k] (p.getD last) es).1.flatMap Section.moves := by
    cases o with
    | dotted => exact absurd rfl ho
    | header | implied => rfl
  rw [hsections, htable, (moves_entrySections_cons es [] _).1, entryMoves, movesThrough_append,
    List.append_assoc]

theorem earlierSections_append (ts : List (Nat × Entries)) (path : List Key)
    (later : List Section) :
    earlierSections path ts later = earlierSections path ts [] ++ later := by
  induction ts generalizing later with
  | nil => rfl
  | cons t ts ih =>
    obtain ⟨p, es⟩ := t
    rw [earlierSections, earlierSections, ih, ih (_ :: _)]
    simp

theorem sections_tables (path : List Key) (last : Nat) (ts : List (Nat × Entries)) :
    ((Item.tables ts).sections path last).1 = earlierSections path ts [] := by
  cases ts with
  | nil => rfl
  | cons t ts => simp only [Item.sections, earlierSections, List.append_nil]

theorem itemMoves_tables (p : Nat) (es : Entries) (ts : List (Nat × Entries)) :
    itemMoves here last k (.tables ((p, es) :: ts)) =
      itemMoves here last k (.tables ts) ++
        (p, .element k) :: movesThrough k (entryMoves p p es) := by
  have hv := isHeader_of_mem_entryAssignments es []
  have helement : (Section.ofElement p [k] es).moves ++
        ((entrySections [k] p es).1.flatMap Section.moves) =
      (p, .element k) :: movesThrough k (entryMoves p p es) := by
    rw [(moves_entrySections_cons es [] p).1, entryMoves, movesThrough_append]
    simp [Section.ofElement, Section.moves, moves, movesThrough, Statement.move?, Statement.base,
      moves_through hv]
  rw [itemMoves, itemMoves, sections_tables, sections_tables]
  simp only [Item.assignments, earlierSections, List.append_nil]
  rw [earlierSections_append, List.flatMap_append, List.flatMap_cons, helement, moves, List.map_nil,
    List.nil_append, List.nil_append]

theorem key_of_mem_movesThrough {m : Nat × Move} {ms : List (Nat × Move)}
    (h : m ∈ movesThrough k ms) : m.2.key = k := by
  obtain ⟨_, -, rfl⟩ := List.mem_map.1 h
  rfl

/-- All statements of an item lead to its key. -/
theorem key_of_mem_itemMoves {item : Item} {m : Nat × Move}
    (h : m ∈ itemMoves here last k item) : m.2.key = k := by
  match item with
  | .value v =>
    rw [itemMoves_value, List.mem_singleton] at h
    rw [h]
    rfl
  | .table .dotted p es =>
    rw [itemMoves_dotted, List.mem_append] at h
    rcases h with h | h
    · obtain ⟨_, -, rfl⟩ := List.mem_map.1 h
      rfl
    · exact key_of_mem_movesThrough h
  | .table .header p es | .table .implied p es =>
    rw [itemMoves_table (by simp), List.mem_append] at h
    rcases h with h | h
    · split at h
      · cases h
      · rw [List.mem_singleton] at h
        rw [h]
        rfl
    · exact key_of_mem_movesThrough h
  | .tables [] => cases h
  | .tables ((p, es) :: ts) =>
    rw [itemMoves_tables, List.mem_append, List.mem_cons] at h
    rcases h with h | rfl | h
    · exact key_of_mem_itemMoves h
    · rfl
    · exact key_of_mem_movesThrough h

/-! ## Entries -/

theorem filter_assignments (hk : (es.map Prod.fst).Nodup) (k : Key) :
    (moves [] (entryAssignments [] es)).filter (·.key = k) =
      (lookup k es).elim [] fun item => moves [] (item.assignments [k]) := by
  induction es with
  | nil => rfl
  | cons e es ih =>
    obtain ⟨j, item⟩ := e
    rw [List.map_cons, List.nodup_cons] at hk
    have hkey : ∀ m ∈ moves [] (item.assignments [j]), m.key = j := fun m hm => by
      have hmem : (0, m) ∈ itemMoves 0 0 j item :=
        List.mem_append_left _ (List.mem_map_of_mem hm)
      exact key_of_mem_itemMoves hmem
    rw [entryAssignments, moves_append (item.isHeader_of_mem_assignments _), List.filter_append,
      ih hk.2, lookup]
    by_cases hj : j = k
    · subst hj
      rw [if_pos rfl, lookup_eq_none_iff.2 hk.1, Option.elim_none, Option.elim_some,
        List.append_nil, List.nil_append,
        List.filter_eq_self.2 fun m hm => by simp [hkey m hm]]
    · rw [if_neg hj, List.nil_append,
        List.filter_eq_nil_iff.2 fun m hm => by simp [hkey m hm, hj], List.nil_append]

theorem filter_sections (hk : (es.map Prod.fst).Nodup) (k : Key) (last : Nat) :
    ∃ last', ((entrySections [] last es).1.flatMap Section.moves).filter (·.2.key = k) =
      (lookup k es).elim [] fun item => (item.sections [k] last').1.flatMap Section.moves := by
  induction es generalizing last with
  | nil => exact ⟨0, rfl⟩
  | cons e es ih =>
    obtain ⟨j, item⟩ := e
    rw [List.map_cons, List.nodup_cons] at hk
    have hkey : ∀ m ∈ (item.sections [j] last).1.flatMap Section.moves, m.2.key = j := by
      intro m hm
      have hmem : m ∈ itemMoves 0 last j item := List.mem_append_right _ hm
      exact key_of_mem_itemMoves hmem
    obtain ⟨last', ih⟩ := ih hk.2 (item.sections [j] last).2
    simp only [entrySections, List.nil_append, List.flatMap_append, List.filter_append]
    rw [ih, lookup]
    by_cases hj : j = k
    · subst hj
      refine ⟨last, ?_⟩
      rw [if_pos rfl, lookup_eq_none_iff.2 hk.1, Option.elim_none, Option.elim_some,
        List.append_nil, List.filter_eq_self.2 fun m hm => by simp [hkey m hm]]
    · refine ⟨last', ?_⟩
      rw [if_neg hj, List.filter_eq_nil_iff.2 fun m hm => by simp [hkey m hm, hj], List.nil_append]

/-- The moves that begin with a key are those of the item behind it. -/
theorem filter_entryMoves (hk : (es.map Prod.fst).Nodup) (k : Key) (here last : Nat) :
    ∃ last', (entryMoves here last es).filter (·.2.key = k) =
      (lookup k es).elim [] (itemMoves here last' k) := by
  obtain ⟨last', h⟩ := filter_sections hk k last
  refine ⟨last', ?_⟩
  rw [entryMoves, List.filter_append, h, List.filter_map, Function.comp_def]
  rw [filter_assignments hk]
  cases lookup k es <;> rfl

/-! ## Documents -/

/-- Whether the section is about the same table after whatever statements. -/
def Section.IsHeaded (s : Section) : Prop :=
  ∀ path, Toml.moves path s.statements = Toml.moves [] s.statements

theorem isHeaded_ofTable (place : Nat) (path : List Key) (o : Origin) (es : Entries) :
    (Section.ofTable place path o es).IsHeaded := by
  intro p
  simp only [Section.ofTable]
  split <;> rfl

theorem isHeaded_ofElement (place : Nat) (path : List Key) (es : Entries) :
    (Section.ofElement place path es).IsHeaded := fun _ => rfl

mutual

/-- What holds of the sections of all tables, in lists or not, holds of those of an item. -/
theorem Item.forall_mem_sections {P : Section → Prop}
    (ht : ∀ place path o es, P (.ofTable place path o es))
    (he : ∀ place path es, P (.ofElement place path es)) :
    (item : Item) → (path : List Key) → (last : Nat) → ∀ s ∈ (item.sections path last).1, P s
  | .value _, _, _ => by simp [Item.sections]
  | .table .dotted _ es, path, last => forall_mem_entrySections ht he es path last
  | .table .header p es, path, last | .table .implied p es, path, last => by
    simp only [Item.sections, List.forall_mem_cons]
    exact ⟨ht _ _ _ _, forall_mem_entrySections ht he es path _⟩
  | .tables [], _, _ => by simp [Item.sections]
  | .tables ((p, es) :: ts), path, last => by
    simp only [Item.sections]
    rw [earlierSections_append, List.forall_mem_append, List.forall_mem_cons]
    exact ⟨forall_mem_earlierSections ht he ts path, he _ _ _,
      forall_mem_entrySections ht he es path p⟩

theorem forall_mem_entrySections {P : Section → Prop}
    (ht : ∀ place path o es, P (.ofTable place path o es))
    (he : ∀ place path es, P (.ofElement place path es)) :
    (es : Entries) → (path : List Key) → (last : Nat) → ∀ s ∈ (entrySections path last es).1, P s
  | [], _, _ => by simp [entrySections]
  | (k, item) :: es, path, last => by
    simp only [entrySections]
    rw [List.forall_mem_append]
    exact ⟨item.forall_mem_sections ht he _ _, forall_mem_entrySections ht he es path _⟩

theorem forall_mem_earlierSections {P : Section → Prop}
    (ht : ∀ place path o es, P (.ofTable place path o es))
    (he : ∀ place path es, P (.ofElement place path es)) :
    (ts : List (Nat × Entries)) → (path : List Key) → ∀ s ∈ earlierSections path ts [], P s
  | [], _ => by simp [earlierSections]
  | (p, es) :: ts, path => by
    rw [earlierSections, earlierSections_append, List.append_nil, List.forall_mem_append,
      List.forall_mem_cons]
    exact ⟨forall_mem_earlierSections ht he ts path, he _ _ _,
      forall_mem_entrySections ht he es path p⟩

end

theorem moves_flatMap {ss : List Section} (hs : ∀ s ∈ ss, s.IsHeaded) (path : List Key) :
    moves path (ss.flatMap (·.statements)) = ss.flatMap fun s => moves [] s.statements := by
  induction ss generalizing path with
  | nil => rfl
  | cons s ss ih =>
    rw [List.forall_mem_cons] at hs
    rw [List.flatMap_cons, List.flatMap_cons, ← hs.1 path]
    generalize s.statements = xs
    induction xs generalizing path with
    | nil => exact ih hs.2 path
    | cons x xs ihx => rw [List.cons_append, moves, moves, ihx, List.append_assoc]

/-- What the statements of a document do, from first to last. -/
theorem Document.moves_statements (doc : Document) :
    moves [] doc.statements = (inPlaces Prod.fst (entryMoves 0 0 doc)).map Prod.snd := by
  have hmoves : entryMoves 0 0 doc =
      (⟨0, entryAssignments [] doc⟩ :: (entrySections [] 0 doc).1).flatMap Section.moves := rfl
  have hplace : ∀ s, ∀ m ∈ Section.moves s, m.1 = s.place := fun s m hm => by
    obtain ⟨_, -, rfl⟩ := List.mem_map.1 hm
    rfl
  have hsections : doc.sections =
      inPlaces Section.place (⟨0, entryAssignments [] doc⟩ :: (entrySections [] 0 doc).1) := rfl
  have hs : ∀ s ∈ inPlaces Section.place (entrySections [] 0 doc).1, s.IsHeaded := fun s hs =>
    forall_mem_entrySections isHeaded_ofTable isHeaded_ofElement doc [] 0 s (mem_inPlaces.1 hs)
  have hfirst : doc.sections = ⟨0, entryAssignments [] doc⟩ ::
      inPlaces Section.place (entrySections [] 0 doc).1 := inPlaces_cons _ fun s _ => Nat.zero_le _
  rw [hmoves, inPlaces_flatMap hplace, statements, ← hsections, hfirst, List.flatMap_cons,
    List.flatMap_cons, moves_append (isHeader_of_mem_entryAssignments doc []), moves_flatMap hs]
  simp [Section.moves, List.map_flatMap, Function.comp_def]

end Sweep.Toml
