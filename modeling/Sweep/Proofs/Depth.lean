import Sweep.Toml.Layout
/-!
# How deep documents are

The paths that a document is written with are no longer than its values lie deep, so a document
whose values lie no deeper than a path may be long can be written with paths that are read again.
-/

namespace Sweep.Toml

/-- The keys that a statement gives. -/
def Statement.keys : Statement → List Key
  | header p | element p | assign p _ => p

mutual

/-- How many keys lead from an item to what lies deepest in it. -/
def Item.depth : Item → Nat
  | .value _ => 0
  | .table _ _ es => entriesDepth es
  | .tables ts => elementsDepth ts

/-- How many keys lead to what lies deepest in some entries. -/
def entriesDepth : Entries → Nat
  | [] => 0
  | (_, item) :: es => max (item.depth + 1) (entriesDepth es)

/-- How many keys lead to what lies deepest in the tables of a list. -/
def elementsDepth : List (Nat × Entries) → Nat
  | [] => 0
  | (_, es) :: ts => max (entriesDepth es) (elementsDepth ts)

end

/-- How many keys lead to what lies deepest in a document. -/
def Document.depth (doc : Document) : Nat := entriesDepth doc

theorem entriesDepth_le_iff {es : Entries} {n : Nat} :
    entriesDepth es ≤ n ↔ ∀ e ∈ es, e.2.depth + 1 ≤ n := by
  induction es with
  | nil => simp [entriesDepth]
  | cons e es ih => rw [entriesDepth, Nat.max_le, ih, List.forall_mem_cons]

/-- Whether a statement gives a key, and no more than `n`. -/
def Statement.HasKeys (n : Nat) (s : Statement) : Prop := s.keys ≠ [] ∧ s.keys.length ≤ n

theorem Statement.HasKeys.mono {m n : Nat} {s : Statement} (h : s.HasKeys m) (hmn : m ≤ n) :
    s.HasKeys n := ⟨h.1, Nat.le_trans h.2 hmn⟩

mutual

theorem Item.hasKeys_of_mem_assignments : (item : Item) → (keys : List Key) → keys ≠ [] →
    ∀ s ∈ item.assignments keys, s.HasKeys (keys.length + item.depth)
  | .value v, keys, h => by
    simp only [Item.assignments, List.forall_mem_singleton]
    exact ⟨h, Nat.le_refl _⟩
  | .table .dotted _ es, keys, _ => hasKeys_of_mem_entryAssignments es keys
  | .table .header _ _, _, _ | .table .implied _ _, _, _ | .tables _, _, _ => by
    simp [Item.assignments]

theorem hasKeys_of_mem_entryAssignments : (es : Entries) → (keys : List Key) →
    ∀ s ∈ entryAssignments keys es, s.HasKeys (keys.length + entriesDepth es)
  | [], _ => by simp [entryAssignments]
  | (k, item) :: es, keys => by
    rw [entryAssignments, List.forall_mem_append]
    constructor
    · intro s hs
      refine (item.hasKeys_of_mem_assignments (keys ++ [k]) (by simp) s hs).mono ?_
      rw [List.length_append, List.length_singleton, entriesDepth]
      omega
    · intro s hs
      refine (hasKeys_of_mem_entryAssignments es keys s hs).mono ?_
      rw [entriesDepth]
      omega

end

/-- Whether all statements of some sections give a key, and no more than `n`. -/
def HaveKeys (n : Nat) (ss : List Section) : Prop := ∀ s ∈ ss, ∀ x ∈ s.statements, x.HasKeys n

theorem HaveKeys.mono {m n : Nat} {ss : List Section} (h : HaveKeys m ss) (hmn : m ≤ n) :
    HaveKeys n ss := fun s hs x hx => (h s hs x hx).mono hmn

theorem haveKeys_append {n : Nat} {ss ss' : List Section} :
    HaveKeys n (ss ++ ss') ↔ HaveKeys n ss ∧ HaveKeys n ss' := List.forall_mem_append

section

variable {path : List Key} {es : Entries} {n : Nat}

theorem hasKeys_of_mem_ofTable (place : Nat) (hp : path ≠ []) (o : Origin)
    (hn : path.length + entriesDepth es ≤ n) :
    ∀ x ∈ (Section.ofTable place path o es).statements, x.HasKeys n := by
  simp only [Section.ofTable]
  split
  · simp
  · rw [List.forall_mem_cons]
    refine ⟨⟨hp, Nat.le_trans (Nat.le_add_right _ _) hn⟩, fun x hx => ?_⟩
    exact (hasKeys_of_mem_entryAssignments es [] x hx).mono
      (by rw [List.length_nil]; omega)

theorem hasKeys_of_mem_ofElement (place : Nat) (hp : path ≠ [])
    (hn : path.length + entriesDepth es ≤ n) :
    ∀ x ∈ (Section.ofElement place path es).statements, x.HasKeys n := by
  rw [Section.ofElement, List.forall_mem_cons]
  refine ⟨⟨hp, Nat.le_trans (Nat.le_add_right _ _) hn⟩, fun x hx => ?_⟩
  exact (hasKeys_of_mem_entryAssignments es [] x hx).mono (by rw [List.length_nil]; omega)

end

mutual

theorem Item.haveKeys_sections : (item : Item) → (path : List Key) → (last : Nat) → path ≠ [] →
    HaveKeys (path.length + item.depth) (item.sections path last).1
  | .value _, _, _, _ => by simp [Item.sections, HaveKeys]
  | .table .dotted _ es, path, last, _ => haveKeys_entrySections es path last
  | .table .header p es, path, last, h | .table .implied p es, path, last, h => by
    simp only [Item.sections, HaveKeys]
    rw [List.forall_mem_cons]
    exact ⟨hasKeys_of_mem_ofTable _ h _ (Nat.le_refl _), haveKeys_entrySections es path _⟩
  | .tables [], _, _, _ => by simp [Item.sections, HaveKeys]
  | .tables ((p, es) :: ts), path, last, h => by
    simp only [Item.sections]
    apply haveKeys_earlierSections ts path h
    · rw [Item.depth, elementsDepth]
      omega
    · rw [HaveKeys, List.forall_mem_cons]
      have hle : path.length + entriesDepth es ≤
          path.length + (Item.tables ((p, es) :: ts)).depth := by
        rw [Item.depth, elementsDepth]
        omega
      exact ⟨hasKeys_of_mem_ofElement _ h hle, (haveKeys_entrySections es path p).mono hle⟩

theorem haveKeys_entrySections : (es : Entries) → (path : List Key) → (last : Nat) →
    HaveKeys (path.length + entriesDepth es) (entrySections path last es).1
  | [], _, _ => by simp [entrySections, HaveKeys]
  | (k, item) :: es, path, last => by
    simp only [entrySections, haveKeys_append]
    constructor
    · refine (item.haveKeys_sections (path ++ [k]) last (by simp)).mono ?_
      rw [List.length_append, List.length_singleton, entriesDepth]
      omega
    · refine (haveKeys_entrySections es path _).mono ?_
      rw [entriesDepth]
      omega

theorem haveKeys_earlierSections : (ts : List (Nat × Entries)) → (path : List Key) → path ≠ [] →
    {n : Nat} → {later : List Section} → path.length + elementsDepth ts ≤ n → HaveKeys n later →
    HaveKeys n (earlierSections path ts later)
  | [], _, _, _, _, _, hl => hl
  | (p, es) :: ts, path, h, n, later, hn, hl => by
    rw [elementsDepth] at hn
    have hle : path.length + entriesDepth es ≤ n := by omega
    rw [earlierSections]
    apply haveKeys_earlierSections ts path h (by omega)
    rw [HaveKeys, List.forall_mem_cons, List.forall_mem_append]
    exact ⟨hasKeys_of_mem_ofElement _ h hle, (haveKeys_entrySections es path p).mono hle, hl⟩

end

/-- No statement of a document gives more keys than lead to what lies deepest in it. -/
theorem Document.hasKeys_of_mem_statements {doc : Document} {s : Statement}
    (h : s ∈ doc.statements) : s.HasKeys doc.depth := by
  obtain ⟨section', hs, h⟩ := List.mem_flatMap.1 h
  rw [sections, List.mem_mergeSort, List.mem_cons] at hs
  rcases hs with rfl | hs
  · simpa [Document.depth] using hasKeys_of_mem_entryAssignments doc [] s h
  · simpa [Document.depth] using haveKeys_entrySections doc [] 0 section' hs s h

end Sweep.Toml
