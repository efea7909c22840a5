import Sweep.Tree
import Sweep.Proofs.Path
/-!
# Proper trees

A tree is proper if every directory has names that can stand in a path, each once. Looking up names
in order of the entries finds the same as before, so the order in which a walk goes through a
directory does not matter for what is there.
-/

namespace Sweep

namespace Node

/-! ## Names -/

mutual

/-- Whether the names in all directories are distinct and can stand in a path. -/
def IsProper : Node → Prop
  | .file _ => True
  | .locked => True
  | .link _ => True
  | .directory es => AreProper es

/-- Whether the entries have distinct names that can stand in a path, and are proper themselves. -/
def AreProper : List (List UInt8 × Node) → Prop
  | [] => True
  | (name, node) :: es =>
    Path.IsName name ∧ named? name es = none ∧ node.IsProper ∧ AreProper es

end

mutual

/-- Whether a node is proper is found entry by entry. -/
def decidableIsProper : (node : Node) → Decidable node.IsProper
  | .file _ => isTrue trivial
  | .locked => isTrue trivial
  | .link _ => isTrue trivial
  | .directory es => decidableAreProper es

def decidableAreProper : (es : List (List UInt8 × Node)) → Decidable (AreProper es)
  | [] => isTrue trivial
  | (name, node) :: es =>
    have := decidableIsProper node
    have := decidableAreProper es
    inferInstanceAs (Decidable
      (Path.IsName name ∧ named? name es = none ∧ node.IsProper ∧ AreProper es))

end

theorem named?_cons (name n : List UInt8) (node : Node) (es : List (List UInt8 × Node)) :
    named? name ((n, node) :: es) = if n = name then some node else named? name es := rfl

theorem AreProper.of_named? {es : List (List UInt8 × Node)} (h : AreProper es) {name : List UInt8}
    {node : Node} (hn : named? name es = some node) : Path.IsName name ∧ node.IsProper := by
  induction es with
  | nil => cases hn
  | cons e es ih =>
    obtain ⟨n, x⟩ := e
    obtain ⟨h1, -, h2, h3⟩ := h
    rw [named?_cons] at hn
    split at hn
    · next he =>
      subst he
      cases hn
      exact ⟨h1, h2⟩
    · exact ih h3 hn

/-- Distinct names lead to all entries. -/
theorem AreProper.mem_iff {es : List (List UInt8 × Node)} (h : AreProper es) {name : List UInt8}
    {node : Node} : (name, node) ∈ es ↔ named? name es = some node := by
  induction es with
  | nil => simp [named?]
  | cons e es ih =>
    obtain ⟨n, x⟩ := e
    obtain ⟨-, hnew, -, hes⟩ := h
    rw [List.mem_cons, ih hes, named?_cons, Prod.mk.injEq]
    split
    · next he =>
      subst he
      simp [hnew, eq_comm]
    · next hne => simp [Ne.symm hne]

theorem sizeOf_lt_of_named? {es : List (List UInt8 × Node)} {name : List UInt8} {node : Node}
    (h : named? name es = some node) : sizeOf node < sizeOf es := by
  induction es with
  | nil => cases h
  | cons e es ih =>
    obtain ⟨n, x⟩ := e
    simp only [List.cons.sizeOf_spec, Prod.mk.sizeOf_spec]
    rw [named?_cons] at h
    split at h
    · cases h
      omega
    · have := ih h
      omega

/-- What holds of a directory if it holds of all that its names lead to holds of every proper
node. -/
@[elab_as_elim] theorem IsProper.induction {motive : Node → Prop}
    (file : ∀ content, motive (.file content)) (locked : motive .locked)
    (link : ∀ target, motive (.link target))
    (directory : ∀ es, AreProper es →
      (∀ name node, named? name es = some node → motive node) → motive (.directory es))
    (node : Node) (h : node.IsProper) : motive node :=
  match node, h with
  | .file content, _ => file content
  | .locked, _ => locked
  | .link target, _ => link target
  | .directory es, h => directory es h fun _ x hx =>
    have : sizeOf x < sizeOf es := sizeOf_lt_of_named? hx
    IsProper.induction file locked link directory x (AreProper.of_named? h hx).2
termination_by sizeOf node

/-- The names that lead somewhere can stand in a path. -/
theorem IsProper.of_below? {node : Node} (h : node.IsProper) {names : List (List UInt8)} {x : Node}
    (hx : node.below? names = some x) : ∀ n ∈ names, Path.IsName n := by
  induction names generalizing node with
  | nil => simp
  | cons name names ih =>
    cases node with
    | file | locked | link => cases hx
    | directory es =>
      obtain ⟨y, hy, hx⟩ := Option.bind_eq_some_iff.1 hx
      obtain ⟨hn, hp⟩ := AreProper.of_named? h hy
      intro n hm
      rcases List.mem_cons.1 hm with rfl | hm
      · exact hn
      · exact ih hp hx n hm

theorem below?_append (node : Node) (ms ns : List (List UInt8)) :
    node.below? (ms ++ ns) = (node.below? ms).bind (·.below? ns) := by
  induction ms generalizing node with
  | nil => rfl
  | cons m ms ih =>
    cases node with
    | file | locked | link => rfl
    | directory es =>
      simp only [List.cons_append, below?, Option.bind_assoc, ih]

/-! ## Order -/

theorem nameLE_self (n : List UInt8) : nameLE n n = true := by
  simp [nameLE]

/-- An entry is put in front of all entries of its name. -/
theorem named?_insertEntry (name : List UInt8) (e : List UInt8 × Node)
    (es : List (List UInt8 × Node)) :
    named? name (insertEntry e es) = if e.1 = name then some e.2 else named? name es := by
  induction es with
  | nil => rfl
  | cons f es ih =>
    rw [insertEntry]
    split
    · rfl
    · next hlt =>
      rw [named?_cons, named?_cons, ih]
      split
      · next hf =>
        rw [if_neg]
        intro he
        rw [hf, he] at hlt
        exact hlt (nameLE_self name)
      · rfl

theorem named?_sortedEntries (name : List UInt8) (es : List (List UInt8 × Node)) :
    named? name (sortedEntries es) = (named? name es).map sorted := by
  induction es with
  | nil => rfl
  | cons e es ih =>
    rw [sortedEntries, named?_insertEntry, named?_cons, ih]
    split <;> rfl

/-- In order of the entries the same names lead to the same place. -/
theorem below?_sorted (node : Node) (names : List (List UInt8)) :
    node.sorted.below? names = (node.below? names).map sorted := by
  induction names generalizing node with
  | nil => rfl
  | cons name names ih =>
    cases node with
    | file | locked | link => rfl
    | directory es =>
      simp only [sorted, below?, named?_sortedEntries]
      cases named? name es with
      | none => rfl
      | some x => exact ih x

theorem below?_sorted_eq_file_iff {node : Node} {names : List (List UInt8)}
    {content : List UInt8} :
    node.sorted.below? names = some (.file content) ↔ node.below? names = some (.file content) := by
  rw [below?_sorted]
  rcases node.below? names with _ | x
  · simp
  · cases x <;> simp [sorted]

theorem areProper_insertEntry {name : List UInt8} {node : Node} {es : List (List UInt8 × Node)}
    (hn : Path.IsName name) (hp : node.IsProper) (hes : AreProper es)
    (hnew : named? name es = none) : AreProper (insertEntry (name, node) es) := by
  induction es with
  | nil => exact ⟨hn, rfl, hp, trivial⟩
  | cons f es ih =>
    obtain ⟨h1, h2, h3, h4⟩ := hes
    rw [insertEntry]
    split
    · exact ⟨hn, hnew, hp, h1, h2, h3, h4⟩
    · rw [named?_cons] at hnew
      split at hnew
      · cases hnew
      · next hne =>
        refine ⟨h1, ?_, h3, ih h4 hnew⟩
        rw [named?_insertEntry, if_neg (Ne.symm hne), h2]

mutual

theorem isProper_sorted : (node : Node) → node.IsProper → node.sorted.IsProper
  | .file _, _ => trivial
  | .locked, _ => trivial
  | .link _, _ => trivial
  | .directory es, h => areProper_sortedEntries es h

theorem areProper_sortedEntries :
    (es : List (List UInt8 × Node)) → AreProper es → AreProper (sortedEntries es)
  | [], _ => trivial
  | (_, node) :: es, ⟨h1, h2, h3, h4⟩ =>
    areProper_insertEntry h1 (isProper_sorted node h3) (areProper_sortedEntries es h4)
      (by rw [named?_sortedEntries, h2]; rfl)

end

/-! ## Looking up -/

/-- Links and steps upward lead to proper nodes, too. -/
theorem isProper_descend {top : Node} (h : top.IsProper) {follow : Bool} {links : Nat}
    {trail trail' : List Node} {names : List (List UInt8)} (ht : ∀ x ∈ trail, x.IsProper)
    (hd : descend top follow links trail names = some trail') : ∀ x ∈ trail', x.IsProper := by
  fun_induction descend top follow links trail names with
  | case1 =>
    cases hd
    exact ht
  | case2 _ _ _ _ _ _ ih => exact ih ht hd
  | case3 links names es above _ ih =>
    simp only [dite_eq_ite] at ih
    refine ih ?_ hd
    split
    · exact ht
    · exact fun x hx => ht x (List.mem_cons_of_mem _ hx)
  | case4 => cases hd
  | case5 =>
    cases hd
    exact List.forall_mem_cons.2 ⟨trivial, ht⟩
  | case6 => cases hd
  | case7 name names es above _ _ target _ _ links start ih =>
    refine ih ?_ hd
    dsimp only [start]
    split
    · exact List.forall_mem_singleton.2 h
    · exact ht
  | case8 links name names es above _ _ node _ hn ih =>
    have hes : AreProper es := ht _ List.mem_cons_self
    exact ih (List.forall_mem_cons.2 ⟨(hes.of_named? hn).2, ht⟩) hd
  | case9 => cases hd

end Node

namespace FileTree

/-- Whether the names in all directories of a tree are distinct and can stand in a path. -/
def IsProper (tree : FileTree) : Prop := tree.top.IsProper

instance (tree : FileTree) : Decidable tree.IsProper := tree.top.decidableIsProper

variable {tree : FileTree} {node : Node} {p : Path} {follow : Bool}

theorem find?_eq_some_iff : tree.find? p follow = some node ↔
    (p.within tree.here).isAbsolute = true ∧ p.fits = true ∧
      tree.top.at? (Path.segments (p.within tree.here).bytes) follow = some node := by
  unfold find?
  dsimp only
  split
  · next h => simp_all
  · next h =>
    constructor
    · intro hf
      cases hf
    · rintro ⟨ha, hf, -⟩
      rw [ha, hf] at h
      exact absurd rfl h

/-- An absolute path is looked up from the top, wherever relative ones start. -/
theorem find?_of_isAbsolute (ha : p.isAbsolute = true) : tree.find? p follow =
    if p.fits then tree.top.at? (Path.segments p.bytes) follow else none := by
  have hp : p.within tree.here = p := by simp [Path.within, ha]
  simp [find?, hp, ha]

theorem isProper_find? (h : tree.IsProper) (hf : tree.find? p follow = some node) :
    node.IsProper := by
  obtain ⟨-, -, ha⟩ := find?_eq_some_iff.1 hf
  obtain ⟨trail, hd, hh⟩ := Option.bind_eq_some_iff.1 ha
  exact Node.isProper_descend h (List.forall_mem_singleton.2 h) hd node (List.mem_of_head? hh)

/-- Nothing is found without a name. -/
theorem components_ne_nil_of_find? (hf : tree.find? p follow = some node) : p.components ≠ [] := by
  intro hp
  have hb := Path.components_eq_nil_iff.1 hp
  obtain ⟨ha, -, -⟩ := find?_eq_some_iff.1 hf
  rw [Path.within, hb] at ha
  simp [Path.isAbsolute, hb] at ha

end FileTree

end Sweep
