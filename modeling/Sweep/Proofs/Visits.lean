import Sweep.Walk
import Sweep.Proofs.Tree
/-!
# What one root leads to

The walk of a root visits the files to which it goes down through directories that it enters, and it
visits each of them once. Both are shown for a directory from the same facts about its entries.
-/

namespace Sweep

namespace Tally

@[simp] theorem visited_append (a b : Tally) : (a ++ b).visited = a.visited ++ b.visited := rfl

end Tally

namespace Plan

/-- Whether the walk goes down into the directory. -/
def enters (plan : Plan) (p : Path) : Bool := plan.admitsDirectory p && p.fits

/-- Whether the walk goes down from a directory along all names but the last. -/
def goesDown (plan : Plan) (p : Path) : List (List UInt8) → Bool
  | [] => true
  | name :: names => plan.enters p && goesDown plan (p.child name) names

theorem goesDown_iff {plan : Plan} {p : Path} {names : List (List UInt8)} :
    plan.goesDown p names = true ↔
      ∀ ms ns, names = ms ++ ns → ns ≠ [] → plan.enters (p.extend ms) = true := by
  induction names generalizing p with
  | nil => simp +contextual [goesDown]
  | cons name names ih =>
    rw [goesDown, Bool.and_eq_true, ih]
    constructor
    · rintro ⟨hp, hd⟩ ms ns he hne
      cases ms with
      | nil => exact hp
      | cons m ms =>
        obtain ⟨rfl, rfl⟩ := List.cons.inj he
        exact hd ms ns rfl hne
    · intro h
      exact ⟨h [] (name :: names) rfl (by simp), fun ms ns he hne =>
        h (name :: ms) ns (by rw [he]; rfl) hne⟩

end Plan

namespace Node

variable {plan : Plan}

/-! ## Entries of a directory -/

theorem mem_visited_walkEntries {es : List (List UInt8 × Node)} (h : AreProper es) {p f : Path} :
    f ∈ (walkEntries plan p es).visited ↔
      ∃ name node, named? name es = some node ∧ f ∈ (node.walk plan (p.child name)).visited := by
  have hmem : f ∈ (walkEntries plan p es).visited ↔
      ∃ name node, (name, node) ∈ es ∧ f ∈ (node.walk plan (p.child name)).visited := by
    clear h
    induction es with
    | nil => simp [walkEntries, Tally.none]
    | cons e es ih =>
      obtain ⟨n, x⟩ := e
      rw [walkEntries, Tally.visited_append, List.mem_append, ih]
      simp only [List.mem_cons, Prod.mk.injEq, or_and_right, exists_or, and_assoc]
      simp
  simp only [hmem, h.mem_iff]

/-- The walk visits the files below the directory to which it goes down and which it lets in. -/
theorem mem_visited_walk {node : Node} (h : node.IsProper) : ∀ p f : Path,
    f ∈ (node.walk plan p).visited ↔ ∃ names content, node.below? names = some (.file content) ∧
      f = p.extend names ∧ plan.goesDown p names = true ∧ plan.admitsFile f = true := by
  refine IsProper.induction ?file ?locked ?link ?directory node h
  case file =>
    intro content p f
    rw [walk]
    constructor
    · intro hf
      split at hf
      · next ha =>
        obtain rfl := List.mem_singleton.1 hf
        exact ⟨[], content, rfl, rfl, rfl, ha⟩
      · cases hf
    · rintro ⟨names, c, hb, rfl, -, ha⟩
      cases names with
      | nil =>
        rw [Path.extend_nil] at ha
        rw [if_pos ha]
        exact List.mem_singleton_self p
      | cons => cases hb
  case locked =>
    intro p f
    constructor
    · intro hf
      rw [walk] at hf
      split at hf <;> cases hf
    · rintro ⟨names, c, hb, -⟩
      cases names <;> cases hb
  case link =>
    intro target p f
    constructor
    · intro hf
      cases hf
    · rintro ⟨names, c, hb, -⟩
      cases names <;> cases hb
  case directory =>
    intro es hes ih p f
    have hw : f ∈ ((Node.directory es).walk plan p).visited ↔
        plan.enters p = true ∧ f ∈ (walkEntries plan p es).visited := by
      rw [walk, Plan.enters]
      split
      · next ha => split <;> simp_all [Tally.fail]
      · next ha => simp [ha, Tally.exclude]
    rw [hw, mem_visited_walkEntries hes]
    constructor
    · rintro ⟨hp, name, node, hn, hf⟩
      obtain ⟨names, content, hb, rfl, hd, ha⟩ := (ih name node hn _ _).1 hf
      refine ⟨name :: names, content, ?_, rfl, ?_, ha⟩
      · rw [below?, hn]
        exact hb
      · rw [Plan.goesDown, hp, hd]
        rfl
    · rintro ⟨names, content, hb, rfl, hd, ha⟩
      cases names with
      | nil => cases hb
      | cons name names =>
        obtain ⟨node, hn, hb⟩ := Option.bind_eq_some_iff.1 hb
        rw [Plan.goesDown, Bool.and_eq_true] at hd
        exact ⟨hd.1, name, node, hn, (ih name node hn _ _).2 ⟨names, content, hb, rfl, hd.2, ha⟩⟩

/-! ## Nothing twice -/

theorem nodup_walkEntries {es : List (List UInt8 × Node)} (h : AreProper es) {p : Path}
    (hp : p.normal = p) (hw : ∀ name node, named? name es = some node →
      (node.walk plan (p.child name)).visited.Nodup) : (walkEntries plan p es).visited.Nodup := by
  induction es with
  | nil => exact List.nodup_nil
  | cons e es ih =>
    obtain ⟨n, x⟩ := e
    obtain ⟨hn, hnew, hx, hes⟩ := h
    have hrest : ∀ name node, named? name es = some node →
        (node.walk plan (p.child name)).visited.Nodup := by
      intro name node hm
      refine hw name node ?_
      rw [named?_cons, if_neg, hm]
      rintro rfl
      rw [hnew] at hm
      cases hm
    rw [walkEntries, Tally.visited_append, List.nodup_append]
    refine ⟨hw n x (by simp [named?_cons]), ih hes hrest, ?_⟩
    -- Below different names there are different paths.
    rintro f hf g hg rfl
    obtain ⟨ks, _, hb, rfl, -⟩ := (mem_visited_walk hx _ _).1 hf
    obtain ⟨m, y, hm, hg⟩ := (mem_visited_walkEntries hes).1 hg
    obtain ⟨hmn, hy⟩ := AreProper.of_named? hes hm
    obtain ⟨ls, _, hb', he, -⟩ := (mem_visited_walk hy _ _).1 hg
    have hks : ∀ k ∈ n :: ks, Path.IsName k := List.forall_mem_cons.2 ⟨hn, hx.of_below? hb⟩
    have hls : ∀ k ∈ m :: ls, Path.IsName k := List.forall_mem_cons.2 ⟨hmn, hy.of_below? hb'⟩
    obtain ⟨rfl, -⟩ := List.cons.inj (Path.extend_inj hp hks hls he)
    rw [hnew] at hm
    cases hm

theorem nodup_visited_walk {node : Node} (h : node.IsProper) :
    ∀ p : Path, p.normal = p → (node.walk plan p).visited.Nodup := by
  refine IsProper.induction ?file ?locked ?link ?directory node h
  case file =>
    intro content p _
    rw [walk]
    split
    · exact List.pairwise_singleton _ p
    · exact List.nodup_nil
  case locked =>
    intro p _
    rw [walk]
    split <;> exact List.nodup_nil
  case link =>
    intro target p _
    exact List.nodup_nil
  case directory =>
    intro es hes ih p hp
    rw [walk]
    split
    · split
      · refine nodup_walkEntries hes hp fun name node hn => ih name node hn _ ?_
        exact Path.normal_child hp (AreProper.of_named? hes hn).1
      · exact List.nodup_nil
    · exact List.nodup_nil

end Node

/-! ## From a root -/

namespace FileTree

variable {tree : FileTree} {node : Node} {p : Path}

/-- What a walk from a root finds there: a link is followed if it leads to a directory. -/
def entered? (tree : FileTree) (p : Path) : Option Node :=
  match tree.find? p false with
  | some (.link _) =>
    match tree.find? p true with
    | some (.directory es) => some (.directory es)
    | some .locked => some .locked
    | _ => none
  | found => found

theorem find?_of_entered? (h : tree.entered? p = some node) :
    ∃ follow, tree.find? p follow = some node := by
  unfold entered? at h
  split at h
  · split at h
    · next es hd =>
      cases h
      exact ⟨true, hd⟩
    · next hd =>
      cases h
      exact ⟨true, hd⟩
    · cases h
  · exact ⟨false, h⟩

theorem isProper_entered? (h : tree.IsProper) (he : tree.entered? p = some node) :
    node.IsProper := by
  obtain ⟨follow, hf⟩ := find?_of_entered? he
  exact isProper_find? h hf

theorem fits_of_entered? (he : tree.entered? p = some node) : p.fits = true := by
  obtain ⟨follow, hf⟩ := find?_of_entered? he
  exact (find?_eq_some_iff.1 hf).2.1

theorem components_ne_nil_of_entered? (he : tree.entered? p = some node) : p.components ≠ [] := by
  obtain ⟨follow, hf⟩ := find?_of_entered? he
  exact components_ne_nil_of_find? hf

end FileTree

namespace Plan

variable {stage : Plan} {tree : FileTree} {node : Node} {p f : Path}

/-- The walk of a root visits the root if it is a file, and the entries of what it is else. -/
theorem visited_walkRoot : (stage.walkRoot tree p).visited =
    match tree.entered? p with
    | some (.file _) => [p]
    | some (.directory es) => (Node.walkEntries stage p (Node.sortedEntries es)).visited
    | _ => [] := by
  unfold walkRoot FileTree.entered?
  cases tree.find? p false with
  | none => rfl
  | some found =>
    cases found with
    | file | directory | locked => rfl
    | link =>
      dsimp only
      cases tree.find? p true with
      | none => rfl
      | some target => cases target <;> rfl

theorem mem_visited_walkRoot (hp : node.IsProper) (he : tree.entered? p = some node) :
    f ∈ (stage.walkRoot tree p).visited ↔
      ∃ names content, node.below? names = some (.file content) ∧ f = p.extend names ∧
        (names = [] ∨ stage.admitsFile f = true ∧ ∀ ms ns, names = ms ++ ns → ms ≠ [] → ns ≠ [] →
          stage.enters (p.extend ms) = true) := by
  rw [visited_walkRoot, he]
  cases node with
  | file content =>
    constructor
    · intro hf
      obtain rfl := List.mem_singleton.1 hf
      exact ⟨[], content, rfl, rfl, .inl rfl⟩
    · rintro ⟨names, c, hb, rfl, -⟩
      cases names with
      | nil => exact List.mem_singleton_self p
      | cons => cases hb
  | locked | link =>
    constructor
    · intro hf
      cases hf
    · rintro ⟨names, c, hb, -⟩
      cases names <;> cases hb
  | directory es =>
    have hes := Node.areProper_sortedEntries es hp
    dsimp only
    rw [Node.mem_visited_walkEntries hes]
    constructor
    · rintro ⟨name, x, hn, hf⟩
      obtain ⟨names, content, hb, rfl, hd, ha⟩ :=
        (Node.mem_visited_walk (hes.of_named? hn).2 _ _).1 hf
      refine ⟨name :: names, content, ?_, rfl, .inr ⟨ha, ?_⟩⟩
      · rw [← Node.below?_sorted_eq_file_iff, Node.sorted, Node.below?, hn]
        exact hb
      · intro ms ns hms hne
        cases ms with
        | nil => exact absurd rfl hne
        | cons m ms =>
          obtain ⟨rfl, htail⟩ := List.cons.inj hms
          exact goesDown_iff.1 hd ms ns htail
    · rintro ⟨names, content, hb, rfl, hd⟩
      rw [← Node.below?_sorted_eq_file_iff] at hb
      cases names with
      | nil => cases hb
      | cons name names =>
        obtain ⟨x, hn, hb⟩ := Option.bind_eq_some_iff.1 hb
        obtain ⟨ha, hd⟩ := hd.resolve_left (by simp)
        refine ⟨name, x, hn, (Node.mem_visited_walk (hes.of_named? hn).2 _ _).2
          ⟨names, content, hb, rfl, goesDown_iff.2 ?_, ha⟩⟩
        intro ms ns hms
        exact hd (name :: ms) ns (by rw [hms]; rfl) (by simp)

theorem entered?_of_mem_visited (h : f ∈ (stage.walkRoot tree p).visited) :
    ∃ node, tree.entered? p = some node := by
  rw [visited_walkRoot] at h
  cases he : tree.entered? p with
  | none =>
    rw [he] at h
    cases h
  | some node => exact ⟨node, rfl⟩

theorem nodup_visited_walkRoot (hp : node.IsProper) (he : tree.entered? p = some node)
    (hn : p.normal = p) : (stage.walkRoot tree p).visited.Nodup := by
  rw [visited_walkRoot, he]
  cases node with
  | file content => exact List.pairwise_singleton _ p
  | locked | link => exact List.nodup_nil
  | directory es =>
    have hes := Node.areProper_sortedEntries es hp
    refine Node.nodup_walkEntries hes hn fun name x hx => ?_
    obtain ⟨hname, hprop⟩ := hes.of_named? hx
    exact Node.nodup_visited_walk hprop _ (Path.normal_child hn hname)

end Plan

end Sweep
