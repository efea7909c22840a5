import Sweep.Proofs.Visits
/-!
# Looking up below a directory

A walk goes down from its root entry by entry, and a root further down is looked up from the top of
the tree. Both ways lead to the same place: what a walk finds at some names below a directory is
found at the path of the directory with these names behind it, too.
-/

namespace Sweep

/-! ## Spellings of children -/

namespace Path

/-- A path that goes on is meant where it starts, and goes on from there. -/
theorem within_append {p dir : Path} (hp : p.bytes ≠ []) (bs : List UInt8) :
    (mk (p.bytes ++ bs)).within dir = ⟨(p.within dir).bytes ++ bs⟩ := by
  obtain ⟨b, cs, hb⟩ := List.exists_cons_of_ne_nil hp
  have ha : (mk (p.bytes ++ bs)).isAbsolute = p.isAbsolute := by
    rw [isAbsolute, isAbsolute, hb]
    rfl
  have he : (p.bytes ++ bs).isEmpty = p.bytes.isEmpty := by
    rw [hb]
    rfl
  rw [within, within, ha, he]
  split
  · rfl
  · unfold child
    split
    · rfl
    · split <;> simp

/-- The names that lead to an entry are those that lead to its directory and its own one; only the
root ends with an empty name, which is left out. -/
theorem segments_child {p : Path} (hp : p.normal = p) (hne : p.components ≠ [])
    {n : List UInt8} (hn : IsName n) (dir : Path) :
    p = root ∧ segments ((p.child n).within dir).bytes = [[], n] ∨
      segments ((p.child n).within dir).bytes = segments (p.within dir).bytes ++ [n] := by
  have hseg := segments_of_slash_not_mem hn.2.2
  rcases root_or_isOpen hp hne with rfl | ho
  · have he : ((root.child n).within dir).bytes = [] ++ slash :: n := rfl
    refine .inl ⟨rfl, ?_⟩
    rw [he, segments_split, hseg]
    rfl
  · right
    rw [child, if_neg ho.ne_nil, if_neg ho.getLast?_ne, within_append ho.ne_nil, segments_split,
      hseg]

theorem isAbsolute_within_child {p dir : Path} (hp : p.normal = p) (hne : p.components ≠ [])
    (h : (p.within dir).isAbsolute = true) (n : List UInt8) :
    ((p.child n).within dir).isAbsolute = true := by
  rcases root_or_isOpen hp hne with rfl | ho
  · rfl
  · rw [child, if_neg ho.ne_nil, if_neg ho.getLast?_ne, within_append ho.ne_nil]
    simp only [isAbsolute, beq_iff_eq] at h ⊢
    simp [List.head?_append, h]

end Path

namespace Node

variable {top x : Node} {links : Nat} {trail trail' above : List Node} {as bs : List (List UInt8)}
  {es : List (List UInt8 × Node)} {name : List UInt8}

/-! ## One look-up after another -/

/-- A look-up of more names goes on where that of the first ones has led. All links on the way are
followed then, also one at the end of the first names. -/
theorem descend_append (follow : Bool) (h : descend top true links trail as = some trail')
    (hb : bs ≠ []) : ∃ links', descend top follow links trail (as ++ bs) =
      descend top follow links' trail' bs := by
  fun_induction descend top true links trail as with
  | case1 links trail =>
    cases h
    exact ⟨links, rfl⟩
  | case2 links name names es above hn ih =>
    obtain ⟨links', hl⟩ := ih h
    refine ⟨links', ?_⟩
    rw [List.cons_append, descend, if_pos hn, hl]
  | case3 links names es above hn ih =>
    simp only [dite_eq_ite] at ih
    obtain ⟨links', hl⟩ := ih h
    refine ⟨links', ?_⟩
    rw [List.cons_append, descend, if_neg hn, if_pos rfl, hl]
  | case4 => cases h
  | case5 _ _ _ _ _ _ _ _ _ hl => exact absurd rfl hl.2
  | case6 => cases h
  | case7 name names es above hn hd target ht _ links start ih =>
    obtain ⟨links', hl⟩ := ih h
    have hmore : ¬ (names ++ bs = [] ∧ ¬ follow = true) := by simp [hb]
    refine ⟨links', ?_⟩
    rw [List.append_assoc] at hl
    rw [List.cons_append, descend, if_neg hn, if_neg hd, ht]
    simp only [if_neg hmore]
    exact hl
  | case8 links name names es above hn hd node hnot hx ih =>
    obtain ⟨links', hl⟩ := ih h
    refine ⟨links', ?_⟩
    rw [List.cons_append, descend, if_neg hn, if_neg hd, hx]
    cases node with
    | link target => exact absurd rfl (hnot target)
    | file | directory | locked => exact hl
  | case9 => cases h

/-- Where no link is found at the end, following it would make no difference. -/
theorem descend_follow (h : descend top false links trail as = some (x :: above))
    (hx : ∀ target, x ≠ .link target) :
    descend top true links trail as = some (x :: above) := by
  fun_induction descend top false links trail as with
  | case1 links trail =>
    rw [descend]
    exact h
  | case2 links name names es above hn ih =>
    rw [descend, if_pos hn]
    exact ih h
  | case3 links names es above hn ih =>
    simp only [dite_eq_ite] at ih
    rw [descend, if_neg hn, if_pos rfl]
    exact ih h
  | case4 => cases h
  | case5 =>
    cases h
    exact absurd rfl (hx _)
  | case6 => cases h
  | case7 name names es above hn hd target ht _ links start ih =>
    rw [descend, if_neg hn, if_neg hd, ht]
    simp only [not_true_eq_false, and_false, if_false]
    exact ih h
  | case8 links name names es above hn hd node hnot hy ih =>
    rw [descend, if_neg hn, if_neg hd, hy]
    cases node with
    | link target => exact absurd rfl (hnot target)
    | file | directory | locked => exact ih h
  | case9 => cases h

theorem descend_name (hn : Path.IsName name) (hd : name ≠ Path.dotDot)
    (hx : named? name es = some x) (hl : ∀ target, x ≠ .link target) (follow : Bool) :
    descend top follow links (.directory es :: above) [name] =
      some (x :: .directory es :: above) := by
  have hdot : ¬ (name = [] ∨ name = Path.dot) := by simp [hn.1, hn.2.1]
  rw [descend, if_neg hdot, if_neg hd, hx]
  cases x with
  | link target => exact absurd rfl (hl target)
  | file | directory | locked =>
    dsimp only
    rw [descend]

end Node

/-! ## Entering an entry -/

namespace FileTree

open Node

variable {tree : FileTree} {node x : Node} {ms ns : List (List UInt8)}
  {es : List (List UInt8 × Node)} {name : List UInt8} {p q f : Path}

theorem not_link_of_entered? (h : tree.entered? p = some x) (target : Path) : x ≠ .link target := by
  rintro rfl
  unfold entered? at h
  split at h
  · split at h <;> cases h
  · next hno => exact hno target h

theorem descend_of_entered? (h : tree.entered? p = some x) :
    (p.within tree.here).isAbsolute = true ∧ ∃ above,
      descend tree.top true linkLimit [tree.top] (Path.segments (p.within tree.here).bytes) =
        some (x :: above) := by
  have hl := not_link_of_entered? h
  obtain ⟨follow, hf⟩ := find?_of_entered? h
  obtain ⟨ha, -, hat⟩ := find?_eq_some_iff.1 hf
  obtain ⟨trail, hd, hh⟩ := Option.bind_eq_some_iff.1 hat
  obtain ⟨above, rfl⟩ := List.head?_eq_some_iff.1 hh
  cases follow with
  | true => exact ⟨ha, above, hd⟩
  | false => exact ⟨ha, above, descend_follow hd hl⟩

theorem entered?_of_find? (h : tree.find? p false = some x) (hl : ∀ target, x ≠ .link target) :
    tree.entered? p = some x := by
  unfold entered?
  rw [h]
  cases x with
  | link target => exact absurd rfl (hl target)
  | file | directory | locked => rfl

/-- An entry of a directory that a walk enters is entered at its own path. -/
theorem entered?_child (hp : p.normal = p) (he : tree.entered? p = some (.directory es))
    (hn : Path.IsName name) (hd : name ≠ Path.dotDot) (hx : named? name es = some x)
    (hl : ∀ target, x ≠ .link target) (hf : (p.child name).fits = true) :
    tree.entered? (p.child name) = some x := by
  have hne := components_ne_nil_of_entered? he
  obtain ⟨top, here⟩ := tree
  obtain ⟨ha, above, h⟩ := descend_of_entered? he
  apply entered?_of_find? _ hl
  rw [find?_eq_some_iff]
  refine ⟨Path.isAbsolute_within_child hp hne ha name, hf, ?_⟩
  dsimp only at h ⊢
  have hstep (links : Nat) : descend top false links (.directory es :: above) [name] =
      some (x :: .directory es :: above) := descend_name hn hd hx hl false
  suffices hw : ∃ links', descend top false linkLimit [top]
      (Path.segments ((p.child name).within here).bytes) =
        descend top false links' (.directory es :: above) [name] by
    obtain ⟨links', hw⟩ := hw
    rw [at?, hw, hstep links']
    rfl
  rcases Path.segments_child hp hne hn here with ⟨rfl, hs⟩ | hs
  · -- The root is the top, whose empty name leads nowhere else.
    have hroot : Path.segments (Path.root.within here).bytes = [[], []] := rfl
    rw [hs]
    rw [hroot] at h
    cases top with
    | file | link | locked => simp [descend] at h
    | directory ts =>
      simp only [descend, true_or, if_true, Option.some.injEq, List.cons.injEq,
        Node.directory.injEq] at h
      obtain ⟨rfl, rfl⟩ := h
      refine ⟨linkLimit, ?_⟩
      conv => lhs; rw [descend, if_pos (.inl rfl)]
  · rw [hs]
    exact descend_append false h (by simp)

theorem not_link_of_below? (h : x.below? ns = some node) (hl : ∀ target, node ≠ .link target)
    (target : Path) : x ≠ .link target := by
  rintro rfl
  cases ns with
  | nil =>
    cases h
    exact hl target rfl
  | cons => cases h

/-- What some names below a path lead to is entered at its own path. -/
theorem entered?_extend (ht : tree.IsProper) (hp : p.normal = p)
    (he : tree.entered? p = some node) (hb : node.below? ns = some x)
    (hl : ∀ target, x ≠ .link target) (hd : Path.dotDot ∉ ns) (hf : (p.extend ns).fits = true) :
    tree.entered? (p.extend ns) = some x := by
  induction ns generalizing p node with
  | nil =>
    cases hb
    exact he
  | cons n ns ih =>
    cases node with
    | file | link | locked => cases hb
    | directory es =>
      obtain ⟨y, hy, hb⟩ := Option.bind_eq_some_iff.1 hb
      have hes : AreProper es := isProper_entered? ht he
      have hn := (hes.of_named? hy).1
      simp only [List.mem_cons, not_or] at hd
      have hstep := entered?_child hp he hn (Ne.symm hd.1) hy (not_link_of_below? hb hl)
        (Path.fits_of_extend hf)
      exact ih (Path.normal_child hp hn) hstep hb hd.2 hf

theorem find?_root (h : tree.top = .directory es) (follow : Bool) :
    tree.find? .root follow = some tree.top := by
  have hs : Path.segments Path.root.bytes = [[], []] := rfl
  rw [find?_of_isAbsolute rfl, if_pos (by decide), at?, hs, h]
  simp [descend]

/-- What is at the top of a tree is entered at the root. -/
theorem entered?_root (h : tree.top = .directory es) : tree.entered? .root = some tree.top :=
  entered?_of_find? (find?_root h false) (by simp [h])

/-- What some names lead to from the top of a tree is entered at their path. -/
theorem entered?_of_below? (ht : tree.IsProper) (h : tree.top = .directory es)
    (hp : p = Path.root.extend ns) (hb : tree.top.below? ns = some x)
    (hl : ∀ target, x ≠ .link target) (hd : Path.dotDot ∉ ns) (hf : p.fits = true) :
    tree.entered? p = some x := by
  subst hp
  exact entered?_extend ht rfl (entered?_root h) hb hl hd hf

/-! ## Files below a path -/

/-- The file lies at the path or below it, in directories alone. Its own path is one that the system
takes, and no directory on the way has an entry that is named like its parent. -/
def LeadsTo (tree : FileTree) (p f : Path) : Prop :=
  ∃ node names content, tree.entered? p = some node ∧ node.below? names = some (.file content) ∧
    f = p.extend names ∧ Path.dotDot ∉ names ∧ f.fits = true

theorem LeadsTo.components_ne_nil (h : tree.LeadsTo p f) : p.components ≠ [] := by
  obtain ⟨node, -, -, he, -⟩ := h
  exact components_ne_nil_of_entered? he

theorem LeadsTo.isUnder (h : tree.LeadsTo p f) (ht : tree.IsProper) (hp : p.normal = p) :
    f.normal = f ∧ f.isUnder p = true := by
  obtain ⟨node, names, content, he, hb, rfl, -, -⟩ := h
  have hn := (isProper_entered? ht he).of_below? hb
  exact ⟨Path.normal_extend hp hn, Path.isUnder_extend hp hn⟩

/-- A file that lies below a path lies below each path between the two. -/
theorem LeadsTo.between (h : tree.LeadsTo p f) (ht : tree.IsProper) (hp : p.normal = p)
    (hq : q.normal = q) (hqp : q.isUnder p = true) (hfq : f.isUnder q = true) :
    tree.LeadsTo q f := by
  have hne := h.components_ne_nil
  obtain ⟨node, names, content, he, hb, rfl, hd, hf⟩ := h
  have hn := (isProper_entered? ht he).of_below? hb
  obtain ⟨ms, hms, rfl⟩ := Path.exists_extend hq hp hne hqp
  obtain ⟨ns, rfl⟩ := Path.prefix_of_isUnder hp hn hms hfq
  rw [List.mem_append, not_or] at hd
  rw [Path.extend_append] at hf ⊢
  rw [below?_append, Option.bind_eq_some_iff] at hb
  obtain ⟨x, hx, hb⟩ := hb
  have hl := not_link_of_below? hb (by simp)
  have hex := entered?_extend ht hp he hx hl hd.1 (Path.fits_of_extend hf)
  exact ⟨x, ns, content, hex, hb, rfl, hd.2, hf⟩

end FileTree

end Sweep
