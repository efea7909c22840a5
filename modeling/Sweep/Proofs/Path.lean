import Sweep.Mount
import Sweep.Proofs.Spelling
import Sweep.Proofs.Utf8
/-!
# Paths below a path

A walk makes paths by putting names behind a root. We show that such a path is in its shortest
spelling if the root is, that it is under the root by components exactly where its spelling goes on
behind a separator, and that the text of a path below a directory begins with the stem of the
directory. Of two paths above a third one the longer lies below the other, so lengths can be
compared in place of components (`isBelow_iff_length`, `isBelow_iff_shorter`).
-/

namespace Sweep.Path

/-! ## Children -/

/-- The child of a directory is spelled by one more component. -/
theorem child_ofComponents {cs : List Component} (h : IsSpelt cs) (n : List UInt8) :
    (ofComponents cs).child n = ofComponents (cs ++ [.name n]) := by
  by_cases he : cs = []
  · subst he
    rfl
  · by_cases hr : cs = [.root]
    · subst hr
      rfl
    · have ho := isOpen_ofComponents h he hr
      have hl : cs ++ [.name n] ≠ [.root] := fun hc => by
        have := congrArg List.getLast? hc
        simp at this
      rw [child, if_neg ho.ne_nil, if_neg ho.getLast?_ne]
      simp only [ofComponents, if_neg hr, if_neg hl, List.map_append]
      rw [joinNames_append (by simpa using he) (by simp)]
      rfl

theorem eq_ofComponents {p : Path} (hp : p.normal = p) : p = ofComponents p.components := hp.symm

theorem components_child {p : Path} (hp : p.normal = p) {n : List UInt8} (hn : IsName n) :
    (p.child n).components = p.components ++ [.name n] := by
  conv => lhs; rw [eq_ofComponents hp, child_ofComponents (isSpelt_components p)]
  exact components_ofComponents (isSpelt_append_name (isSpelt_components p) hn)

theorem normal_child {p : Path} (hp : p.normal = p) {n : List UInt8} (hn : IsName n) :
    (p.child n).normal = p.child n := by
  rw [normal, components_child hp hn, ← child_ofComponents (isSpelt_components p), ← normal, hp]

theorem length_le_child (p : Path) (n : List UInt8) :
    p.bytes.length ≤ (p.child n).bytes.length := by
  unfold child
  split
  · simp_all
  · split <;> simp

/-! ## Names behind a path -/

/-- The path with names behind it. -/
def extend (p : Path) (ns : List (List UInt8)) : Path := ns.foldl child p

@[simp] theorem extend_nil (p : Path) : p.extend [] = p := rfl

@[simp] theorem extend_cons (p : Path) (n : List UInt8) (ns : List (List UInt8)) :
    p.extend (n :: ns) = (p.child n).extend ns := rfl

theorem extend_append (p : Path) (ns ms : List (List UInt8)) :
    p.extend (ns ++ ms) = (p.extend ns).extend ms := List.foldl_append

theorem components_extend {p : Path} (hp : p.normal = p) {ns : List (List UInt8)}
    (hn : ∀ n ∈ ns, IsName n) : (p.extend ns).components = p.components ++ ns.map .name := by
  induction ns generalizing p with
  | nil => simp
  | cons n ns ih =>
    have h := hn n (by simp)
    rw [extend_cons, ih (normal_child hp h) fun m hm => hn m (List.mem_cons_of_mem _ hm),
      components_child hp h]
    simp

theorem normal_extend {p : Path} (hp : p.normal = p) {ns : List (List UInt8)}
    (hn : ∀ n ∈ ns, IsName n) : (p.extend ns).normal = p.extend ns := by
  induction ns generalizing p with
  | nil => exact hp
  | cons n ns ih =>
    exact ih (normal_child hp (hn n (by simp))) fun m hm => hn m (List.mem_cons_of_mem _ hm)

theorem length_le_extend (p : Path) (ns : List (List UInt8)) :
    p.bytes.length ≤ (p.extend ns).bytes.length := by
  induction ns generalizing p with
  | nil => exact Nat.le_refl _
  | cons n ns ih => exact Nat.le_trans (length_le_child p n) (ih _)

theorem fits_of_extend {p : Path} {ns : List (List UInt8)} (h : (p.extend ns).fits = true) :
    p.fits = true := by
  have hl := length_le_extend p ns
  rw [fits_iff] at h ⊢
  omega

theorem isUnder_extend {p : Path} (hp : p.normal = p) {ns : List (List UInt8)}
    (hn : ∀ n ∈ ns, IsName n) : (p.extend ns).isUnder p = true := by
  rw [isUnder_iff, components_extend hp hn]
  exact List.prefix_append _ _

/-- Names behind a path lead away from it. -/
theorem location_extend_ne {p : Path} (hp : p.normal = p) {ns : List (List UInt8)}
    (hn : ∀ n ∈ ns, IsName n) (hne : ns ≠ []) : p.location ≠ (p.extend ns).location := by
  intro hl
  rw [location_eq_location_iff, same_iff, components_extend hp hn] at hl
  apply hne
  simpa using hl

/-- Names lead below a path that begins with others only if these begin the names. -/
theorem prefix_of_isUnder {p : Path} (hp : p.normal = p) {ns ms : List (List UInt8)}
    (hn : ∀ n ∈ ns, IsName n) (hm : ∀ m ∈ ms, IsName m)
    (h : (p.extend ns).isUnder (p.extend ms) = true) : ms <+: ns := by
  rw [isUnder_iff, components_extend hp hn, components_extend hp hm,
    List.prefix_append_right_inj] at h
  obtain ⟨ks, hk⟩ := h
  obtain ⟨as, bs, rfl, ha, -⟩ := List.map_eq_append_iff.1 hk.symm
  rw [List.map_inj_right (fun _ _ => Component.name.inj)] at ha
  exact ha ▸ List.prefix_append _ _

/-- Different names lead to different paths. -/
theorem extend_inj {p : Path} (hp : p.normal = p) {ns ms : List (List UInt8)}
    (hn : ∀ n ∈ ns, IsName n) (hm : ∀ m ∈ ms, IsName m) (h : p.extend ns = p.extend ms) :
    ns = ms := by
  have hc := congrArg components h
  rw [components_extend hp hn, components_extend hp hm, List.append_cancel_left_eq] at hc
  exact List.map_inj_right (fun _ _ => Component.name.inj) |>.1 hc

/-! ## Paths under others -/

theorem eq_of_same {p q : Path} (hp : p.normal = p) (hq : q.normal = q) (h : p.same q = true) :
    p = q := by
  rw [← hp, ← hq, normal_eq_normal_iff.2 h]

theorem isUnder_trans {p q r : Path} (h : p.isUnder q = true) (h' : q.isUnder r = true) :
    p.isUnder r = true :=
  isUnder_iff.2 ((isUnder_iff.1 h').trans (isUnder_iff.1 h))

theorem same_of_isUnder {p q : Path} (h : p.isUnder q = true) (h' : q.isUnder p = true) :
    p.same q = true :=
  same_iff.2 ((isUnder_iff.1 h').eq_of_length_le (isUnder_iff.1 h).length_le)

/-- Of two paths above a third, one is above the other. -/
theorem isUnder_or_isUnder {p q r : Path} (hq : p.isUnder q = true) (hr : p.isUnder r = true) :
    q.isUnder r = true ∨ r.isUnder q = true := by
  simp only [isUnder_iff] at *
  exact (List.prefix_or_prefix_of_prefix hr hq)

theorem tail_of_isSpelt {c : Component} {cs : List Component} (h : IsSpelt (c :: cs)) :
    ∃ ns : List (List UInt8), (∀ n ∈ ns, IsName n) ∧ cs = ns.map .name := by
  obtain ⟨ns, hns, hc⟩ := h
  rcases hc with hc | hc | hc
  · exact ⟨ns, hns, (List.cons.inj hc).2⟩
  · exact ⟨ns, hns, (List.cons.inj hc).2⟩
  · cases ns with
    | nil => cases hc
    | cons n ns =>
      exact ⟨ns, fun m hm => hns m (List.mem_cons_of_mem _ hm), (List.cons.inj hc).2⟩

/-- What is under a path is the path with names behind it. -/
theorem exists_extend {p q : Path} (hp : p.normal = p) (hq : q.normal = q)
    (hne : q.components ≠ []) (h : p.isUnder q = true) :
    ∃ ns : List (List UInt8), (∀ n ∈ ns, IsName n) ∧ p = q.extend ns := by
  obtain ⟨ds, hd⟩ := isUnder_iff.1 h
  obtain ⟨c, cs, hc⟩ := List.exists_cons_of_ne_nil hne
  have hs := isSpelt_components p
  rw [← hd, hc, List.cons_append] at hs
  obtain ⟨ns, hns, he⟩ := tail_of_isSpelt hs
  obtain ⟨ks, ms, rfl, -, hm⟩ := List.map_eq_append_iff.1 he.symm
  have hms : ∀ n ∈ ms, IsName n := fun n hn => hns n (List.mem_append_right _ hn)
  refine ⟨ms, hms, eq_of_same hp (normal_extend hq hms) (same_iff.2 ?_)⟩
  rw [components_extend hq hms, hm, hd]

theorem length_le_of_isUnder {p q : Path} (hp : p.normal = p) (hq : q.normal = q)
    (h : p.isUnder q = true) : q.bytes.length ≤ p.bytes.length := by
  have := (normal_prefix_of_isUnder h).length_le
  rwa [hp, hq] at this

/-- Whether the path lies below the other one. -/
def isBelow (p q : Path) : Bool := p.isUnder q && !p.same q

theorem isBelow_iff {p q : Path} :
    p.isBelow q = true ↔ p.isUnder q = true ∧ ¬ q.isUnder p = true := by
  simp only [isBelow, Bool.and_eq_true, Bool.not_eq_true']
  refine and_congr_right fun h => ⟨fun hs h' => ?_, fun hn => ?_⟩
  · rw [same_of_isUnder h h'] at hs
    cases hs
  · rw [Bool.eq_false_iff]
    intro hs
    rw [same_iff] at hs
    exact hn (isUnder_iff.2 (hs ▸ List.prefix_refl _))

@[simp] theorem isUnder_normal (p q : Path) : p.isUnder q.normal = p.isUnder q := by simp [isUnder]

@[simp] theorem normal_isUnder (p q : Path) : p.normal.isUnder q = p.isUnder q := by simp [isUnder]

@[simp] theorem isBelow_normal (p q : Path) : p.isBelow q.normal = p.isBelow q := by
  simp [isBelow, same]

/-- Of two paths above a third the longer one lies below the other. -/
theorem isBelow_iff_length {p q f : Path} (hp : p.normal = p) (hq : q.normal = q)
    (hfp : f.isUnder p = true) (hfq : f.isUnder q = true) :
    p.isBelow q = true ↔ q.bytes.length < p.bytes.length := by
  rw [isBelow_iff]
  constructor
  · rintro ⟨hpq, hnot⟩
    have hle := length_le_of_isUnder hp hq hpq
    have hpre := normal_prefix_of_isUnder hpq
    rw [hp, hq] at hpre
    apply Nat.lt_of_le_of_ne hle
    intro he
    apply hnot
    have heq : q = p := congrArg Path.mk (hpre.eq_of_length he)
    rw [heq]
    exact isUnder_self p
  · intro hlt
    have hnot : ¬ q.isUnder p = true := by
      intro h
      have hle := length_le_of_isUnder hq hp h
      omega
    exact ⟨(isUnder_or_isUnder hfp hfq).resolve_right hnot, hnot⟩

/-! ## Texts -/

/-- The text of a path may be cut in front of a separator. -/
theorem text_append (bs cs : List UInt8) :
    (Path.mk (bs ++ slash :: cs)).text = (Path.mk bs).text ++ '/' :: Utf8.lenient cs :=
  Utf8.lenient_append bs (by decide) cs

theorem bytes_prefix_child (p : Path) (n : List UInt8) : p.bytes <+: (p.child n).bytes := by
  unfold child
  split
  · simp_all
  · split <;> exact List.prefix_append _ _

theorem bytes_prefix_extend (p : Path) (ns : List (List UInt8)) :
    p.bytes <+: (p.extend ns).bytes := by
  induction ns generalizing p with
  | nil => exact List.prefix_refl _
  | cons n ns ih => exact (bytes_prefix_child p n).trans (ih _)

theorem isOpen_child (p : Path) {n : List UInt8} (hn : IsName n) : IsOpen (p.child n).bytes := by
  unfold child
  split
  · exact IsOpen.of_isName hn []
  · split
    · exact IsOpen.of_isName hn _
    · rw [List.append_cons]
      exact IsOpen.of_isName hn _

theorem isOpen_extend (p : Path) {ns : List (List UInt8)} (hne : ns ≠ [])
    (hn : ∀ n ∈ ns, IsName n) : IsOpen (p.extend ns).bytes := by
  obtain ⟨ms, m, rfl⟩ := (List.eq_nil_or_concat ns).resolve_left hne
  rw [List.concat_eq_append, extend_append]
  exact isOpen_child _ (hn m (by simp))

/-- The path is spelled as the other one, with a separator and more behind it. -/
def GoesOnFrom (p q : Path) : Prop := ∃ bs, p.bytes = q.bytes ++ slash :: bs

theorem goesOnFrom_extend {p : Path} (hp : IsOpen p.bytes) {ns : List (List UInt8)}
    (hne : ns ≠ []) : (p.extend ns).GoesOnFrom p := by
  cases ns with
  | nil => exact absurd rfl hne
  | cons n ns =>
    obtain ⟨w, hw⟩ := bytes_prefix_extend (p.child n) ns
    rw [child, if_neg hp.ne_nil, if_neg hp.getLast?_ne] at hw
    refine ⟨n ++ w, ?_⟩
    rw [extend_cons, child, if_neg hp.ne_nil, if_neg hp.getLast?_ne, ← hw, List.append_assoc,
      List.cons_append]

theorem text_of_goesOnFrom {p q : Path} (h : p.GoesOnFrom q) :
    ∃ rest, p.text = q.text ++ '/' :: rest := by
  obtain ⟨bs, hb⟩ := h
  exact ⟨Utf8.lenient bs, by rw [← text_append, ← hb]⟩

theorem isUnder_append (v w : List UInt8) :
    (Path.mk (v ++ slash :: w)).isUnder ⟨v ++ [slash]⟩ = true := by
  rw [isUnder_iff, components_append v w]
  exact List.prefix_append _ _

/-- What goes on from a path is under it by components, too. -/
theorem isUnder_of_goesOnFrom {p q : Path} (h : p.GoesOnFrom q) : p.isUnder q = true := by
  obtain ⟨bs, hb⟩ := h
  by_cases hq : q.bytes = []
  · rw [isUnder_iff, show q = ⟨[]⟩ from congrArg mk hq]
    exact List.nil_prefix
  · have hu := isUnder_iff.1 (isUnder_append q.bytes bs)
    rw [components_concat hq] at hu
    rw [show p = ⟨q.bytes ++ slash :: bs⟩ from congrArg mk hb]
    exact isUnder_iff.2 hu

/-- The text of a path goes on with a separator in the texts of the paths below it. -/
theorem text_extend {p : Path} (hp : IsOpen p.bytes) {ns : List (List UInt8)} (hne : ns ≠ []) :
    ∃ rest, (p.extend ns).text = p.text ++ '/' :: rest :=
  text_of_goesOnFrom (goesOnFrom_extend hp hne)

/-- In shortest spellings, what lies below a path goes on from it. -/
theorem goesOnFrom_of_isBelow {p q : Path} (hp : p.normal = p) (hq : q.normal = q)
    (ho : IsOpen q.bytes) (h : p.isBelow q = true) : p.GoesOnFrom q := by
  obtain ⟨hu, hn⟩ := isBelow_iff.1 h
  have hne : q.components ≠ [] := by
    intro he
    rw [eq_ofComponents hq, he] at ho
    exact ho.ne_nil rfl
  obtain ⟨ns, -, rfl⟩ := exists_extend hp hq hne hu
  apply goesOnFrom_extend ho
  rintro rfl
  exact hn (isUnder_self q)

/-- Let a path go on to a third one, and let a directory, spelled with a separator at its end, begin
the third one, too. Then the path lies below the directory exactly if it is spelled longer. -/
theorem isBelow_iff_shorter {q d : Path} {ns : List (List UInt8)} (hq : q.normal = q)
    (hns : ns ≠ []) (hd : ∃ v, d.bytes = v ++ [slash]) (hpre : d.bytes <+: (q.extend ns).bytes) :
    q.isBelow d = true ↔ d.bytes.length < q.bytes.length := by
  have hqpre := bytes_prefix_extend q ns
  rw [isBelow_iff]
  constructor
  · -- If the directory were spelled as long, it would be spelled as the path, with more behind it.
    rintro ⟨-, hnot⟩
    rw [← Nat.not_le]
    intro hle
    apply hnot
    obtain ⟨x, hx⟩ := List.prefix_of_prefix_length_le hqpre hpre hle
    rcases q.normal_cases with hr | he | ho
    · obtain rfl : q = root := hq.symm.trans hr
      exact isUnder_root (by simp [isAbsolute, ← hx, root])
    · rw [isUnder_iff, he]
      exact List.nil_prefix
    · rw [hq] at ho
      cases x with
      | nil =>
        rw [show d = q from congrArg mk (by simpa using hx.symm)]
        exact isUnder_self q
      | cons b x =>
        obtain ⟨bs, hb⟩ := goesOnFrom_extend ho hns
        rw [← hx, hb, List.prefix_append_right_inj] at hpre
        obtain rfl : b = slash := (List.cons_prefix_cons.1 hpre).1
        exact isUnder_of_goesOnFrom ⟨x, hx.symm⟩
  · intro hlt
    obtain ⟨v, hv⟩ := hd
    obtain ⟨w, hw⟩ := List.prefix_of_prefix_length_le hpre hqpre (Nat.le_of_lt hlt)
    have hqd : q.isUnder d = true := by
      rw [show d = ⟨v ++ [slash]⟩ from congrArg mk hv,
        show q = ⟨v ++ slash :: w⟩ from congrArg mk (by rw [← hw, hv]; simp)]
      exact isUnder_append v w
    refine ⟨hqd, fun hdq => ?_⟩
    have hle := length_normal_le d
    rw [← normal_eq_normal_iff.2 (same_of_isUnder hqd hdq), hq] at hle
    omega

/-- The text of a path begins the text of each path below it. -/
theorem text_prefix_of_isUnder {p q : Path} (hp : p.normal = p) (hq : q.normal = q)
    (hne : q.components ≠ []) (h : p.isUnder q = true) : q.text <+: p.text := by
  rcases root_or_isOpen hq hne with hr | ho
  · obtain ⟨bs, hb⟩ := normal_prefix_of_isUnder h
    rw [hp, hq, hr] at hb
    have hp' : p = ⟨slash :: bs⟩ := congrArg Path.mk hb.symm
    rw [hr, hp']
    exact ⟨_, (text_append [] bs).symm⟩
  · obtain ⟨ns, -, rfl⟩ := exists_extend hp hq hne h
    by_cases hns : ns = []
    · rw [hns]
      exact List.prefix_refl _
    · obtain ⟨rest, ht⟩ := text_extend ho hns
      rw [ht]
      exact List.prefix_append _ _

theorem length_le_text (p : Path) : p.bytes.length ≤ p.text.byteLength :=
  Utf8.length_le_lenient p.bytes

theorem byteLength_lt_of_prefix {s t : Text} (h : s <+: t) (hne : s ≠ t) :
    s.byteLength < t.byteLength := by
  obtain ⟨u, rfl⟩ := h
  cases u with
  | nil => simp at hne
  | cons c u =>
    have := Char.utf8Size_pos c
    simp only [Text.byteLength_append, Text.byteLength]
    omega

end Sweep.Path

namespace Sweep.Mount

open Sweep.Path

theorem stem_cases (m : Mount) :
    m.stem = m.point.normal.text ∨ m.stem = m.point.normal.text ++ ['/'] := by
  unfold stem
  dsimp only
  split
  · exact .inl rfl
  · exact .inr rfl

theorem length_le_stem (m : Mount) : m.point.normal.bytes.length ≤ m.stem.byteLength := by
  have := length_le_text m.point.normal
  rcases m.stem_cases with h | h
  · rwa [h]
  · rw [h, Text.byteLength_append]
    omega

/-- The stem of a mount begins the text of every path below it. -/
theorem stem_prefix {m : Mount} {p : Path} (hp : p.normal = p) (h : p.isBelow m.point = true)
    (hm : p.isAbsolute = true ∨ m.point.components ≠ []) : m.stem <+: p.text := by
  obtain ⟨hu, -⟩ := isBelow_iff.1 h
  have hslash (bs : List UInt8) (he : p.bytes = slash :: bs) : ['/'] <+: p.text := by
    rw [show p = ⟨slash :: bs⟩ by rw [← he]]
    exact ⟨_, (text_append [] bs).symm⟩
  rcases normal_cases m.point with hr | he | ho
  · obtain ⟨bs, hb⟩ := normal_prefix_of_isUnder hu
    rw [hr, hp] at hb
    rw [show m.stem = ['/'] by rw [stem, hr]; decide]
    exact hslash bs hb.symm
  · have hr : m.point.normal = ⟨[]⟩ := by rw [normal, he]; rfl
    have ha : p.isAbsolute = true := hm.resolve_right fun hne => hne he
    rw [show m.stem = ['/'] by rw [stem, hr]; decide]
    rw [isAbsolute, beq_iff_eq] at ha
    obtain ⟨bs, hb⟩ := List.head?_eq_some_iff.1 ha
    exact hslash bs hb
  · have hb : p.isBelow m.point.normal = true := by rwa [isBelow_normal]
    obtain ⟨rest, hrest⟩ :=
      text_of_goesOnFrom (goesOnFrom_of_isBelow hp (normal_normal _) ho hb)
    rw [hrest]
    rcases m.stem_cases with hs | hs
    · rw [hs]
      exact List.prefix_append _ _
    · rw [hs]
      exact ⟨rest, by simp⟩

end Sweep.Mount
