import Sweep.Path.Normal
/-!
# Spellings of a path

The components of a path follow from its spelling: a separator inside adds the names behind it, and
one at the end adds nothing. Only the root ends with a separator in its shortest spelling, and no
spelling is shorter than the shortest one (`length_normal_le`).
-/

namespace Sweep.Path

/-! ## Separators at the end -/

/-- The spelling has no separator at its end, and is not empty. -/
def IsOpen (bs : List UInt8) : Prop := ∃ v n, bs = v ++ n ∧ n ≠ [] ∧ slash ∉ n

theorem IsOpen.ne_nil {bs : List UInt8} (h : IsOpen bs) : bs ≠ [] := by
  obtain ⟨v, n, rfl, hn, -⟩ := h
  simp [hn]

theorem IsOpen.getLast?_ne {bs : List UInt8} (h : IsOpen bs) : bs.getLast? ≠ some slash := by
  obtain ⟨v, n, rfl, hn, hs⟩ := h
  intro he
  rw [List.getLast?_append, List.getLast?_eq_some_getLast hn, Option.some_or,
    Option.some.injEq] at he
  exact hs (he ▸ List.getLast_mem hn)

theorem IsOpen.of_isName {n : List UInt8} (h : IsName n) (v : List UInt8) : IsOpen (v ++ n) :=
  ⟨v, n, rfl, h.1, h.2.2⟩

theorem joinNames_append {ns ms : List (List UInt8)} (hn : ns ≠ []) (hm : ms ≠ []) :
    joinNames (ns ++ ms) = joinNames ns ++ slash :: joinNames ms := by
  induction ns with
  | nil => exact absurd rfl hn
  | cons n ns ih =>
    cases ns with
    | nil =>
      cases ms with
      | nil => exact absurd rfl hm
      | cons m ms => rfl
    | cons k ns =>
      have := ih (by simp)
      simp only [List.cons_append, joinNames] at this ⊢
      rw [this, List.append_assoc, List.cons_append]

/-- Names joined end like the last of them. -/
theorem isOpen_joinNames {ns : List (List UInt8)} {n : List UInt8} (hn : n ≠ [])
    (hs : slash ∉ n) : IsOpen (joinNames (ns ++ [n])) := by
  cases ns with
  | nil => exact ⟨[], n, rfl, hn, hs⟩
  | cons m ns =>
    rw [joinNames_append (by simp) (by simp)]
    exact ⟨joinNames (m :: ns) ++ [slash], n, by simp [joinNames], hn, hs⟩

/-- The spelling of components that are more than the root has no separator at its end. -/
theorem isOpen_ofComponents {cs : List Component} (h : IsSpelt cs) (hn : cs ≠ [])
    (hr : cs ≠ [.root]) : IsOpen (ofComponents cs).bytes := by
  obtain ⟨ns, hns, hc⟩ := h
  have hlast : ∃ ds c, cs = ds ++ [c] ∧ c.spelling ≠ [] ∧ slash ∉ c.spelling := by
    rcases List.eq_nil_or_concat ns with rfl | ⟨ms, m, rfl⟩
    · rcases hc with rfl | rfl | rfl
      · exact absurd rfl hr
      · exact ⟨[], .here, rfl, by decide, by decide⟩
      · exact absurd rfl hn
    · have hm := hns m (by simp)
      rcases hc with rfl | rfl | rfl
      · exact ⟨.root :: ms.map .name, .name m, by simp, hm.1, hm.2.2⟩
      · exact ⟨.here :: ms.map .name, .name m, by simp, hm.1, hm.2.2⟩
      · exact ⟨ms.map .name, .name m, by simp, hm.1, hm.2.2⟩
  obtain ⟨ds, c, rfl, h1, h2⟩ := hlast
  rw [ofComponents, if_neg hr, List.map_append]
  exact isOpen_joinNames h1 h2

theorem isSpelt_append_name {cs : List Component} (h : IsSpelt cs) {n : List UInt8}
    (hn : IsName n) : IsSpelt (cs ++ [.name n]) := by
  obtain ⟨ns, hns, hc⟩ := h
  refine ⟨ns ++ [n], ?_, ?_⟩
  · intro m hm
    rcases List.mem_append.1 hm with hm | hm
    · exact hns m hm
    · rwa [List.mem_singleton.1 hm]
  · rcases hc with rfl | rfl | rfl <;> simp

/-! ## Separators inside -/

theorem segments_ne_nil (bs : List UInt8) : segments bs ≠ [] := by
  cases bs with
  | nil => simp [segments]
  | cons b bs =>
    unfold segments
    split
    · simp
    · split <;> simp

theorem segments_split (v t : List UInt8) :
    segments (v ++ slash :: t) = segments v ++ segments t := by
  induction v with
  | nil => simp [segments]
  | cons b v ih =>
    by_cases hb : b = slash
    · simp [segments, hb, ih]
    · rw [List.cons_append, segments, if_neg hb, segments, if_neg hb, ih]
      cases hv : segments v with
      | nil => exact absurd hv (segments_ne_nil v)
      | cons s ss => rfl

/-- What follows a separator adds names to the components of what is in front of it. -/
theorem components_append (v w : List UInt8) :
    (Path.mk (v ++ slash :: w)).components =
      (Path.mk (v ++ [slash])).components ++ names (segments w) := by
  have ha : (Path.mk (v ++ slash :: w)).isAbsolute = (Path.mk (v ++ [slash])).isAbsolute := by
    simp [isAbsolute]
  have hh : (segments v ++ segments w).head? = (segments v ++ segments []).head? := by
    simp [List.head?_append, List.head?_eq_some_head (segments_ne_nil v)]
  have hn : names (segments v ++ segments w) = names (segments v ++ segments []) ++
      names (segments w) := by
    simp [names, segments]
  simp only [components, ha, segments_split, hh, hn]
  split
  · rfl
  · split <;> rfl

/-- A separator at the end of a path does not count. -/
theorem components_concat {q : Path} (h : q.bytes ≠ []) :
    (Path.mk (q.bytes ++ [slash])).components = q.components := by
  have ha : (Path.mk (q.bytes ++ [slash])).isAbsolute = q.isAbsolute := by
    simp [isAbsolute, List.head?_append, List.head?_eq_some_head h]
  have hh : (segments q.bytes ++ segments []).head? = (segments q.bytes).head? := by
    simp [List.head?_append, List.head?_eq_some_head (segments_ne_nil q.bytes)]
  have hn : names (segments q.bytes ++ segments []) = names (segments q.bytes) := by
    simp [names, segments]
  simp only [components, ha, segments_split, hh, hn]

/-- Only the empty path has no components. -/
theorem components_eq_nil_iff {p : Path} : p.components = [] ↔ p.bytes = [] := by
  obtain ⟨bs⟩ := p
  cases bs with
  | nil => simp [components, isAbsolute, segments, names, dot]
  | cons b bs =>
    simp only [reduceCtorEq, iff_false]
    intro hc
    unfold components at hc
    dsimp only at hc
    split at hc
    · cases hc
    · next ha =>
      have hb : b ≠ slash := by simpa [isAbsolute] using ha
      obtain ⟨s, ss, hs⟩ : ∃ s ss, segments (b :: bs) = (b :: s) :: ss := by
        rw [segments, if_neg hb]
        cases segments bs with
        | nil => exact ⟨[], [], rfl⟩
        | cons s ss => exact ⟨s, ss, rfl⟩
      rw [hs] at hc
      split at hc
      · cases hc
      · next hd => simp_all [names]

/-- Whether a path starts at the root is told by its components. -/
theorem isAbsolute_iff (p : Path) : p.isAbsolute = true ↔ p.components.head? = some .root := by
  unfold components
  dsimp only
  split
  · next h => simp [h]
  · next h =>
    split
    · simp [h]
    · simp [h, names]

theorem isAbsolute_of_same {p q : Path} (h : p.same q = true) : p.isAbsolute = q.isAbsolute := by
  rw [Bool.eq_iff_iff, isAbsolute_iff, isAbsolute_iff, same_iff.1 h]

/-! ## Lengths -/

theorem joinNames_segments (bs : List UInt8) : joinNames (segments bs) = bs := by
  induction bs with
  | nil => rfl
  | cons b bs ih =>
    unfold segments
    cases hs : segments bs with
    | nil => exact absurd hs (segments_ne_nil bs)
    | cons s ss =>
      rw [hs] at ih
      split
      · next hb => rw [joinNames, ih, hb, List.nil_append]
      · cases ss <;> simp_all [joinNames]

theorem length_joinNames_cons (n : List UInt8) {ns : List (List UInt8)} (h : ns ≠ []) :
    (joinNames (n :: ns)).length = n.length + 1 + (joinNames ns).length := by
  rw [← List.singleton_append, joinNames_append (by simp) h]
  simp only [joinNames, List.length_append, List.length_cons]
  omega

theorem length_joinNames_le {ms ns : List (List UInt8)} (h : ms.Sublist ns) :
    (joinNames ms).length ≤ (joinNames ns).length := by
  induction h with
  | slnil => exact Nat.le_refl _
  | @cons ms ns n h ih =>
    by_cases hns : ns = []
    · subst hns
      rw [List.sublist_nil.1 h]
      exact Nat.zero_le _
    · rw [length_joinNames_cons n hns]
      omega
  | @cons_cons ms ns n h ih =>
    by_cases hms : ms = []
    · subst hms
      by_cases hns : ns = []
      · subst hns
        exact Nat.le_refl _
      · rw [length_joinNames_cons n hns, joinNames]
        omega
    · have hns : ns ≠ [] := by
        rintro rfl
        exact hms (List.sublist_nil.1 h)
      rw [length_joinNames_cons n hms, length_joinNames_cons n hns]
      omega

/-- The components of a path are spelled by some of its segments. -/
theorem spelling_sublist (p : Path) :
    (p.components.map Component.spelling).Sublist (segments p.bytes) := by
  have hnames (ss : List (List UInt8)) : ((names ss).map Component.spelling).Sublist ss := by
    rw [names, map_spelling_name]
    exact List.filter_sublist
  have hskip (s : List UInt8) (ss : List (List UInt8)) (hs : s = [] ∨ s = dot) :
      names (s :: ss) = names ss := by
    rcases hs with rfl | rfl <;> simp [names]
  have hcons (c : Component) (hc : c.spelling = [] ∨ c.spelling = dot)
      (h : (segments p.bytes).head? = some c.spelling) :
      ((c :: names (segments p.bytes)).map Component.spelling).Sublist (segments p.bytes) := by
    obtain ⟨ss, he⟩ := List.head?_eq_some_iff.1 h
    rw [he, List.map_cons, hskip _ _ hc]
    exact (hnames ss).cons_cons _
  unfold components
  dsimp only
  split
  · next ha =>
    rw [isAbsolute, beq_iff_eq] at ha
    obtain ⟨bs, hb⟩ := List.head?_eq_some_iff.1 ha
    exact hcons .root (.inl rfl) (by rw [hb, segments, if_pos rfl]; rfl)
  · split
    · next hh => exact hcons .here (.inr rfl) hh
    · exact hnames _

/-- No spelling of a path is shorter than its shortest one. -/
theorem length_normal_le (p : Path) : p.normal.bytes.length ≤ p.bytes.length := by
  have hj : (joinNames (p.components.map Component.spelling)).length ≤ p.bytes.length := by
    conv => rhs; rw [← joinNames_segments p.bytes]
    exact length_joinNames_le (spelling_sublist p)
  unfold normal ofComponents
  split
  · next hr =>
    have ha : p.isAbsolute = true := by
      rw [isAbsolute_iff, hr]
      rfl
    rw [isAbsolute, beq_iff_eq] at ha
    obtain ⟨bs, hb⟩ := List.head?_eq_some_iff.1 ha
    simp [hb, root]
  · exact hj

/-! ## The root -/

/-- A path that some names lead on from to an absolute one is absolute, unless it is empty. -/
theorem isAbsolute_of_isUnder {p q : Path} (hp : p.isAbsolute = true) (h : p.isUnder q = true)
    (hq : q.components ≠ []) : q.isAbsolute = true := by
  obtain ⟨cs, hcs⟩ := isUnder_iff.1 h
  obtain ⟨c, rest, hc⟩ := List.exists_cons_of_ne_nil hq
  rw [isAbsolute_iff, ← hcs, hc] at hp
  rw [isAbsolute_iff, hc]
  exact hp

theorem isUnder_root {p : Path} (h : p.isAbsolute = true) : p.isUnder root = true := by
  have hr : root.components = [.root] := by decide
  rw [isUnder_iff, hr, components, if_pos h]
  exact List.prefix_append [Component.root] _

/-- A shortest spelling is the root, is empty, or has no separator at its end. -/
theorem normal_cases (p : Path) : p.normal = root ∨ p.components = [] ∨ IsOpen p.normal.bytes := by
  by_cases hr : p.components = [.root]
  · exact .inl (by rw [normal, hr]; rfl)
  · by_cases he : p.components = []
    · exact .inr (.inl he)
    · exact .inr (.inr (isOpen_ofComponents (isSpelt_components p) he hr))

/-- Only the root ends with a separator. -/
theorem root_or_isOpen {p : Path} (hp : p.normal = p) (hne : p.components ≠ []) :
    p = root ∨ IsOpen p.bytes := by
  rcases p.normal_cases with h | h | h
  · exact .inl (hp.symm.trans h)
  · exact absurd h hne
  · rw [hp] at h
    exact .inr h

end Sweep.Path
