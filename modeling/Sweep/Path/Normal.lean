import Sweep.Path
/-!
# Shortest spellings

The shortest spelling of a path has the components of the path, so two paths are the same exactly
when their shortest spellings are equal.
-/

namespace Sweep.Path

/-! ## Segments -/

theorem slash_not_mem_segments {bs s : List UInt8} (h : s ∈ segments bs) : slash ∉ s := by
  induction bs generalizing s with
  | nil => simp_all [segments]
  | cons b bs ih =>
    unfold segments at h
    split at h
    · next hb =>
      rcases List.mem_cons.1 h with rfl | h
      · simp
      · exact ih h
    · next hb =>
      split at h
      · rcases List.mem_cons.1 h with rfl | h
        · simpa using Ne.symm hb
        · simp at h
      · next s' ss hs =>
        rcases List.mem_cons.1 h with rfl | h
        · have := ih (s := s') (by simp [hs])
          simp [this, Ne.symm hb]
        · exact ih (by simp [hs, h])

theorem segments_of_slash_not_mem {n : List UInt8} (h : slash ∉ n) : segments n = [n] := by
  induction n with
  | nil => rfl
  | cons b n ih =>
    simp only [List.mem_cons, not_or] at h
    simp [segments, Ne.symm h.1, ih h.2]

theorem segments_append {n : List UInt8} (h : slash ∉ n) (t : List UInt8) :
    segments (n ++ slash :: t) = n :: segments t := by
  induction n with
  | nil => simp [segments]
  | cons b n ih =>
    simp only [List.mem_cons, not_or] at h
    simp [segments, Ne.symm h.1, ih h.2]

theorem segments_joinNames {n : List UInt8} {ns : List (List UInt8)}
    (h : ∀ m ∈ n :: ns, slash ∉ m) : segments (joinNames (n :: ns)) = n :: ns := by
  induction ns generalizing n with
  | nil => simpa [joinNames] using segments_of_slash_not_mem (h n (by simp))
  | cons m ns ih =>
    rw [joinNames, segments_append (h n (by simp)), ih fun k hk => h k (List.mem_cons_of_mem _ hk)]

/-! ## Names -/

/-- What may stand between two separators and name something. -/
def IsName (n : List UInt8) : Prop := n ≠ [] ∧ n ≠ dot ∧ slash ∉ n

instance (n : List UInt8) : Decidable (IsName n) :=
  inferInstanceAs (Decidable (n ≠ [] ∧ n ≠ dot ∧ slash ∉ n))

theorem names_eq_map (bs : List UInt8) :
    ∃ ns : List (List UInt8), (∀ n ∈ ns, IsName n) ∧ names (segments bs) = ns.map .name := by
  refine ⟨(segments bs).filter fun s => s ≠ [] && s ≠ dot, fun n hn => ?_, rfl⟩
  obtain ⟨hm, hk⟩ := List.mem_filter.1 hn
  simp only [Bool.and_eq_true, decide_eq_true_eq] at hk
  exact ⟨hk.1, hk.2, slash_not_mem_segments hm⟩

theorem names_of_isName {ns : List (List UInt8)} (h : ∀ n ∈ ns, IsName n) :
    names ns = ns.map .name := by
  have : ns.filter (fun s => s ≠ [] && s ≠ dot) = ns :=
    List.filter_eq_self.2 fun n hn => by simp [(h n hn).1, (h n hn).2.1]
  rw [names, this]

theorem map_spelling_name (ns : List (List UInt8)) :
    (ns.map Component.name).map Component.spelling = ns := by
  rw [List.map_map]
  exact List.map_id ns

/-! ## Components -/

theorem components_absolute {n : List UInt8} {ns : List (List UInt8)}
    (h : ∀ m ∈ n :: ns, IsName m) :
    (ofComponents (.root :: (n :: ns).map .name)).components = .root :: (n :: ns).map .name := by
  have hs : segments (slash :: joinNames (n :: ns)) = [] :: n :: ns := by
    rw [segments, if_pos rfl, segments_joinNames fun m hm => (h m hm).2.2]
  have ho : ofComponents (.root :: (n :: ns).map .name) = ⟨slash :: joinNames (n :: ns)⟩ := by
    rw [ofComponents, if_neg (by simp), List.map_cons, map_spelling_name]
    rfl
  have hn : names ([] :: n :: ns) = (n :: ns).map .name := by
    rw [← names_of_isName h]
    simp [names]
  rw [ho]
  simp only [components, isAbsolute, hs, hn, List.head?_cons, beq_self_eq_true, if_true]

/-- A relative spelling is that of its names, a dot in front included. -/
theorem components_relative {n : List UInt8} {ns : List (List UInt8)} (hn : n ≠ [])
    (h : ∀ m ∈ n :: ns, slash ∉ m) :
    (Path.mk (joinNames (n :: ns))).components =
      if n = dot then .here :: names ns else names (n :: ns) := by
  have hs := segments_joinNames h
  have ha : (Path.mk (joinNames (n :: ns))).isAbsolute = false := by
    cases n with
    | nil => simp at hn
    | cons b n =>
      have : slash ≠ b := fun hb => h (b :: n) (by simp) (by simp [hb])
      cases ns <;> simp [isAbsolute, joinNames, Ne.symm this]
  rw [components]
  simp only [ha, hs, List.head?_cons, Option.some.injEq, Bool.false_eq_true, if_false]
  split
  · next hd => simp [names, hd]
  · rfl

theorem ofComponents_map_name {ns : List (List UInt8)} :
    ofComponents (ns.map .name) = ⟨joinNames ns⟩ := by
  have : ns.map Component.name ≠ [.root] := by cases ns <;> simp
  rw [ofComponents, if_neg this, map_spelling_name]

theorem ofComponents_here {ns : List (List UInt8)} :
    ofComponents (.here :: ns.map .name) = ⟨joinNames (dot :: ns)⟩ := by
  rw [ofComponents, if_neg (by simp), List.map_cons, map_spelling_name]
  rfl

/-- What the components of a path look like: the root or a leading dot may stand first, and names
follow. -/
def IsSpelt (cs : List Component) : Prop :=
  ∃ ns : List (List UInt8), (∀ n ∈ ns, IsName n) ∧
    (cs = .root :: ns.map .name ∨ cs = .here :: ns.map .name ∨ cs = ns.map .name)

theorem isSpelt_components (p : Path) : IsSpelt p.components := by
  obtain ⟨ns, hns, he⟩ := names_eq_map p.bytes
  refine ⟨ns, hns, ?_⟩
  unfold components
  simp only [he]
  split
  · exact .inl rfl
  · split
    · exact .inr (.inl rfl)
    · exact .inr (.inr rfl)

/-- A spelling made of components has these components. -/
theorem components_ofComponents {cs : List Component} (h : IsSpelt cs) :
    (ofComponents cs).components = cs := by
  obtain ⟨ns, hns, hc⟩ := h
  have hsl : ∀ n ∈ ns, slash ∉ n := fun n hn => (hns n hn).2.2
  rcases hc with rfl | rfl | rfl
  · cases ns with
    | nil => rfl
    | cons n ns => exact components_absolute hns
  · rw [ofComponents_here, components_relative (by decide), if_pos rfl, names_of_isName hns]
    intro m hm
    rcases List.mem_cons.1 hm with rfl | hm
    · decide
    · exact hsl m hm
  · rw [ofComponents_map_name]
    cases ns with
    | nil => rfl
    | cons n ns =>
      rw [components_relative (hns n (by simp)).1 hsl, if_neg (hns n (by simp)).2.1,
        names_of_isName hns]

/-- The shortest spelling of a path has the components of the path. -/
@[simp] theorem components_normal (p : Path) : p.normal.components = p.components :=
  components_ofComponents (isSpelt_components p)

theorem joinNames_prefix (ns ms : List (List UInt8)) : joinNames ns <+: joinNames (ns ++ ms) := by
  induction ns with
  | nil => exact List.nil_prefix
  | cons n ns ih =>
    cases ns with
    | nil => cases ms <;> simp [joinNames]
    | cons k ns =>
      simp only [List.cons_append, joinNames] at ih ⊢
      exact (List.prefix_append_right_inj n).2 ((List.prefix_cons_inj slash).2 ih)

/-- The shortest spelling of a path begins those of the paths below it. -/
theorem normal_prefix_of_isUnder {p q : Path} (h : p.isUnder q = true) :
    q.normal.bytes <+: p.normal.bytes := by
  obtain ⟨cs, hc⟩ := isUnder_iff.1 h
  rw [normal, normal, ← hc]
  by_cases hr : q.components = [.root]
  · cases cs with
    | nil => simp
    | cons c cs =>
      have : Component.root :: c :: cs ≠ [.root] := by simp
      simp [hr, ofComponents, root, joinNames, Component.spelling]
  · by_cases hn : q.components ++ cs = [.root]
    · cases hq : q.components with
      | nil => simp [ofComponents, joinNames]
      | cons c ds =>
        rw [hq, List.cons_append] at hn
        obtain ⟨rfl, he⟩ := List.cons.inj hn
        rw [hq, (List.append_eq_nil_iff.1 he).1] at hr
        exact absurd rfl hr
    · rw [ofComponents, ofComponents, if_neg hr, if_neg hn, List.map_append]
      exact joinNames_prefix _ _

/-- Two paths are the same exactly when their shortest spellings are equal. -/
theorem normal_eq_normal_iff {p q : Path} : p.normal = q.normal ↔ p.same q = true := by
  rw [same_iff]
  exact ⟨fun h => by rw [← components_normal p, h, components_normal], fun h => by
    rw [normal, h, ← normal]⟩

end Sweep.Path
