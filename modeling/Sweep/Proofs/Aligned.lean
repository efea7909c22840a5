import Sweep.Rule
/-!
# Rules of literal names

A rule without wildcards compares texts: it asks how the text of a path begins or ends, or what
occurs in it. Rule and path are names with separators between them, and no name holds a separator,
so such a comparison never cuts a name. We prove that each rule asks the same of the list of names:
that it is the rule's, begins or ends with it, or holds it side by side.
-/

namespace Sweep

namespace Text

variable {a b c r : List Text} {n m t u v w : Text}

/-- Whether the text can be a name in a path. -/
def IsComponent (n : Text) : Prop := n ≠ [] ∧ '/' ∉ n

/-- The names, each after a separator. -/
def steps (ns : List Text) : Text := ns.flatMap ('/' :: ·)

@[simp] theorem steps_nil : steps [] = [] := rfl

@[simp] theorem steps_cons (n : Text) (ns : List Text) : steps (n :: ns) = '/' :: n ++ steps ns :=
  rfl

@[simp] theorem steps_append (a b : List Text) : steps (a ++ b) = steps a ++ steps b :=
  List.flatMap_append

theorem join_cons (n : Text) (ns : List Text) : join ['/'] (n :: ns) = n ++ steps ns := by
  induction ns generalizing n with
  | nil => simp [join]
  | cons m ns ih => rw [join, ih, steps_cons]; simp

theorem slash_join (h : r ≠ []) : '/' :: join ['/'] r = steps r := by
  cases r with
  | nil => exact absurd rfl h
  | cons n ns =>
    rw [join_cons]
    rfl

/-! ## No name is cut -/

/-- What is empty or starts with a separator. -/
def IsCut (t : Text) : Prop := t = [] ∨ ∃ u, t = '/' :: u

theorem isCut_steps (ns : List Text) : IsCut (steps ns) := by
  cases ns with
  | nil => exact .inl rfl
  | cons n ns => exact .inr ⟨n ++ steps ns, rfl⟩

theorem takeWhile_of_isCut (hn : '/' ∉ n) (ht : IsCut t) : (n ++ t).takeWhile (· != '/') = n := by
  have hall : ∀ x ∈ n, (x != '/') = true := by
    intro x hx
    simp only [bne_iff_ne, ne_eq]
    rintro rfl
    exact hn hx
  rw [List.takeWhile_append_of_pos hall]
  rcases ht with rfl | ⟨u, rfl⟩ <;> simp

/-- Two names are the same if what follows them begins at a separator. -/
theorem name_eq_of_append_eq (hn : '/' ∉ n) (hm : '/' ∉ m) (ht : IsCut t) (hu : IsCut u)
    (h : n ++ t = m ++ u) : n = m ∧ t = u := by
  have hnm : n = m := by rw [← takeWhile_of_isCut hn ht, h, takeWhile_of_isCut hm hu]
  rw [hnm] at h
  exact ⟨hnm, List.append_cancel_left h⟩

/-- What begins the steps of a path and is itself made of steps is the first of them. -/
theorem exists_of_steps_append (hc : ∀ n ∈ c, IsComponent n) (hr : ∀ n ∈ r, IsComponent n)
    (ht : IsCut t) (h : steps r ++ t = steps c) : ∃ s, c = r ++ s ∧ t = steps s := by
  induction r generalizing c with
  | nil => exact ⟨c, rfl, h⟩
  | cons n r ih =>
    obtain ⟨hn, hr⟩ := List.forall_mem_cons.1 hr
    cases c with
    | nil => cases h
    | cons m c =>
      obtain ⟨hm, hcs⟩ := List.forall_mem_cons.1 hc
      simp only [steps_cons, List.cons_append, List.cons.injEq, true_and, List.append_assoc] at h
      have hcut : IsCut (steps r ++ t) := by
        cases r with
        | nil => exact ht
        | cons k r => exact .inr ⟨k ++ steps r ++ t, rfl⟩
      obtain ⟨rfl, hrest⟩ := name_eq_of_append_eq hn.2 hm.2 hcut (isCut_steps c) h
      obtain ⟨s, rfl, hs⟩ := ih hcs hr hrest
      exact ⟨s, rfl, hs⟩

theorem steps_injective (hc : ∀ n ∈ c, IsComponent n) (hr : ∀ n ∈ r, IsComponent n) :
    steps c = steps r ↔ c = r := by
  constructor
  · intro h
    rw [← List.append_nil (steps r)] at h
    obtain ⟨s, rfl, hs⟩ := exists_of_steps_append hc hr (.inl rfl) h.symm
    cases s with
    | nil => exact List.append_nil r
    | cons n s => cases hs
  · rintro rfl
    rfl

/-- Every separator of a path stands in front of a name. -/
theorem exists_of_steps_split (hc : ∀ n ∈ c, IsComponent n) (h : steps c = w ++ '/' :: v) :
    ∃ a b, c = a ++ b ∧ w = steps a ∧ '/' :: v = steps b := by
  induction c generalizing w with
  | nil => simp at h
  | cons m c ih =>
    obtain ⟨hm, hc⟩ := List.forall_mem_cons.1 hc
    cases w with
    | nil => exact ⟨[], m :: c, rfl, rfl, h.symm⟩
    | cons x w =>
      simp only [steps_cons, List.cons_append, List.cons.injEq] at h
      obtain ⟨rfl, h⟩ := h
      rcases List.append_eq_append_iff.1 h with ⟨u, rfl, hu⟩ | ⟨u, rfl, hu⟩
      · obtain ⟨a, b, rfl, rfl, hb⟩ := ih hc hu
        exact ⟨m :: a, b, rfl, rfl, hb⟩
      · cases u with
        | nil =>
          rw [List.append_nil] at hm ⊢
          exact ⟨[w], c, rfl, by simp, hu⟩
        | cons y u =>
          obtain ⟨rfl, -⟩ := List.cons.inj hu
          exact absurd (by simp) hm.2

/-! ## Comparisons of texts -/

variable (hc : ∀ n ∈ c, IsComponent n) (hr : ∀ n ∈ r, IsComponent n)
include hc hr

theorem steps_prefix_iff : steps r ++ ['/'] <+: steps c ↔ ∃ b, c = r ++ b ∧ b ≠ [] := by
  constructor
  · rintro ⟨v, hv⟩
    rw [List.append_assoc] at hv
    obtain ⟨b, rfl, hb⟩ := exists_of_steps_append hc hr (.inr ⟨v, rfl⟩) hv
    refine ⟨b, rfl, ?_⟩
    rintro rfl
    cases hb
  · rintro ⟨b, rfl, hb⟩
    obtain ⟨n, ns, rfl⟩ := List.exists_cons_of_ne_nil hb
    exact ⟨n ++ steps ns, by simp⟩

theorem steps_suffix_iff (hne : r ≠ []) : steps r <:+ steps c ↔ r <:+ c := by
  obtain ⟨n, ns, rfl⟩ := List.exists_cons_of_ne_nil hne
  constructor
  · rintro ⟨w, hw⟩
    have hsplit : steps c = w ++ '/' :: (n ++ steps ns) := by rw [← hw]; rfl
    obtain ⟨a, b, rfl, -, hb⟩ := exists_of_steps_split hc hsplit
    have hb : steps (n :: ns) = steps b := hb
    rw [(steps_injective hr fun k hk => hc k (by simp [hk])).1 hb]
    exact List.suffix_append a b
  · rintro ⟨a, rfl⟩
    rw [steps_append]
    exact List.suffix_append _ _

theorem steps_infix_iff (hne : r ≠ []) :
    steps r ++ ['/'] <:+: steps c ↔ ∃ a b, c = a ++ r ++ b ∧ b ≠ [] := by
  constructor
  · rintro ⟨w, v, hv⟩
    obtain ⟨n, ns, rfl⟩ := List.exists_cons_of_ne_nil hne
    have hsplit : steps c = w ++ '/' :: (n ++ steps ns ++ '/' :: v) := by simp [← hv]
    obtain ⟨a, d, rfl, -, hd⟩ := exists_of_steps_split hc hsplit
    have hpre : steps (n :: ns) ++ ['/'] <+: steps d := ⟨v, by simp [← hd]⟩
    obtain ⟨b, rfl, hb⟩ := (steps_prefix_iff (fun k hk => hc k (by simp [hk])) hr).1 hpre
    exact ⟨a, b, by simp, hb⟩
  · rintro ⟨a, b, rfl, hb⟩
    have hpre := (steps_prefix_iff (fun n hn => hc n (by simp [hn])) hr).2 ⟨b, rfl, hb⟩
    rw [List.append_assoc, steps_append]
    exact hpre.isInfix.trans (List.suffix_append _ _).isInfix

end Text

/-! ## Shapes of literal rules -/

open Text

variable {a b c r : List Text} {t : Text} {isDirectory : Bool}

theorem Wildcard.occursIn_steps (hw : ∀ n ∈ r, occursIn n = false) : occursIn (steps r) = false := by
  induction r with
  | nil => rfl
  | cons n r ih =>
    obtain ⟨hn, hw⟩ := List.forall_mem_cons.1 hw
    have hr := ih hw
    simp only [occursIn] at hn hr ⊢
    simp [hn, hr]

/-- The steps of a path do not end with a separator. -/
theorem Text.getLast?_steps (hr : ∀ n ∈ r, IsComponent n) : (steps r).getLast? ≠ some '/' := by
  intro h
  obtain ⟨u, hu⟩ := List.getLast?_eq_some_iff.1 h
  obtain ⟨a, b, rfl, -, hb⟩ := exists_of_steps_split hr hu
  cases b with
  | nil => cases hb
  | cons n b =>
    obtain ⟨-, hb⟩ := List.cons.inj hb
    obtain ⟨hn, -⟩ := List.append_eq_nil_iff.1 hb.symm
    exact (hr n (by simp)).1 hn

theorem Text.getLast?_join (hne : r ≠ []) (hr : ∀ n ∈ r, IsComponent n) :
    (join ['/'] r).getLast? ≠ some '/' := by
  intro h
  obtain ⟨u, hu⟩ := List.getLast?_eq_some_iff.1 h
  apply getLast?_steps hr
  rw [← slash_join hne, hu, ← List.cons_append]
  exact List.getLast?_concat

theorem Text.head?_join_append (hne : r ≠ []) (hr : ∀ n ∈ r, IsComponent n) (t : Text) :
    (join ['/'] r ++ t).head? ≠ some '/' := by
  obtain ⟨n, ns, rfl⟩ := List.exists_cons_of_ne_nil hne
  have hn := hr n (by simp)
  obtain ⟨x, n, rfl⟩ := List.exists_cons_of_ne_nil hn.1
  rw [join_cons]
  intro h
  exact hn.2 (by simp [Option.some.inj h])

theorem Text.slash_mem_join (hr : ∀ n ∈ r, IsComponent n) :
    '/' ∈ join ['/'] r ↔ 2 ≤ r.length := by
  match r with
  | [] => simp [join]
  | [n] => simp [join, (hr n (by simp)).2]
  | n :: m :: r => simp [join]

theorem Text.join_ne_nil (hne : r ≠ []) (hr : ∀ n ∈ r, IsComponent n) : join ['/'] r ≠ [] := by
  obtain ⟨n, ns, rfl⟩ := List.exists_cons_of_ne_nil hne
  rw [join_cons]
  exact List.append_ne_nil_of_left_ne_nil (hr n (by simp)).1 _

theorem Wildcard.occursIn_join (hne : r ≠ []) (hw : ∀ n ∈ r, occursIn n = false) :
    occursIn (join ['/'] r) = false := by
  have h := occursIn_steps hw
  rw [← slash_join hne] at h
  exact h

theorem Wildcard.occursIn_concat_slash (t : Text) : occursIn (t ++ ['/']) = occursIn t := by
  simp [occursIn]

namespace Pattern

/-- The pattern of a text without wildcards. -/
theorem ofText_literal (ht : t ≠ []) (hw : Wildcard.occursIn t = false) : ofText t =
    if t.head? = some '/' then if t.getLast? = some '/' then .stem t else .exact t
    else if t.getLast? = some '/' then .relativeStem ('/' :: t)
    else if '/' ∈ t then .relativePath ('/' :: t)
    else .fileName ('/' :: t) := by
  simp [ofText, ht, hw]

variable (hne : r ≠ []) (hr : ∀ n ∈ r, IsComponent n)
  (hw : ∀ n ∈ r, Wildcard.occursIn n = false)
include hne hr hw

theorem ofText_absolute : ofText (steps r) = .exact (steps r) := by
  obtain ⟨n, ns, rfl⟩ := List.exists_cons_of_ne_nil hne
  have hhead : (steps (n :: ns)).head? = some '/' := rfl
  rw [ofText_literal (by simp) (Wildcard.occursIn_steps hw), if_pos hhead,
    if_neg (getLast?_steps hr)]

theorem ofText_absolute_closed : ofText (steps r ++ ['/']) = .stem (steps r ++ ['/']) := by
  have hlit := Wildcard.occursIn_concat_slash (steps r)
  rw [Wildcard.occursIn_steps hw] at hlit
  obtain ⟨n, ns, rfl⟩ := List.exists_cons_of_ne_nil hne
  have hhead : (steps (n :: ns) ++ ['/']).head? = some '/' := rfl
  rw [ofText_literal (by simp) hlit, if_pos hhead, if_pos List.getLast?_concat]

theorem ofText_relative : ofText (join ['/'] r) =
    if 2 ≤ r.length then .relativePath (steps r) else .fileName (steps r) := by
  have hhead := head?_join_append hne hr []
  rw [List.append_nil] at hhead
  rw [ofText_literal (join_ne_nil hne hr) (Wildcard.occursIn_join hne hw), if_neg hhead,
    if_neg (getLast?_join hne hr), slash_join hne]
  simp only [slash_mem_join hr]

theorem ofText_relative_closed :
    ofText (join ['/'] r ++ ['/']) = .relativeStem (steps r ++ ['/']) := by
  have hlit := Wildcard.occursIn_concat_slash (join ['/'] r)
  rw [Wildcard.occursIn_join hne hw] at hlit
  rw [ofText_literal (by simp) hlit, if_neg (head?_join_append hne hr _),
    if_pos List.getLast?_concat, ← slash_join hne]
  rfl

end Pattern

namespace Rule

/-- The text is that of a rule which excludes the path under this condition and no other, be the path
taken for a concrete file or not. -/
def Says (written path : Text) (isDirectory : Bool) (P : Prop) : Prop :=
  ∃ r, Rule.parse written = .ok r ∧ ∀ concrete, r.applies path isDirectory concrete = true ↔ P

theorem parse_of_ofText {p : Pattern} (h : Pattern.ofText t = p) (hg : p.glob? = none) :
    Rule.parse t = .ok ⟨t, p⟩ := by
  unfold Rule.parse
  rw [h]
  dsimp only
  rw [hg]

theorem says_of_ofText {p : Pattern} {path : Text} {P : Prop} (h : Pattern.ofText t = p)
    (hg : p.glob? = none)
    (hp : ∀ concrete, p.applies (.ofText path) isDirectory concrete = true ↔ P) :
    Says t path isDirectory P :=
  ⟨_, parse_of_ofText h hg, hp⟩

/-- Something is left behind, or nothing is and that is allowed, too. -/
theorem exists_rest_iff {P : List Text → Prop} {allowed : Prop} :
    (∃ b, P b ∧ (b ≠ [] ∨ allowed)) ↔ (∃ b, P b ∧ b ≠ []) ∨ allowed ∧ P [] := by
  constructor
  · rintro ⟨b, hb, hrest⟩
    by_cases hnil : b = []
    · subst hnil
      exact .inr ⟨hrest.resolve_left (not_not_intro rfl), hb⟩
    · exact .inl ⟨b, hb, hnil⟩
  · rintro (⟨b, hb, hne⟩ | ⟨hd, hnil⟩)
    · exact ⟨b, hb, .inl hne⟩
    · exact ⟨[], hnil, .inr hd⟩

section Names

variable (hrne : r ≠ []) (hc : ∀ n ∈ c, IsComponent n)
  (hr : ∀ n ∈ r, IsComponent n) (hw : ∀ n ∈ r, Wildcard.occursIn n = false) (isDirectory : Bool)
include hrne hc hr hw

theorem says_absolute : Says (steps r) (steps c) isDirectory (c = r) := by
  apply says_of_ofText (Pattern.ofText_absolute hrne hr hw) rfl
  intro concrete
  rw [← steps_injective hc hr]
  exact beq_iff_eq

theorem says_absolute_closed : Says (steps r ++ ['/']) (steps c) isDirectory
    (∃ b, c = r ++ b ∧ (b ≠ [] ∨ isDirectory = true)) := by
  apply says_of_ofText (Pattern.ofText_absolute_closed hrne hr hw) rfl
  intro concrete
  have happ : (Pattern.stem (steps r ++ ['/'])).applies (.ofText (steps c)) isDirectory concrete =
      true ↔ steps r ++ ['/'] <+: steps c ∨ isDirectory = true ∧ steps c = steps r := by
    simp [Pattern.applies, Pattern.withoutSlash, Candidate.ofText]
  rw [happ, steps_prefix_iff hc hr, steps_injective hc hr, exists_rest_iff, List.append_nil]

theorem says_relative : Says (join ['/'] r) (steps c) isDirectory (r <:+ c) := by
  have hends : (Candidate.ofText (steps c)).endsWith (steps r) = true ↔ r <:+ c := by
    rw [Candidate.endsWith_iff]
    exact steps_suffix_iff hc hr hrne
  have hp := Pattern.ofText_relative hrne hr hw
  split at hp
  · exact says_of_ofText hp rfl fun _ => hends
  · exact says_of_ofText hp rfl fun _ => hends

theorem says_relative_closed : Says (join ['/'] r ++ ['/']) (steps c) isDirectory
    (∃ a b, c = a ++ r ++ b ∧ (b ≠ [] ∨ isDirectory = true)) := by
  apply says_of_ofText (Pattern.ofText_relative_closed hrne hr hw) rfl
  intro concrete
  have happ : (Pattern.relativeStem (steps r ++ ['/'])).applies (.ofText (steps c)) isDirectory
      concrete = true ↔
        steps r ++ ['/'] <:+: steps c ∨ isDirectory = true ∧ steps r <:+ steps c := by
    simp [Pattern.applies, Pattern.withoutSlash, Candidate.endsWith_iff, Text.isWithin_iff,
      Candidate.ofText, or_comm]
  have hsuffix : r <:+ c ↔ ∃ a, c = a ++ r := exists_congr fun a => eq_comm
  rw [happ, steps_infix_iff hc hr hrne, steps_suffix_iff hc hr hrne, hsuffix]
  simp only [exists_rest_iff, exists_or, exists_and_left, List.append_nil]

end Names

/-- A rule of literal names from the root excludes the path of these names alone; if it ends with a
separator, it excludes what is below that path. A single name excludes the paths that end with it, as
several names do, and with a separator at the end what is below such a path. A directory that the
rule itself names is excluded by one that ends with a separator if the path is known to be one. For
none of them does it matter whether the path is a concrete file. -/
theorem literal_names_aligned (hcne : c ≠ []) (hrne : r ≠ []) (hc : ∀ n ∈ c, IsComponent n)
    (hr : ∀ n ∈ r, IsComponent n) (hw : ∀ n ∈ r, Wildcard.occursIn n = false)
    (isDirectory : Bool) :
    Says ('/' :: join ['/'] r) ('/' :: join ['/'] c) isDirectory (c = r) ∧
    Says ('/' :: join ['/'] r ++ ['/']) ('/' :: join ['/'] c) isDirectory
      (∃ b, c = r ++ b ∧ (b ≠ [] ∨ isDirectory = true)) ∧
    (∀ n, r = [n] → Says n ('/' :: join ['/'] c) isDirectory (c.getLast? = some n)) ∧
    Says (join ['/'] r) ('/' :: join ['/'] c) isDirectory (r <:+ c) ∧
    Says (join ['/'] r ++ ['/']) ('/' :: join ['/'] c) isDirectory
      (∃ a b, c = a ++ r ++ b ∧ (b ≠ [] ∨ isDirectory = true)) := by
  rw [slash_join hcne, slash_join hrne]
  have hrelative := says_relative hrne hc hr hw isDirectory
  refine ⟨says_absolute hrne hc hr hw isDirectory, says_absolute_closed hrne hc hr hw isDirectory,
    ?_, hrelative, says_relative_closed hrne hc hr hw isDirectory⟩
  rintro n rfl
  rwa [join, List.singleton_suffix_iff_getLast?_eq_some] at hrelative

/-- The names of a library in a home directory. -/
def libraryNames : List Text := ["home".toList, "lib".toList, "x.so".toList]

/-- A rule of a name on the way excludes the library only if it ends with a separator. -/
theorem library_below_name :
    (libraryNames ≠ [] ∧ ["lib".toList] ≠ [] ∧ (∀ n ∈ libraryNames, IsComponent n) ∧
      (∀ n ∈ ["lib".toList], IsComponent n) ∧
      ∀ n ∈ ["lib".toList], Wildcard.occursIn n = false) ∧
    (∃ rule, Rule.parse "lib/".toList = .ok rule ∧
      ∀ concrete, rule.applies "/home/lib/x.so".toList false concrete = true) ∧
    ∃ rule, Rule.parse "lib".toList = .ok rule ∧
      ∀ concrete, rule.applies "/home/lib/x.so".toList false concrete = false := by
  have hc : ∀ n ∈ libraryNames, IsComponent n := by simp [libraryNames, IsComponent]
  have hr : ∀ n ∈ ["lib".toList], IsComponent n := by simp [IsComponent]
  have hw : ∀ n ∈ ["lib".toList], Wildcard.occursIn n = false := by decide
  obtain ⟨-, -, hname, -, hbelow⟩ :=
    literal_names_aligned (c := libraryNames) (by decide) (by decide) hc hr hw false
  refine ⟨⟨by decide, by decide, hc, hr, hw⟩, ?_, ?_⟩
  · obtain ⟨rule, hparse, happ⟩ := hbelow
    refine ⟨rule, hparse, fun concrete => (happ concrete).2 ?_⟩
    exact ⟨["home".toList], ["x.so".toList], rfl, .inl (by decide)⟩
  · obtain ⟨rule, hparse, happ⟩ := hname _ rfl
    refine ⟨rule, hparse, fun concrete => Bool.eq_false_iff.2 fun h => ?_⟩
    exact absurd ((happ concrete).1 h) (by decide)

end Rule

end Sweep
