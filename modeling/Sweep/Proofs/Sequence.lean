import Sweep.Proofs.Reachable
/-!
# The sequence of roots

A new plan hands out mounts in their order and then include paths in theirs, each location once, and
after that nothing any more. We say which they are by the policy and the list of mounts alone: a
mount is judged by the stems of all special mounts, while the root of the file tree comes in if each
mount was dropped by the stems that stand before it.
-/

namespace Sweep.Plan

open Mount

variable {policy : Policy} {mounts : List Mount} {plan plan' : Plan} {l : Location}

/-! ## What is left to hand out -/

/-- The mounts that a plan will still hand out. -/
def mountsLeft (plan : Plan) : List Location :=
  (plan.pendingMounts.filter (!plan.passesOver ·)).eraseDups

/-- The include paths that a plan will still hand out. -/
def includesLeft (plan : Plan) : List Location :=
  (plan.pendingIncludes.filter fun l =>
    !plan.wasHandedOut l && !plan.mountsLeft.contains l).eraseDups

theorem filter_dropWhile_not {α : Type} (f : α → Bool) (l : List α) :
    (l.dropWhile f).filter (!f ·) = l.filter (!f ·) := by
  induction l with
  | nil => rfl
  | cons a l ih =>
    cases h : f a with
    | true => rw [List.dropWhile_cons_of_pos h, ih, List.filter_cons_of_neg (by simp [h])]
    | false => rw [List.dropWhile_cons_of_neg (by simp [h])]

theorem filter_not_of_dropWhile {α : Type} {f : α → Bool} {l rest : List α} {a : α}
    (h : l.dropWhile f = a :: rest) : l.filter (!f ·) = a :: rest.filter (!f ·) := by
  rw [← filter_dropWhile_not, h, List.filter_cons_of_pos (by simp [head_dropWhile h])]

theorem filter_not_of_dropWhile_nil {α : Type} {f : α → Bool} {l : List α}
    (h : l.dropWhile f = []) : l.filter (!f ·) = [] := by
  rw [← filter_dropWhile_not, h, List.filter_nil]

theorem mountsLeft_eq_nil (h : plan.pendingMounts.dropWhile plan.passesOver = []) :
    plan.mountsLeft = [] := by
  rw [mountsLeft, filter_not_of_dropWhile_nil h]
  rfl

theorem includesLeft_of_no_mount (h : plan.mountsLeft = []) : plan.includesLeft =
    (plan.pendingIncludes.filter (!plan.wasHandedOut ·)).eraseDups := by
  rw [includesLeft, h]
  simp only [List.contains_nil, Bool.not_false, Bool.and_true]

theorem wasHandedOut_enter (plan : Plan) (root : Root) (l : Location) :
    (plan.enter root).wasHandedOut l = (plan.wasHandedOut l || l == root.path.location) := by
  rw [Bool.eq_iff_iff]
  simp [enter, wasHandedOut]

theorem passesOver_enter (plan : Plan) (root : Root) (l : Location) :
    (plan.enter root).passesOver l = (plan.passesOver l || l == root.path.location) := by
  rw [passesOver, wasHandedOut_enter, passesOver, Bool.or_assoc]
  rfl

/-- Handing out a mount takes it from the mounts that are left, and nothing else. -/
theorem left_of_mount {point : Location} {rest : List Location}
    (h : plan.pendingMounts.dropWhile plan.passesOver = point :: rest)
    (hp : { plan with pendingMounts := rest }.enter ⟨point.path, .mount⟩ = plan') :
    plan.mountsLeft = point :: plan'.mountsLeft ∧ plan.includesLeft = plan'.includesLeft := by
  subst hp
  have hpoint : point.path.location = point := point.location_path
  have hm : plan.mountsLeft = point ::
      ({ plan with pendingMounts := rest }.enter ⟨point.path, .mount⟩).mountsLeft := by
    rw [mountsLeft, filter_not_of_dropWhile h, List.eraseDups_cons, List.filter_filter, mountsLeft]
    simp only [passesOver_enter, hpoint, Bool.not_or, Bool.and_comm]
    rfl
  refine ⟨hm, ?_⟩
  rw [includesLeft, includesLeft, hm]
  simp only [wasHandedOut_enter, hpoint, List.contains_cons, Bool.not_or, Bool.and_assoc]
  rfl

/-- If no mount is left, handing out an include path takes it from those that are left. -/
theorem left_of_include {start : Location} {rest : List Location}
    (hm : plan.pendingMounts.dropWhile plan.passesOver = [])
    (h : plan.pendingIncludes.dropWhile plan.wasHandedOut = start :: rest)
    (hp : { plan with pendingMounts := [], pendingIncludes := rest }.enter
      ⟨start.path, .explicit⟩ = plan') :
    plan.mountsLeft = [] ∧ plan'.mountsLeft = [] ∧
      plan.includesLeft = start :: plan'.includesLeft := by
  subst hp
  have hstart : start.path.location = start := start.location_path
  have hnone := mountsLeft_eq_nil hm
  refine ⟨hnone, rfl, ?_⟩
  rw [includesLeft_of_no_mount hnone, includesLeft_of_no_mount rfl, filter_not_of_dropWhile h,
    List.eraseDups_cons, List.filter_filter]
  simp only [wasHandedOut_enter, hstart, Bool.not_or, Bool.and_comm]
  rfl

theorem left_of_none (h : plan.next = (none, plan')) :
    plan.mountsLeft = [] ∧ plan.includesLeft = [] := by
  obtain ⟨hm, hi⟩ := next_eq_none.1 (congrArg Prod.fst h)
  have hnone := mountsLeft_eq_nil (dropWhile_eq_nil.2 hm)
  refine ⟨hnone, ?_⟩
  rw [includesLeft_of_no_mount hnone, List.filter_eq_nil_iff.2]
  · rfl
  · intro l hl
    simp [wasHandedOut, hi l hl]

/-- The roots of a plan are the mounts that are left and then the include paths that are left. -/
theorem roots_eq_left (plan : Plan) : plan.roots =
    plan.mountsLeft.map (fun l => ⟨l.path, .mount⟩) ++
      plan.includesLeft.map (fun l => ⟨l.path, .explicit⟩) := by
  induction plan using run_induction with
  | handed plan root plan' hn ih =>
    rw [roots_of_some hn, ih]
    unfold next at hn
    split at hn
    · next point rest hm =>
      simp only [Prod.mk.injEq, Option.some.injEq] at hn
      obtain ⟨rfl, hp⟩ := hn
      obtain ⟨hmounts, hincludes⟩ := left_of_mount hm hp
      rw [hmounts, hincludes]
      rfl
    · next hm =>
      split at hn
      · next start rest hi =>
        simp only [Prod.mk.injEq, Option.some.injEq] at hn
        obtain ⟨rfl, hp⟩ := hn
        obtain ⟨hnone, hnone', hincludes⟩ := left_of_include hm hi hp
        rw [hnone, hnone', hincludes]
        rfl
      · cases hn
  | finished plan plan' hn =>
    obtain ⟨hmounts, hincludes⟩ := left_of_none hn
    rw [roots_of_none hn, hmounts, hincludes]
    rfl

/-! ## One call after the other -/

/-- The plan after a number of calls of `next`. -/
def afterCalls (plan : Plan) : Nat → Plan
  | 0 => plan
  | n + 1 => (plan.afterCalls n).next.2

theorem head?_roots (plan : Plan) : plan.roots.head? = plan.next.1 := by
  rcases h : plan.next with ⟨_ | root, plan'⟩
  · rw [roots_of_none h]
    rfl
  · rw [roots_of_some h]
    rfl

theorem roots_next (plan : Plan) : plan.next.2.roots = plan.roots.tail := by
  rcases h : plan.next with ⟨_ | root, plan'⟩
  · have hp : plan'.pendingMounts = [] ∧ plan'.pendingIncludes = [] := by
      unfold next at h
      split at h
      · cases h
      · split at h
        · cases h
        · cases h
          exact ⟨rfl, rfl⟩
    rw [roots_of_none h, roots_eq_left, mountsLeft, includesLeft, hp.1, hp.2]
    rfl
  · rw [roots_of_some h]
    rfl

theorem current_next (plan : Plan) : plan.next.2.current = plan.next.1 := by
  rcases h : plan.next with ⟨_ | root, plan'⟩
  · exact next_none h
  · exact (next_some h).current

theorem roots_afterCalls (plan : Plan) (n : Nat) :
    (plan.afterCalls n).roots = plan.roots.drop n := by
  induction n with
  | zero => rfl
  | succ n ih => rw [afterCalls, roots_next, ih, List.tail_drop]

theorem next_afterCalls (plan : Plan) (n : Nat) : (plan.afterCalls n).next.1 = plan.roots[n]? := by
  rw [← head?_roots, roots_afterCalls, List.head?_drop]

theorem Reachable.afterCalls (policy : Policy) (mounts : List Mount) (n : Nat) :
    Reachable policy mounts ((ofPolicy policy mounts).afterCalls n) := by
  induction n with
  | zero => exact .made
  | succ n ih => exact ih.next

/-! ## The sequence in closed form -/

/-- Whether a stem begins the text of a directory, or is that text with a separator at its end. -/
def Covers (stem t : Text) : Prop := stem <+: t ∨ stem = t ++ ['/']

instance (stem t : Text) : Decidable (Covers stem t) :=
  inferInstanceAs (Decidable (stem <+: t ∨ stem = t ++ ['/']))

/-- The locations of the mounts that were asked for and that no stem covers, each once. -/
def mountRoots (policy : Policy) (mounts : List Mount) : List Location :=
  (locations (mounts.filter fun m => m.is .special = false ∧ m.isRequested policy = true ∧
    ∀ stem ∈ policyStems policy ++ specialStems mounts,
      ¬ Covers stem m.point.normal.text)).eraseDups

/-- The stem of every mount that was asked for begins with a stem of the policy, or of a special
mount that stands before it. -/
def AllDropped (policy : Policy) (mounts : List Mount) : Prop :=
  ∀ before m after, mounts = before ++ m :: after → m.is .special = false →
    m.isRequested policy = true →
      ∃ stem ∈ policyStems policy ++ specialStems before, stem <+: m.stem

theorem takenMounts_eq_nil_iff : takenMounts policy mounts = [] ↔ AllDropped policy mounts := by
  rw [List.eq_nil_iff_forall_not_mem]
  unfold takenMounts AllDropped
  constructor
  · intro h before m after he hs hr
    have hnot : ¬ m.isTaken policy (policyStems policy ++ specialStems before) = true :=
      fun ht => h m (mem_thatPass_iff.2 ⟨before, after, he, ht⟩)
    simpa [isTaken_iff, hs, hr] using hnot
  · intro h m hm
    obtain ⟨before, after, he, ht⟩ := mem_thatPass_iff.1 hm
    obtain ⟨hs, hr, hno⟩ := isTaken_iff.1 ht
    obtain ⟨stem, hstem, hpre⟩ := h before m after he hs hr
    exact hno stem hstem hpre

instance (policy : Policy) (mounts : List Mount) : Decidable (AllDropped policy mounts) :=
  decidable_of_iff (takenMounts policy mounts = []) takenMounts_eq_nil_iff

/-- The locations of the include paths that are no roots as mounts, each once. The root of the file
tree stands in for them if there are none and every mount was dropped. -/
def includeRoots (policy : Policy) (mounts : List Mount) : List Location :=
  if absoluteIncludes policy = [] ∧ AllDropped policy mounts then [Path.root.location]
  else ((absoluteIncludes policy).filter (· ∉ mountRoots policy mounts)).eraseDups

/-- The roots of a scan in their order. -/
def rootSequence (policy : Policy) (mounts : List Mount) : List Root :=
  (mountRoots policy mounts).map (fun l => ⟨l.path, .mount⟩) ++
    (includeRoots policy mounts).map (fun l => ⟨l.path, .explicit⟩)

theorem covers_point {stem : Text} {m : Mount} (h : stem <+: m.stem) :
    Covers stem m.point.normal.text := by
  rcases m.stem_cases with hs | hs
  · rw [hs] at h
    exact .inl h
  · rw [hs, List.prefix_concat_iff] at h
    exact h.symm

/-- What a second test leaves of the mounts that passed the first is what a third one leaves of all,
if this holds of each mount where it stands. -/
theorem filter_thatPass {test : List Text → Mount → Bool} {second third : Mount → Bool}
    {stems : List Text} {ms : List Mount} (h : ∀ before m after, ms = before ++ m :: after →
      (test (stems ++ specialStems before) m && second m) = third m) :
    (thatPass test stems ms).filter second = ms.filter third := by
  induction ms generalizing stems with
  | nil => rfl
  | cons m ms ih =>
    have hm := h [] m ms rfl
    rw [specialStems_nil, List.append_nil] at hm
    have hms : (thatPass test (stems ++ specialStems [m]) ms).filter second = ms.filter third := by
      apply ih
      intro before k after he
      rw [List.append_assoc, ← specialStems_cons]
      exact h (m :: before) k after (by rw [he]; rfl)
    rw [thatPass, List.filter_append, hms]
    cases ht : test stems m <;> cases hs : second m <;> simp_all

theorem passesOver_ofPolicy_eq_false_iff : (ofPolicy policy mounts).passesOver l = false ↔
    ∀ stem ∈ policyStems policy ++ specialStems mounts, ¬ Covers stem l.path.text := by
  rw [Bool.eq_false_iff, Ne, passesOver_iff, handedOut_ofPolicy, isSuppressed,
    stemExclusions_ofPolicy, List.any_eq_true]
  simp only [stemCovers_iff, List.not_mem_nil, or_false, Covers, not_exists, not_and]

/-- A new plan will hand out the mounts that were asked for and that no stem covers. -/
theorem mountsLeft_ofPolicy (policy : Policy) (mounts : List Mount) :
    (ofPolicy policy mounts).mountsLeft = mountRoots policy mounts := by
  unfold mountsLeft mountRoots
  rw [pendingMounts_ofPolicy, locations, List.filter_map, locations, takenMounts]
  congr 2
  apply filter_thatPass
  intro before m after he
  have hknown : policyStems policy ++ specialStems before ⊆
      policyStems policy ++ specialStems mounts := by
    rw [he, specialStems_append, ← List.append_assoc]
    exact List.subset_append_left _ _
  rw [Bool.eq_iff_iff, Bool.and_eq_true, isTaken_iff, Function.comp_apply, Bool.not_eq_true',
    passesOver_ofPolicy_eq_false_iff, decide_eq_true_iff, Path.path_location]
  constructor
  · rintro ⟨⟨hs, hr, -⟩, hno⟩
    exact ⟨hs, hr, hno⟩
  · rintro ⟨hs, hr, hno⟩
    -- A stem that drops the mount at its place covers it later, too.
    have hkept : ∀ stem ∈ policyStems policy ++ specialStems before, ¬ stem <+: m.stem := by
      intro stem hstem hpre
      exact hno stem (hknown hstem) (covers_point hpre)
    exact ⟨⟨hs, hr, hkept⟩, hno⟩

theorem mountRoots_eq_nil (h : AllDropped policy mounts) : mountRoots policy mounts = [] := by
  rw [← mountsLeft_ofPolicy, mountsLeft, pendingMounts_ofPolicy, takenMounts_eq_nil_iff.2 h]
  rfl

theorem includesLeft_ofPolicy (policy : Policy) (mounts : List Mount) :
    (ofPolicy policy mounts).includesLeft = includeRoots policy mounts := by
  unfold includesLeft includeRoots
  rw [pendingIncludes_ofPolicy, mountsLeft_ofPolicy]
  simp only [takenMounts_eq_nil_iff, wasHandedOut, handedOut_ofPolicy, List.contains_nil,
    Bool.not_false, Bool.true_and]
  split
  · next h =>
    rw [mountRoots_eq_nil h.2]
    rfl
  · simp only [List.contains_eq_mem, decide_not]

theorem roots_ofPolicy (policy : Policy) (mounts : List Mount) :
    (ofPolicy policy mounts).roots = rootSequence policy mounts := by
  rw [roots_eq_left, mountsLeft_ofPolicy, includesLeft_ofPolicy, rootSequence]

/-- Call after call, a new plan hands out the mounts that were asked for and that no stem covers,
then the include paths or the root of the file tree in their place, and then nothing any more. What
was handed out is the current root, and its stems are at any time those of the policy and of all
special mounts. -/
theorem rootSequence_drained (policy : Policy) (mounts : List Mount) (n : Nat) :
    ((ofPolicy policy mounts).afterCalls n).stemExclusions =
        policyStems policy ++ specialStems mounts ∧
      ((ofPolicy policy mounts).afterCalls n).next.1 = (rootSequence policy mounts)[n]? ∧
      ((ofPolicy policy mounts).afterCalls (n + 1)).current = (rootSequence policy mounts)[n]? := by
  have hnext : ((ofPolicy policy mounts).afterCalls n).next.1 =
      (rootSequence policy mounts)[n]? := by
    rw [next_afterCalls, roots_ofPolicy]
  refine ⟨(Reachable.afterCalls policy mounts n).stemExclusions, hnext, ?_⟩
  rw [afterCalls, current_next, hnext]

/-- The share is a root once, although it is an include path, too. The device is covered by a mount
that comes later, and is a root only as an include path. -/
example : rootSequence
      { includes := [.ofText "/srv".toList, .ofText "/run/a".toList, .ofText "/srv/".toList],
        networkShares := true, removableDevices := true }
      [.removable (.ofText "/run/a".toList), .network (.ofText "/srv".toList),
        .special (.ofText "/run".toList) "tmpfs".toList] =
    [⟨.ofText "/srv".toList, .mount⟩, ⟨.ofText "/run/a".toList, .explicit⟩] := by
  decide +kernel

end Sweep.Plan
