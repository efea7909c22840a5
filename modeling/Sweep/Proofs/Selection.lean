import Sweep.Proofs.Roots
/-!
# What a plan selects

A plan is made from a policy and a list of mounts. We say in closed form which stems it knows, which
mounts become roots and which are barred, and when asking it for the first time hands nothing out.
Mounts are judged one after the other by the stems known so far, but handed out by all of them, so
the order of the mounts decides whether a plan is empty.
-/

namespace Sweep

/-! ## Adding mounts -/

namespace Mount

/-- The stems of the special mounts. -/
def specialStems (ms : List Mount) : List Text := (ms.filter (·.is .special)).map stem

@[simp] theorem specialStems_nil : specialStems [] = [] := rfl

theorem specialStems_append (ms ns : List Mount) :
    specialStems (ms ++ ns) = specialStems ms ++ specialStems ns := by
  simp [specialStems]

theorem specialStems_cons (m : Mount) (ms : List Mount) :
    specialStems (m :: ms) = specialStems [m] ++ specialStems ms :=
  specialStems_append [m] ms

/-- Whether the mount is passed over, or not judged by its kind at all. -/
def isPassed (stems : List Text) (m : Mount) : Bool :=
  m.is .special || stems.any (·.isPrefixOf m.stem)

/-- Whether the mount becomes a root. -/
def isTaken (policy : Policy) (stems : List Text) (m : Mount) : Bool :=
  !m.isPassed stems && m.isRequested policy

theorem isTaken_iff {policy : Policy} {stems : List Text} {m : Mount} :
    m.isTaken policy stems = true ↔
      m.is .special = false ∧ m.isRequested policy = true ∧ ∀ stem ∈ stems, ¬ stem <+: m.stem := by
  simp only [isTaken, isPassed, Bool.not_or, Bool.and_eq_true, Bool.not_eq_true', List.any_eq_false,
    List.isPrefixOf_iff_prefix]
  rw [and_right_comm, and_assoc]

/-- Whether the mount is barred. -/
def isBarred (policy : Policy) (stems : List Text) (m : Mount) : Bool :=
  !m.isPassed stems && !m.isRequested policy && policy.requestsDevices

/-- The mounts that pass a test, which also sees the stems that are known when a mount comes. -/
def thatPass (test : List Text → Mount → Bool) : List Text → List Mount → List Mount
  | _, [] => []
  | stems, m :: ms =>
    (if test stems m then [m] else []) ++ thatPass test (stems ++ specialStems [m]) ms

/-- The locations of some mounts. -/
def locations (ms : List Mount) : List Location := ms.map (·.point.location)

end Mount

namespace Plan

open Mount

theorem addMount_eq (policy : Policy) (plan : Plan) (m : Mount) :
    (plan.addMount policy m).1 =
      { plan with
        stemExclusions := plan.stemExclusions ++ specialStems [m]
        pendingMounts := plan.pendingMounts ++
          locations (if isTaken policy plan.stemExclusions m then [m] else [])
        barredMounts := plan.barredMounts ++
          locations (if isBarred policy plan.stemExclusions m then [m] else []) } := by
  unfold addMount
  dsimp only
  split
  · next h => simp [specialStems, h, isTaken, isBarred, isPassed, locations]
  · next h =>
    split
    · next hs => simp [specialStems, h, isTaken, isBarred, isPassed, hs, locations]
    · next hs =>
      split
      · next hr => simp [specialStems, h, isTaken, isBarred, isPassed, hs, hr, locations]
      · next hr =>
        split
        · next hd => simp [specialStems, h, isTaken, isBarred, isPassed, hs, hr, hd, locations]
        · next hd => simp [specialStems, h, isTaken, isBarred, isPassed, hs, hr, hd, locations]

theorem addMounts_eq (policy : Policy) (plan : Plan) (ms : List Mount) :
    (plan.addMounts policy ms).1 =
      { plan with
        stemExclusions := plan.stemExclusions ++ specialStems ms
        pendingMounts := plan.pendingMounts ++
          locations (thatPass (isTaken policy) plan.stemExclusions ms)
        barredMounts := plan.barredMounts ++
          locations (thatPass (isBarred policy) plan.stemExclusions ms) } := by
  induction ms generalizing plan with
  | nil => simp [addMounts, thatPass, locations]
  | cons m ms ih =>
    rw [specialStems_cons]
    simp only [addMounts, ih, addMount_eq, thatPass, locations, List.map_append, List.append_assoc]

/-! ## The plan of a policy -/

variable (policy : Policy) (mounts : List Mount)

/-- The stems of the policy alone. -/
def policyStems : List Text := policy.excludes.filterMap stemOf?

/-- The mounts that are roots of the plan, unless a stem covers them. -/
def takenMounts : List Mount := thatPass (isTaken policy) (policyStems policy) mounts

/-- The include paths that count. -/
def absoluteIncludes : List Location := (policy.includes.filter Path.isAbsolute).map Path.location

theorem stemExclusions_ofPolicy :
    (ofPolicy policy mounts).stemExclusions = policyStems policy ++ specialStems mounts := by
  simp only [ofPolicy, make, addMounts_eq, orEverything, ofPaths, policyStems]
  split <;> rfl

theorem pendingMounts_ofPolicy :
    (ofPolicy policy mounts).pendingMounts = locations (takenMounts policy mounts) := by
  simp only [ofPolicy, make, addMounts_eq, orEverything, ofPaths, takenMounts, policyStems]
  split <;> simp

theorem pendingIncludes_ofPolicy :
    (ofPolicy policy mounts).pendingIncludes =
      if absoluteIncludes policy = [] ∧ takenMounts policy mounts = [] then [Path.root.location]
      else absoluteIncludes policy := by
  simp only [ofPolicy, make, addMounts_eq, orEverything, ofPaths, takenMounts, policyStems,
    absoluteIncludes, locations]
  split <;> simp_all

theorem exactExclusions_ofPolicy :
    (ofPolicy policy mounts).exactExclusions = policy.excludes.filterMap exactOf? := by
  simp only [ofPolicy, make, addMounts_eq, orEverything, ofPaths]
  split <;> rfl

@[simp] theorem handedOut_ofPolicy : (ofPolicy policy mounts).handedOut = [] := by
  simp only [ofPolicy, make, addMounts_eq, orEverything, ofPaths]
  split <;> rfl

@[simp] theorem current_ofPolicy : (ofPolicy policy mounts).current = none := by
  simp only [ofPolicy, make, addMounts_eq, orEverything, ofPaths]
  split <;> rfl

/-! ## The first root -/

theorem mem_thatPass_iff {test : List Text → Mount → Bool} {stems : List Text} {ms : List Mount}
    {m : Mount} : m ∈ thatPass test stems ms ↔ ∃ before after,
      ms = before ++ m :: after ∧ test (stems ++ specialStems before) m = true := by
  induction ms generalizing stems with
  | nil => simp [thatPass]
  | cons k ms ih =>
    rw [thatPass, List.mem_append, ih]
    constructor
    · rintro (h | ⟨before, after, rfl, ht⟩)
      · split at h
        · next ht =>
          obtain rfl := List.mem_singleton.1 h
          exact ⟨[], ms, rfl, by simpa [specialStems] using ht⟩
        · cases h
      · exact ⟨k :: before, after, rfl, by rwa [specialStems_cons, ← List.append_assoc]⟩
    · rintro ⟨before, after, he, ht⟩
      cases before with
      | nil =>
        obtain ⟨rfl, rfl⟩ := List.cons.inj he
        rw [specialStems_nil, List.append_nil] at ht
        exact .inl (by simp [ht])
      | cons b before =>
        obtain ⟨rfl, rfl⟩ := List.cons.inj he
        rw [specialStems_cons, ← List.append_assoc] at ht
        exact .inr ⟨before, after, rfl, ht⟩

theorem stemCovers_iff {stem path : Text} : stemCovers stem path true = true ↔
    stem <+: path ∨ stem = path ++ ['/'] := by
  simp [stemCovers, isStemOf_iff]

/-- A stem that does not begin the mount's own may still cover the mount point, if that ends with a
separator. -/
theorem stemCovers_point {m : Mount} {t : Text} (h : ¬ t <+: m.stem)
    (hc : stemCovers t m.point.normal.text true = true) :
    m.stem = m.point.normal.text ∧ t = m.stem ++ ['/'] := by
  rcases stemCovers_iff.1 hc with hp | rfl
  · rcases m.stem_cases with hs | hs
    · rw [hs] at h
      exact absurd hp h
    · rw [hs] at h
      exact absurd (hp.trans (List.prefix_append _ _)) h
  · rcases m.stem_cases with hs | hs
    · exact ⟨hs, by rw [hs]⟩
    · rw [hs] at h
      exact absurd (List.prefix_refl _) h

/-- Why a mount that was taken is not handed out: a special mount that comes later covers it, or it
is the root and there is a stem of two separators. -/
def IsLost (m : Mount) (known : List Text) (after : List Mount) : Prop :=
  (∃ t ∈ specialStems after, stemCovers t m.point.normal.text true = true) ∨
    m.stem = m.point.normal.text ∧ m.stem ++ ['/'] ∈ known

variable {policy mounts}

theorem isSuppressed_iff {before after : List Mount} {m : Mount}
    (h : isTaken policy (policyStems policy ++ specialStems before) m = true) :
    (ofPolicy policy (before ++ m :: after)).isSuppressed m.point.location = true ↔
      IsLost m (policyStems policy ++ specialStems before) after := by
  obtain ⟨hns, -, hst⟩ := isTaken_iff.1 h
  have hm : specialStems [m] = [] := by simp [specialStems, hns]
  have hall : specialStems (before ++ m :: after) = specialStems before ++ specialStems after := by
    rw [specialStems_append, specialStems_cons, hm, List.nil_append]
  rw [isSuppressed, stemExclusions_ofPolicy, hall, ← List.append_assoc, List.any_append,
    Bool.or_eq_true, or_comm, List.any_eq_true, List.any_eq_true, IsLost]
  refine or_congr_right ⟨?_, ?_⟩
  · rintro ⟨t, ht, hc⟩
    obtain ⟨hs, rfl⟩ := stemCovers_point (hst t ht) hc
    exact ⟨hs, ht⟩
  · rintro ⟨hs, ht⟩
    exact ⟨_, ht, stemCovers_iff.2 (.inr (by rw [hs]; rfl))⟩

variable (policy mounts)

/-- All pending mounts of a new plan are passed over exactly when each mount that was taken is lost
later. -/
theorem all_passed_iff :
    (∀ l ∈ (ofPolicy policy mounts).pendingMounts,
      (ofPolicy policy mounts).passesOver l = true) ↔
    ∀ before m after, mounts = before ++ m :: after →
      isTaken policy (policyStems policy ++ specialStems before) m = true →
      IsLost m (policyStems policy ++ specialStems before) after := by
  simp only [pendingMounts_ofPolicy, locations, List.forall_mem_map, passesOver_iff,
    handedOut_ofPolicy, List.not_mem_nil, or_false, takenMounts]
  constructor
  · rintro h before m after rfl ht
    exact (isSuppressed_iff ht).1 (h m (mem_thatPass_iff.2 ⟨before, after, rfl, ht⟩))
  · intro h m hm
    obtain ⟨before, after, rfl, ht⟩ := mem_thatPass_iff.1 hm
    exact (isSuppressed_iff ht).2 (h before m after rfl ht)

theorem no_includes_iff :
    (∀ l ∈ (ofPolicy policy mounts).pendingIncludes, l ∈ (ofPolicy policy mounts).handedOut) ↔
      absoluteIncludes policy = [] ∧ takenMounts policy mounts ≠ [] := by
  have hnil : (∀ l ∈ (ofPolicy policy mounts).pendingIncludes,
      l ∈ (ofPolicy policy mounts).handedOut) ↔ (ofPolicy policy mounts).pendingIncludes = [] := by
    rw [handedOut_ofPolicy, List.eq_nil_iff_forall_not_mem]
    simp only [List.not_mem_nil, imp_false]
  rw [hnil, pendingIncludes_ofPolicy]
  split
  · next h => simp [h]
  · next h => exact ⟨fun he => ⟨he, fun ht => h ⟨he, ht⟩⟩, fun he => he.1⟩

theorem next_of_nothing_selected (hi : absoluteIncludes policy = [])
    (ht : takenMounts policy mounts = []) :
    (ofPolicy policy mounts).next.1 = some ⟨Path.root, .explicit⟩ := by
  have hm := pendingMounts_ofPolicy policy mounts
  have hp := pendingIncludes_ofPolicy policy mounts
  rw [ht, locations, List.map_nil] at hm
  rw [if_pos ⟨hi, ht⟩] at hp
  simp only [next, hm, hp, List.dropWhile_nil, List.dropWhile_cons, wasHandedOut,
    handedOut_ofPolicy]
  rfl

/-- A new plan falls back to the root of the file tree if nothing is selected. It hands nothing out
exactly when no include path counts, some mounts were taken, and each of them is lost later. -/
theorem first_root_eq_none_iff :
    (absoluteIncludes policy = [] → takenMounts policy mounts = [] →
      (ofPolicy policy mounts).next.1 = some ⟨Path.root, .explicit⟩) ∧
    ((ofPolicy policy mounts).next.1 = none ↔
      (absoluteIncludes policy = [] ∧ takenMounts policy mounts ≠ []) ∧
        ∀ before m after, mounts = before ++ m :: after →
          isTaken policy (policyStems policy ++ specialStems before) m = true →
          IsLost m (policyStems policy ++ specialStems before) after) := by
  refine ⟨next_of_nothing_selected policy mounts, ?_⟩
  rw [next_eq_none, all_passed_iff, no_includes_iff, and_comm]

/-- An include path that does not count, rules, and removable devices. -/
def nothingThere : Policy where
  includes := [.ofText "home/me".toList]
  excludes := ["/run/".toList, "*.log".toList]
  removableDevices := true

/-- A disc that is not asked for, a device below an exclusion, and a special mount. -/
def droppedMounts : List Mount :=
  [.hardDisc (.ofText "/data".toList), .removable (.ofText "/run/media/usb".toList),
    .special (.ofText "/proc".toList) "proc".toList]

/-- If all that a policy asks for is dropped, the root of the file tree is scanned. -/
theorem nothing_selected :
    absoluteIncludes nothingThere = [] ∧ takenMounts nothingThere droppedMounts = [] ∧
    (ofPolicy nothingThere droppedMounts).next.1 = some ⟨Path.root, .explicit⟩ := by
  have hi : absoluteIncludes nothingThere = [] := by decide +kernel
  have ht : takenMounts nothingThere droppedMounts = [] := by decide +kernel
  exact ⟨hi, ht, (first_root_eq_none_iff nothingThere droppedMounts).1 hi ht⟩

/-- A removable device below a mount point that is special. -/
def lostDevice : List Mount :=
  [.removable (.ofText "/run/media/usb".toList), .special (.ofText "/run".toList) "tmpfs".toList]

/-- The device is lost if the special mount comes later, and no root is left. In the other order
the plan falls back to the root of the file tree. -/
theorem lost_device_leaves_nothing :
    (ofPolicy { removableDevices := true } lostDevice).next.1 = none ∧
    (ofPolicy { removableDevices := true } lostDevice.reverse).next.1 =
      some ⟨Path.root, .explicit⟩ := by
  decide +kernel

end Plan

end Sweep
