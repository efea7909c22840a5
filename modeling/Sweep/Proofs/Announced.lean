import Sweep.Proofs.Origins
/-!
# What is told about roots

While a plan is made, each path that is to be a root is told as included. Every root that is handed
out later was told so. Not all that was told is handed out: a mount that was taken is dropped, and
nothing more is told of it, if the stem of a special mount that comes later covers it. We say
exactly which paths these are.
-/

namespace Sweep

/-- The path that a decision includes. -/
def Decision.included? : Decision → Option Path
  | .includeDirectory p | .includeMount p => some p
  | _ => none

/-- The paths that some notices tell as included. -/
def Notice.included (ns : List Notice) : List Path :=
  (Notice.decisions ns).filterMap Decision.included?

namespace Notice

theorem decisions_append (ms ns : List Notice) :
    decisions (ms ++ ns) = decisions ms ++ decisions ns := by
  fun_induction decisions ms <;> simp_all [decisions]

theorem included_append (ms ns : List Notice) :
    included (ms ++ ns) = included ms ++ included ns := by
  simp [included, decisions_append]

theorem included_flatMap_eq_nil {α : Type} {f : α → List Notice} (h : ∀ a, included (f a) = [])
    (l : List α) : included (l.flatMap f) = [] := by
  induction l with
  | nil => rfl
  | cons a l ih => rw [List.flatMap_cons, included_append, h, ih, List.append_nil]

end Notice

namespace Plan

open Mount Notice

/-- The paths that are told as included while the plan of a policy is made. -/
def announced (policy : Policy) (mounts : List Mount) : List Path :=
  included (make policy mounts).2

/-! ## One part of the notices after the other -/

theorem included_includeNotices (ps : List Path) :
    included (ps.map includeNotice) = (ps.filter Path.isAbsolute).map Path.normal := by
  induction ps with
  | nil => rfl
  | cons p ps ih =>
    rw [List.map_cons, ← List.singleton_append, included_append, ih]
    by_cases hp : p.isAbsolute = true
    · simp [includeNotice, hp, included, decisions, Decision.included?]
    · simp [includeNotice, hp, included, decisions]

theorem included_exclusionNotices (t : Text) : included (exclusionNotices t) = [] := by
  unfold exclusionNotices
  split
  · rfl
  · split <;> rfl

theorem included_extensionNotices (token : Text) : included (extensionNotices token) = [] := by
  unfold extensionNotices
  dsimp only
  split <;> rfl

theorem included_notices (s : RuleSet) : included s.notices = [] := by
  unfold RuleSet.notices
  split <;> rfl

theorem included_addMount (policy : Policy) (plan : Plan) (m : Mount) :
    included (plan.addMount policy m).2 =
      if isTaken policy plan.stemExclusions m then [m.point.normal] else [] := by
  unfold addMount
  dsimp only
  split
  · next h => simp [isTaken, isPassed, h, included, decisions, Decision.included?]
  · next h =>
    split
    · next hs => simp [isTaken, isPassed, h, hs, included, decisions]
    · next hs =>
      split
      · next hr => simp [isTaken, isPassed, h, hs, hr, included, decisions, Decision.included?]
      · next hr =>
        split <;> simp [isTaken, isPassed, h, hs, hr, included, decisions, Decision.included?]

theorem included_addMounts (policy : Policy) (plan : Plan) (ms : List Mount) :
    included (plan.addMounts policy ms).2 =
      (thatPass (isTaken policy) plan.stemExclusions ms).map (·.point.normal) := by
  induction ms generalizing plan with
  | nil => rfl
  | cons m ms ih =>
    simp only [addMounts, included_append, included_addMount, ih, addMount_eq, thatPass,
      List.map_append]
    split <;> rfl

variable (policy : Policy) (mounts : List Mount)

theorem included_orEverything (plan : Plan) : included plan.orEverything.2 =
    if plan.pendingIncludes = [] ∧ plan.pendingMounts = [] then [Path.root] else [] := by
  simp only [orEverything, Bool.and_eq_true, List.isEmpty_iff]
  split <;> rfl

theorem announced_eq : announced policy mounts =
    (absoluteIncludes policy).map (·.path) ++ (takenMounts policy mounts).map (·.point.normal) ++
      if absoluteIncludes policy = [] ∧ takenMounts policy mounts = [] then [Path.root] else [] := by
  simp only [announced, make, included_append, included_includeNotices, included_notices,
    included_flatMap_eq_nil included_exclusionNotices,
    included_flatMap_eq_nil included_extensionNotices, included_addMounts, included_orEverything,
    addMounts_eq, ofPaths, List.append_nil]
  simp [absoluteIncludes, takenMounts, policyStems, locations, Function.comp_def]

/-- What is told as included is what is pending in the new plan. -/
theorem mem_announced_iff {p : Path} : p ∈ announced policy mounts ↔
    ∃ l, (l ∈ (ofPolicy policy mounts).pendingMounts ∨
      l ∈ (ofPolicy policy mounts).pendingIncludes) ∧ l.path = p := by
  rw [announced_eq, pendingMounts_ofPolicy, pendingIncludes_ofPolicy, locations]
  simp only [List.mem_append, List.mem_map]
  split
  · next h => simp [h, eq_comm, show Path.root.normal = Path.root by decide]
  · next h =>
    simp only [List.not_mem_nil, or_false, or_and_right, exists_or]
    rw [or_comm]
    refine or_congr_left ⟨?_, ?_⟩
    · rintro ⟨m, hm, rfl⟩
      exact ⟨_, ⟨m, hm, rfl⟩, rfl⟩
    · rintro ⟨_, ⟨m, hm, rfl⟩, rfl⟩
      exact ⟨m, hm, rfl⟩

variable {policy mounts}

theorem announced_of_root {root : Root} (h : root ∈ (ofPolicy policy mounts).roots) :
    root.path ∈ announced policy mounts :=
  (mem_announced_iff policy mounts).2
    ⟨root.path.location, root_pending h, normal_of_mem_roots h⟩

/-- A location that a stem covers is no root, unless it is pending as an include path. -/
theorem location_ne_of_isSuppressed {l : Location} {root : Root}
    (hs : (ofPolicy policy mounts).isSuppressed l = true)
    (hi : l ∉ (ofPolicy policy mounts).pendingIncludes)
    (hr : root ∈ (ofPolicy policy mounts).roots) : root.path.location ≠ l := by
  rintro rfl
  cases hk : root.isExplicit with
  | true => exact hi (pending_of_explicit hr hk)
  | false =>
    rw [isSuppressed, Path.path_location, normal_of_mem_roots hr, List.any_eq_true] at hs
    obtain ⟨stem, hstem, hc⟩ := hs
    exact not_covered_of_root hr hk hstem hc

/-- A mount that was taken is no root exactly if it is lost and no include path. -/
theorem not_root_of_taken_iff {before after : List Mount} {m : Mount}
    (ht : isTaken policy (policyStems policy ++ specialStems before) m = true) :
    (∀ root ∈ (ofPolicy policy (before ++ m :: after)).roots,
        root.path.location ≠ m.point.location) ↔
      IsLost m (policyStems policy ++ specialStems before) after ∧
        m.point.location ∉ absoluteIncludes policy := by
  have hmem : m ∈ takenMounts policy (before ++ m :: after) :=
    mem_thatPass_iff.2 ⟨before, after, rfl, ht⟩
  have hincludes : (ofPolicy policy (before ++ m :: after)).pendingIncludes =
      absoluteIncludes policy := by
    rw [pendingIncludes_ofPolicy, if_neg fun h => List.ne_nil_of_mem hmem h.2]
  rw [← isSuppressed_iff ht, ← hincludes]
  constructor
  · intro hn
    constructor
    · have hp : m.point.location ∈ (ofPolicy policy (before ++ m :: after)).pendingMounts := by
        rw [pendingMounts_ofPolicy]
        exact List.mem_map_of_mem hmem
      rcases mount_becomes_root hp with h | h | ⟨r, hr, he⟩
      · exact h
      · simp at h
      · exact absurd he (hn r hr)
    · intro hi
      obtain ⟨r, hr, he⟩ := (include_becomes_root hi).resolve_left (by simp)
      exact hn r hr he
  · rintro ⟨hs, hi⟩ r hr
    exact location_ne_of_isSuppressed hs hi hr

/-- Every root that is handed out was told as included. What was told so and is no root are the
mounts that were taken, are lost to a stem, and are no include paths. -/
theorem announced_not_root_iff (policy : Policy) (mounts : List Mount) :
    (∀ root ∈ (ofPolicy policy mounts).roots, root.path ∈ announced policy mounts) ∧
    ∀ p, (p ∈ announced policy mounts ∧
        ∀ root ∈ (ofPolicy policy mounts).roots, root.path ≠ p) ↔
      ∃ before m after, mounts = before ++ m :: after ∧ m.point.normal = p ∧
        isTaken policy (policyStems policy ++ specialStems before) m = true ∧
        IsLost m (policyStems policy ++ specialStems before) after ∧
        m.point.location ∉ absoluteIncludes policy := by
  refine ⟨fun root h => announced_of_root h, fun p => ?_⟩
  constructor
  · rintro ⟨h, hn⟩
    obtain ⟨l, hl, rfl⟩ := (mem_announced_iff policy mounts).1 h
    rcases hl with hl | hl
    · rw [pendingMounts_ofPolicy] at hl
      obtain ⟨m, hm, rfl⟩ := List.mem_map.1 hl
      obtain ⟨before, after, rfl, ht⟩ := mem_thatPass_iff.1 hm
      refine ⟨before, m, after, rfl, rfl, ht, (not_root_of_taken_iff ht).1 fun r hr he => ?_⟩
      exact hn r hr (path_eq_of_location hr he)
    · obtain ⟨r, hr, rfl⟩ := (include_becomes_root hl).resolve_left (by simp)
      exact absurd (normal_of_mem_roots hr).symm (hn r hr)
  · rintro ⟨before, m, after, rfl, rfl, ht, h⟩
    constructor
    · rw [mem_announced_iff, pendingMounts_ofPolicy]
      exact ⟨m.point.location,
        .inl (List.mem_map_of_mem (mem_thatPass_iff.2 ⟨before, after, rfl, ht⟩)), rfl⟩
    · intro r hr he
      have hl : r.path.location = m.point.location := by
        rw [he, ← Path.path_location, Location.location_path]
      exact (not_root_of_taken_iff ht).2 h r hr hl

/-- Two removable devices, one of them below a special mount that comes between them. -/
def twoDevices : List Mount :=
  [.removable (.ofText "/run/media/usb".toList), .special (.ofText "/run".toList) "tmpfs".toList,
    .removable (.ofText "/media/sd".toList)]

/-- The device that is scanned was told as included. -/
theorem scanned_device_announced :
    ⟨.ofText "/media/sd".toList, .mount⟩ ∈
      (ofPolicy { removableDevices := true } twoDevices).roots ∧
    Path.ofText "/media/sd".toList ∈ announced { removableDevices := true } twoDevices := by
  have hr : ⟨.ofText "/media/sd".toList, .mount⟩ ∈
      (ofPolicy { removableDevices := true } twoDevices).roots := by decide +kernel
  exact ⟨hr, (announced_not_root_iff _ _).1 _ hr⟩

/-- The device below the special mount was told as included, too, and is not scanned. -/
theorem lost_device_announced :
    announced { removableDevices := true } twoDevices =
      [.ofText "/run/media/usb".toList, .ofText "/media/sd".toList] ∧
    (ofPolicy { removableDevices := true } twoDevices).roots =
      [⟨.ofText "/media/sd".toList, .mount⟩] := by
  decide +kernel

end Plan

end Sweep
