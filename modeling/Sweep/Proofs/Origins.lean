import Sweep.Proofs.Deepest
/-!
# Where roots come from

Mounts become mount roots and include paths become explicit roots. So each mount root is a mount of
the list that was taken, and each explicit root is an include path, or the root of the file tree in
their place. The other way round, each include path is a root, be it as a mount.
-/

namespace Sweep.Plan

open Mount

variable {policy : Policy} {mounts : List Mount} {plan plan' stage : Plan} {root : Root}
  {m : Mount}

/-! ## Roots were pending -/

theorem pending_of_not_explicit (h : root ∈ plan.roots) (hk : root.isExplicit = false) :
    root.path.location ∈ plan.pendingMounts := by
  rcases source_of_mem_roots h with ⟨-, hl⟩ | ⟨hk', -⟩
  · exact hl
  · rw [hk] at hk'
    cases hk'

theorem pending_of_explicit (h : root ∈ plan.roots) (hk : root.isExplicit = true) :
    root.path.location ∈ plan.pendingIncludes := by
  rcases source_of_mem_roots h with ⟨hk', -⟩ | ⟨-, hl⟩
  · rw [hk] at hk'
    cases hk'
  · exact hl

/-- What waits for its turn at a stage has waited from the beginning. -/
theorem pendingMounts_subset (h : (root, stage) ∈ plan.stages) :
    stage.pendingMounts ⊆ plan.pendingMounts := by
  induction plan using run_induction with
  | handed plan r plan' hn ih =>
    have hsub := (next_some hn).mounts_subset
    rw [stages_of_some hn] at h
    rcases List.mem_cons.1 h with h | h
    · cases h
      exact hsub
    · exact List.Subset.trans (ih h) hsub
  | finished plan plan' hn =>
    rw [stages_of_none hn] at h
    cases h

/-! ## The plan of a policy -/

theorem barredMounts_ofPolicy (policy : Policy) (mounts : List Mount) :
    (ofPolicy policy mounts).barredMounts =
      locations (thatPass (isBarred policy) (policyStems policy) mounts) := by
  simp only [ofPolicy, make, addMounts_eq, orEverything, ofPaths, policyStems]
  split <;> simp

theorem rules_ofPolicy (policy : Policy) (mounts : List Mount) :
    (ofPolicy policy mounts).rules = RuleSet.ofList
      (policy.excludes.filterMap ruleOf? ++ policy.extensions.map Rule.ofExtension) := by
  simp only [ofPolicy, make, addMounts_eq, orEverything, ofPaths]
  split <;> rfl

theorem includes_ofPolicy (policy : Policy) (mounts : List Mount) :
    (ofPolicy policy mounts).includes = absoluteIncludes policy ++
      if absoluteIncludes policy = [] ∧ takenMounts policy mounts = [] then [Path.root.location]
      else [] := by
  simp only [ofPolicy, make, addMounts_eq, orEverything, ofPaths, takenMounts, policyStems,
    absoluteIncludes, locations]
  split <;> simp_all

/-- The record of the include paths is what is pending first. -/
theorem includes_eq_pendingIncludes :
    (ofPolicy policy mounts).includes = (ofPolicy policy mounts).pendingIncludes := by
  rw [pendingIncludes_ofPolicy, includes_ofPolicy]
  split
  · next h => simp [h.1]
  · exact List.append_nil _

theorem include_of_explicit (h : root ∈ (ofPolicy policy mounts).roots)
    (hk : root.isExplicit = true) : root.path.location ∈ (ofPolicy policy mounts).includes := by
  rw [includes_eq_pendingIncludes]
  exact pending_of_explicit h hk

/-- A path at or below an explicit root is at or below an include path. -/
theorem isUnder_include {f : Path} (h : root ∈ (ofPolicy policy mounts).roots)
    (hk : root.isExplicit = true) (hu : f.isUnder root.path = true) :
    ∃ l ∈ (ofPolicy policy mounts).includes, f.isUnder l.path = true := by
  refine ⟨root.path.location, include_of_explicit h hk, ?_⟩
  rwa [Path.path_location, Path.isUnder_normal]

/-- No stem covers a mount root. -/
theorem not_covered_of_root (h : root ∈ (ofPolicy policy mounts).roots)
    (hk : root.isExplicit = false) {stem : Text}
    (hs : stem ∈ (ofPolicy policy mounts).stemExclusions) :
    ¬ stemCovers stem root.path.text true = true := by
  obtain ⟨stage, hst⟩ := mem_roots_iff.1 h
  obtain ⟨hr, hc⟩ := Reachable.made.of_mem_stages hst
  have hkept := hr.kept hc
  have hun := hkept.uncovered hk
  rw [← hr.unchanged stemExclusions fun _ => rfl] at hs
  rw [isSuppressed, Path.path_location, hkept.normal, List.any_eq_false] at hun
  exact hun stem hs

theorem mem_of_mem_thatPass {test : List Text → Mount → Bool} {stems : List Text}
    (h : m ∈ thatPass test stems mounts) : m ∈ mounts := by
  obtain ⟨before, after, rfl, -⟩ := mem_thatPass_iff.1 h
  simp

theorem isRequested_of_mem_takenMounts (h : m ∈ takenMounts policy mounts) :
    m.isRequested policy = true := by
  obtain ⟨before, after, -, ht⟩ := mem_thatPass_iff.1 h
  rw [isTaken, Bool.and_eq_true] at ht
  exact ht.2

/-- A mount root is a mount of the list that is asked for and not special. -/
theorem mount_of_root (h : root ∈ (ofPolicy policy mounts).roots) (hk : root.isExplicit = false) :
    ∃ m ∈ takenMounts policy mounts, m.point.location = root.path.location := by
  have hl := pending_of_not_explicit h hk
  rw [pendingMounts_ofPolicy] at hl
  exact List.mem_map.1 hl

/-- A location of the record is a root, be it as a mount. -/
theorem root_of_mem_includes {l : Location} (h : l ∈ (ofPolicy policy mounts).includes) :
    ∃ r ∈ (ofPolicy policy mounts).roots, r.path.location = l := by
  rw [includes_eq_pendingIncludes] at h
  rcases include_becomes_root h with ho | hr
  · simp at ho
  · exact hr

theorem mem_includes {p : Path} (hi : p ∈ policy.includes) (ha : p.isAbsolute = true)
    (mounts : List Mount) : p.location ∈ (ofPolicy policy mounts).includes := by
  rw [includes_ofPolicy]
  apply List.mem_append_left
  exact List.mem_map_of_mem (List.mem_filter.2 ⟨hi, ha⟩)

/-- An include path starts at the root of the file tree. -/
theorem isUnder_root_of_mem_includes {l : Location} (h : l ∈ (ofPolicy policy mounts).includes) :
    l.path.isUnder Path.root = true := by
  rw [includes_ofPolicy] at h
  rcases List.mem_append.1 h with h | h
  · obtain ⟨p, hp, rfl⟩ := List.mem_map.1 h
    rw [Path.path_location, Path.normal_isUnder]
    exact Path.isUnder_root (List.mem_filter.1 hp).2
  · split at h
    · rw [List.mem_singleton.1 h]
      exact Path.isUnder_self _
    · cases h

end Sweep.Plan
