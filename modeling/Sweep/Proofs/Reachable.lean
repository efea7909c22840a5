import Sweep.Proofs.Selection
/-!
# Reachable plans

A plan is reachable if it comes from a new one by asking for roots. We state once what all such
plans have in common; every later fact about the states of a scan rests on this.
-/

namespace Sweep.Plan

open Mount

/-- The plans that a scan goes through. -/
inductive Reachable (policy : Policy) (mounts : List Mount) : Plan → Prop where
  | made : Reachable policy mounts (ofPolicy policy mounts)
  | next {plan : Plan} : Reachable policy mounts plan → Reachable policy mounts plan.next.2

/-- What holds of the current root. -/
structure Kept (plan : Plan) (root : Root) : Prop where
  normal : root.path.normal = root.path
  explicit_last : root.isExplicit = true → plan.pendingMounts = []
  uncovered : root.isExplicit = false → plan.isSuppressed root.path.location = false

variable {policy : Policy} {mounts : List Mount} {plan stage : Plan} {root : Root}

theorem kept_of_next {before : Plan} (h : before.next = (some root, plan)) : Kept plan root := by
  have hh := next_some h
  exact {
    normal := hh.normal
    explicit_last := hh.explicit_last
    uncovered := by
      rw [isSuppressed_of_next h]
      exact hh.uncovered }

namespace Reachable

/-- A part of a plan that does not depend on what a scan moves is that of the new plan. -/
theorem unchanged (h : Reachable policy mounts plan) {α : Type} (part : Plan → α)
    (hp : ∀ plan : Plan, part plan.settled = part plan) :
    part plan = part (ofPolicy policy mounts) := by
  induction h with
  | made => rfl
  | @next plan _ ih => rw [← hp plan.next.2, settled_next, hp, ih]

theorem stemExclusions (h : Reachable policy mounts plan) :
    plan.stemExclusions = policyStems policy ++ specialStems mounts := by
  rw [h.unchanged Plan.stemExclusions fun _ => rfl, stemExclusions_ofPolicy]

theorem exactExclusions (h : Reachable policy mounts plan) :
    plan.exactExclusions = policy.excludes.filterMap exactOf? := by
  rw [h.unchanged Plan.exactExclusions fun _ => rfl, exactExclusions_ofPolicy]

theorem kept (h : Reachable policy mounts plan) (hc : plan.current = some root) :
    Kept plan root := by
  cases h with
  | made =>
    rw [current_ofPolicy] at hc
    cases hc
  | @next before _ =>
    rcases hn : before.next with ⟨_ | r, plan⟩
    · rw [hn, next_none hn] at hc
      cases hc
    · rw [hn, (next_some hn).current] at hc
      cases hc
      exact kept_of_next hn

/-- Every path that is set aside exactly is set aside as a directory, too. -/
theorem stem_of_exact (h : Reachable policy mounts plan) {t : Text}
    (ht : t ∈ plan.exactExclusions) : t ++ ['/'] ∈ plan.stemExclusions := by
  rw [h.exactExclusions] at ht
  obtain ⟨e, he, hx⟩ := List.mem_filterMap.1 ht
  rw [h.stemExclusions]
  refine List.mem_append_left _ (List.mem_filterMap.2 ⟨e, he, ?_⟩)
  unfold exactOf? at hx
  split at hx
  · next hp =>
    cases hx
    rw [stemOf?, hp]
    rfl
  · cases hx

theorem special_stem (h : Reachable policy mounts plan) {m : Mount} (hm : m ∈ mounts)
    (hs : m.is .special = true) : m.stem ∈ plan.stemExclusions := by
  rw [h.stemExclusions]
  exact List.mem_append_right _ (List.mem_map_of_mem (List.mem_filter.2 ⟨hm, hs⟩))

/-- The stages of a reachable plan are reachable, each with its root as the current one. -/
theorem of_mem_stages (h : Reachable policy mounts plan) (hs : (root, stage) ∈ plan.stages) :
    Reachable policy mounts stage ∧ stage.current = some root := by
  induction plan using run_induction with
  | handed plan r plan' hn ih =>
    have h' : Reachable policy mounts plan' := by
      have := h.next
      rwa [hn] at this
    rw [stages_of_some hn] at hs
    rcases List.mem_cons.1 hs with hs | hs
    · cases hs
      exact ⟨h', (next_some hn).current⟩
    · exact ih h' hs
  | finished plan plan' hn =>
    rw [stages_of_none hn] at hs
    cases hs

end Reachable

end Sweep.Plan
