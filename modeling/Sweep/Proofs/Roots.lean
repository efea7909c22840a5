import Sweep.Plan.Admission
import Sweep.Proofs.Path
/-!
# Handing out roots

What one call of `next` does to a plan, and what follows for all of its stages: no root comes twice,
a root is current exactly at its own stage, and every other root is still pending there or was
handed out before. What is pending and yet never becomes a root is a mount that a stem covers.
-/

namespace Sweep.Plan

/-! ## One call -/

theorem mem_dropWhile_or {α : Type} (f : α → Bool) {l : List α} {a : α} (h : a ∈ l) :
    f a = true ∨ a ∈ l.dropWhile f := by
  induction l with
  | nil => cases h
  | cons b l ih =>
    by_cases hb : f b = true
    · rw [List.dropWhile_cons, if_pos hb]
      rcases List.mem_cons.1 h with rfl | h
      · exact .inl hb
      · exact ih h
    · rw [List.dropWhile_cons, if_neg hb]
      exact .inr h

theorem head_dropWhile {α : Type} {f : α → Bool} {l r : List α} {a : α}
    (h : l.dropWhile f = a :: r) : f a = false := by
  have := List.head?_dropWhile_not f l
  rwa [h] at this

/-- Whether a stem keeps the mount point from being handed out. -/
def isSuppressed (plan : Plan) (l : Location) : Bool :=
  plan.stemExclusions.any (stemCovers · l.path.text true)

theorem passesOver_iff {plan : Plan} {l : Location} :
    plan.passesOver l = true ↔ plan.isSuppressed l = true ∨ l ∈ plan.handedOut := by
  simp [passesOver, isSuppressed, wasHandedOut]

/-- What is the case when a root is handed out. -/
structure Handed (plan : Plan) (root : Root) (plan' : Plan) : Prop where
  current : plan'.current = some root
  handedOut : plan'.handedOut = plan.handedOut ++ [root.path.location]
  new : root.path.location ∉ plan.handedOut
  normal : root.path.normal = root.path
  source : root.path.location ∈ plan.pendingMounts ∨ root.path.location ∈ plan.pendingIncludes
  mounts_subset : plan'.pendingMounts ⊆ plan.pendingMounts
  includes_subset : plan'.pendingIncludes ⊆ plan.pendingIncludes
  mounts_left : ∀ l ∈ plan.pendingMounts,
    plan.passesOver l = true ∨ l = root.path.location ∨ l ∈ plan'.pendingMounts
  includes_left : ∀ l ∈ plan.pendingIncludes,
    l ∈ plan.handedOut ∨ l = root.path.location ∨ l ∈ plan'.pendingIncludes
  explicit_last : root.isExplicit = true → plan'.pendingMounts = []
  uncovered : root.isExplicit = false → plan.isSuppressed root.path.location = false

/-- A mount is handed out: those in front of it are passed over. -/
theorem handed_mount {plan : Plan} {point : Location} {rest : List Location}
    (h : plan.pendingMounts.dropWhile plan.passesOver = point :: rest) :
    Handed plan ⟨point.path, .mount⟩
      ({ plan with pendingMounts := rest }.enter ⟨point.path, .mount⟩) := by
  have hp : point.path.location = point := point.location_path
  have hsub := (List.dropWhile_sublist plan.passesOver (l := plan.pendingMounts)).subset
  have hover := head_dropWhile h
  rw [h] at hsub
  exact {
    current := rfl
    handedOut := rfl
    new := by
      rw [hp]
      intro hin
      rw [passesOver_iff.2 (.inr hin)] at hover
      cases hover
    normal := point.normal_eq
    source := by
      rw [hp]
      exact .inl (hsub List.mem_cons_self)
    mounts_subset := fun l hl => hsub (List.mem_cons_of_mem _ hl)
    includes_subset := fun l hl => hl
    mounts_left := by
      intro l hl
      have := mem_dropWhile_or plan.passesOver hl
      rwa [h, List.mem_cons, ← hp] at this
    includes_left := fun l hl => .inr (.inr hl)
    explicit_last := fun he => by cases he
    uncovered := by
      intro _
      rw [hp, Bool.eq_false_iff]
      intro hs
      rw [passesOver_iff.2 (.inl hs)] at hover
      cases hover }

/-- An include path is handed out: all mounts are passed over, and those in front of it were handed
out before. -/
theorem handed_include {plan : Plan} {start : Location} {rest : List Location}
    (hm : plan.pendingMounts.dropWhile plan.passesOver = [])
    (h : plan.pendingIncludes.dropWhile plan.wasHandedOut = start :: rest) :
    Handed plan ⟨start.path, .explicit⟩
      ({ plan with pendingMounts := [], pendingIncludes := rest }.enter
        ⟨start.path, .explicit⟩) := by
  have hp : start.path.location = start := start.location_path
  have hsub := (List.dropWhile_sublist plan.wasHandedOut (l := plan.pendingIncludes)).subset
  have hover := head_dropWhile h
  rw [h] at hsub
  simp only [wasHandedOut, List.contains_eq_mem, decide_eq_false_iff_not] at hover
  exact {
    current := rfl
    handedOut := rfl
    new := by rwa [hp]
    normal := start.normal_eq
    source := by
      rw [hp]
      exact .inr (hsub List.mem_cons_self)
    mounts_subset := List.nil_subset _
    includes_subset := fun l hl => hsub (List.mem_cons_of_mem _ hl)
    mounts_left := by
      intro l hl
      have := mem_dropWhile_or plan.passesOver hl
      rw [hm] at this
      exact .inl (this.resolve_right List.not_mem_nil)
    includes_left := by
      intro l hl
      have := mem_dropWhile_or plan.wasHandedOut hl
      rw [h, List.mem_cons, ← hp] at this
      exact this.imp_left fun hw => by simpa [wasHandedOut] using hw
    explicit_last := fun _ => rfl
    uncovered := fun he => by cases he }

theorem next_some {plan plan' : Plan} {root : Root} (h : plan.next = (some root, plan')) :
    Handed plan root plan' := by
  unfold next at h
  split at h
  · next point rest hm =>
    simp only [Prod.mk.injEq, Option.some.injEq] at h
    obtain ⟨rfl, rfl⟩ := h
    exact handed_mount hm
  · next hm =>
    split at h
    · next start rest hi =>
      simp only [Prod.mk.injEq, Option.some.injEq] at h
      obtain ⟨rfl, rfl⟩ := h
      exact handed_include hm hi
    · cases h

theorem dropWhile_eq_nil {α : Type} {f : α → Bool} {l : List α} :
    l.dropWhile f = [] ↔ ∀ a ∈ l, f a = true := by
  constructor
  · intro h a ha
    have := mem_dropWhile_or f ha
    rw [h] at this
    exact this.resolve_right List.not_mem_nil
  · intro h
    cases hd : l.dropWhile f with
    | nil => rfl
    | cons a r =>
      have ha := h a ((List.dropWhile_sublist f).subset (hd ▸ List.mem_cons_self))
      rw [head_dropWhile hd] at ha
      cases ha

/-- Nothing is handed out exactly when every mount is passed over and every include path was handed
out before. -/
theorem next_eq_none {plan : Plan} :
    plan.next.1 = none ↔ (∀ l ∈ plan.pendingMounts, plan.passesOver l = true) ∧
      ∀ l ∈ plan.pendingIncludes, l ∈ plan.handedOut := by
  have hi : (∀ l ∈ plan.pendingIncludes, l ∈ plan.handedOut) ↔
      ∀ l ∈ plan.pendingIncludes, plan.wasHandedOut l = true := by simp [wasHandedOut]
  rw [hi, ← dropWhile_eq_nil, ← dropWhile_eq_nil]
  unfold next
  split
  · next hm => simp [hm]
  · next hm =>
    split
    · next hi => simp [hi]
    · next hi => simp [hm, hi]

/-! ## What stays the same -/

/-- The plan without what a scan moves. -/
def settled (plan : Plan) : Plan :=
  { plan with pendingMounts := [], pendingIncludes := [], current := none, handedOut := [] }

theorem settled_next (plan : Plan) : plan.next.2.settled = plan.settled := by
  unfold next
  split
  · rfl
  · split <;> rfl

theorem stemExclusions_of_next {plan plan' : Plan} {root : Option Root}
    (h : plan.next = (root, plan')) : plan'.stemExclusions = plan.stemExclusions := by
  have hs : plan'.settled.stemExclusions = plan.settled.stemExclusions := by
    rw [← settled_next plan, h]
  exact hs

theorem isSuppressed_of_next {plan plan' : Plan} {root : Option Root}
    (h : plan.next = (root, plan')) : plan'.isSuppressed = plan.isSuppressed := by
  funext l
  rw [isSuppressed, stemExclusions_of_next h, ← isSuppressed]

theorem next_none {plan plan' : Plan} (h : plan.next = (none, plan')) : plan'.current = none := by
  unfold next at h
  split at h
  · cases h
  · split at h
    · cases h
    · simp only [Prod.mk.injEq, true_and] at h
      rw [← h]

/-! ## Stages -/

/-- What holds when nothing is handed out, and before a root is handed out if it holds after it,
holds of every plan. -/
@[elab_as_elim] theorem run_induction {motive : Plan → Prop}
    (handed : ∀ plan root plan', plan.next = (some root, plan') → motive plan' → motive plan)
    (finished : ∀ plan plan', plan.next = (none, plan') → motive plan) (plan : Plan) :
    motive plan := by
  induction plan using stages.induct with
  | case1 plan root plan' hn _ ih => exact handed plan root plan' hn ih
  | case2 plan plan' hn => exact finished plan plan' hn

theorem stages_of_some {plan plan' : Plan} {root : Root} (h : plan.next = (some root, plan')) :
    plan.stages = (root, plan') :: plan'.stages := by
  rw [stages]
  split
  · next root₂ plan₂ h₂ =>
    rw [h] at h₂
    cases h₂
    rfl
  · next h₂ =>
    rw [h] at h₂
    cases h₂

theorem stages_of_none {plan plan' : Plan} (h : plan.next = (none, plan')) : plan.stages = [] := by
  rw [stages]
  split
  · next h₂ =>
    rw [h] at h₂
    cases h₂
  · rfl

/-- A stage comes from a plan that hands its root out. -/
theorem handed_of_mem {plan stage : Plan} {root : Root} (h : (root, stage) ∈ plan.stages) :
    ∃ before, Handed before root stage := by
  induction plan using run_induction with
  | handed plan r plan' hn ih =>
    rw [stages_of_some hn] at h
    rcases List.mem_cons.1 h with h | h
    · cases h
      exact ⟨plan, next_some hn⟩
    · exact ih h
  | finished plan plan' hn =>
    rw [stages_of_none hn] at h
    cases h

theorem mem_roots_iff {plan : Plan} {root : Root} :
    root ∈ plan.roots ↔ ∃ stage, (root, stage) ∈ plan.stages := by
  simp [roots]

theorem roots_of_some {plan plan' : Plan} {root : Root} (h : plan.next = (some root, plan')) :
    plan.roots = root :: plan'.roots := by
  simp [roots, stages_of_some h]

theorem roots_of_none {plan plan' : Plan} (h : plan.next = (none, plan')) : plan.roots = [] := by
  simp [roots, stages_of_none h]

theorem root_not_handedOut {plan : Plan} {root : Root} (h : root ∈ plan.roots) :
    root.path.location ∉ plan.handedOut := by
  induction plan using run_induction with
  | handed plan r plan' hn ih =>
    have hh := next_some hn
    rw [roots_of_some hn] at h
    rcases List.mem_cons.1 h with rfl | h
    · exact hh.new
    · have := ih h
      rw [hh.handedOut] at this
      exact fun hin => this (List.mem_append_left _ hin)
  | finished plan plan' hn =>
    rw [roots_of_none hn] at h
    cases h

/-- No location is handed out twice. -/
theorem roots_nodup (plan : Plan) : (plan.roots.map (·.path.location)).Nodup := by
  induction plan using run_induction with
  | handed plan r plan' hn ih =>
    rw [roots_of_some hn, List.map_cons, List.nodup_cons]
    refine ⟨fun hin => ?_, ih⟩
    obtain ⟨r', hr', he⟩ := List.mem_map.1 hin
    have := root_not_handedOut hr'
    rw [he, (next_some hn).handedOut] at this
    exact this (by simp)
  | finished plan plan' hn =>
    rw [roots_of_none hn]
    exact List.nodup_nil

theorem source_of_next {plan plan' : Plan} {root : Root} (h : plan.next = (some root, plan')) :
    root.isExplicit = false ∧ root.path.location ∈ plan.pendingMounts ∨
      root.isExplicit = true ∧ root.path.location ∈ plan.pendingIncludes := by
  unfold next at h
  split at h
  · next point rest hm =>
    simp only [Prod.mk.injEq, Option.some.injEq] at h
    obtain ⟨rfl, -⟩ := h
    refine .inl ⟨rfl, (List.dropWhile_sublist plan.passesOver).subset ?_⟩
    simp [hm]
  · split at h
    · next start rest hi =>
      simp only [Prod.mk.injEq, Option.some.injEq] at h
      obtain ⟨rfl, -⟩ := h
      refine .inr ⟨rfl, (List.dropWhile_sublist plan.wasHandedOut).subset ?_⟩
      simp [hi]
    · cases h

/-- A root was pending as what it is. -/
theorem source_of_mem_roots {plan : Plan} {root : Root} (h : root ∈ plan.roots) :
    root.isExplicit = false ∧ root.path.location ∈ plan.pendingMounts ∨
      root.isExplicit = true ∧ root.path.location ∈ plan.pendingIncludes := by
  induction plan using run_induction with
  | handed plan r plan' hn ih =>
    have hh := next_some hn
    rw [roots_of_some hn] at h
    rcases List.mem_cons.1 h with rfl | h
    · exact source_of_next hn
    · rcases ih h with ⟨hk, hl⟩ | ⟨hk, hl⟩
      · exact .inl ⟨hk, hh.mounts_subset hl⟩
      · exact .inr ⟨hk, hh.includes_subset hl⟩
  | finished plan plan' hn =>
    rw [roots_of_none hn] at h
    cases h

theorem root_pending {plan : Plan} {root : Root} (h : root ∈ plan.roots) :
    root.path.location ∈ plan.pendingMounts ∨ root.path.location ∈ plan.pendingIncludes := by
  rcases source_of_mem_roots h with ⟨-, hm⟩ | ⟨-, hi⟩
  · exact .inl hm
  · exact .inr hi

/-- At every stage each root is pending or was handed out. -/
theorem root_known {plan stage : Plan} {root r : Root} (h : (root, stage) ∈ plan.stages)
    (hr : r ∈ plan.roots ∨ r.path.location ∈ plan.handedOut) :
    r.path.location ∈ stage.handedOut ∨ r.path.location ∈ stage.pendingMounts ∨
      r.path.location ∈ stage.pendingIncludes := by
  induction plan using run_induction with
  | handed plan r' plan' hn ih =>
    have hh := next_some hn
    -- What the plan had handed out or hands out now stays so; other roots are those of `plan'`.
    have hr' : r ∈ plan'.roots ∨ r.path.location ∈ plan'.handedOut := by
      rw [roots_of_some hn, List.mem_cons] at hr
      rw [hh.handedOut]
      rcases hr with (rfl | hr) | hr
      · exact .inr (by simp)
      · exact .inl hr
      · exact .inr (List.mem_append_left _ hr)
    rw [stages_of_some hn] at h
    rcases List.mem_cons.1 h with h | h
    · cases h
      rcases hr' with hr' | hr'
      · exact .inr (root_pending hr')
      · exact .inl hr'
    · exact ih h hr'
  | finished plan plan' hn =>
    rw [stages_of_none hn] at h
    cases h

/-- A pending mount becomes a root, was one, or is covered by a stem. -/
theorem mount_becomes_root {plan : Plan} {l : Location} (h : l ∈ plan.pendingMounts) :
    plan.isSuppressed l = true ∨ l ∈ plan.handedOut ∨ ∃ r ∈ plan.roots, r.path.location = l := by
  induction plan using run_induction with
  | handed plan r plan' hn ih =>
    have hh := next_some hn
    have hs : plan'.isSuppressed l = plan.isSuppressed l := by rw [isSuppressed_of_next hn]
    rw [roots_of_some hn]
    rcases hh.mounts_left l h with ho | rfl | hl
    · exact (passesOver_iff.1 ho).imp_right .inl
    · exact .inr (.inr ⟨r, List.mem_cons_self, rfl⟩)
    · rw [← hs]
      refine (ih hl).imp_right fun hi => ?_
      rcases hi with hi | ⟨r', hr', he⟩
      · rw [hh.handedOut, List.mem_append, List.mem_singleton] at hi
        exact hi.imp_right fun he => ⟨r, List.mem_cons_self, he.symm⟩
      · exact .inr ⟨r', List.mem_cons_of_mem _ hr', he⟩
  | finished plan plan' hn =>
    have := (next_eq_none.1 (congrArg Prod.fst hn)).1 l h
    exact (passesOver_iff.1 this).imp_right .inl

/-- A pending include path becomes a root, or was one. -/
theorem include_becomes_root {plan : Plan} {l : Location} (h : l ∈ plan.pendingIncludes) :
    l ∈ plan.handedOut ∨ ∃ r ∈ plan.roots, r.path.location = l := by
  induction plan using run_induction with
  | handed plan r plan' hn ih =>
    have hh := next_some hn
    rw [roots_of_some hn]
    rcases hh.includes_left l h with ho | rfl | hl
    · exact .inl ho
    · exact .inr ⟨r, List.mem_cons_self, rfl⟩
    · rcases ih hl with hi | ⟨r', hr', he⟩
      · rw [hh.handedOut, List.mem_append, List.mem_singleton] at hi
        exact hi.imp_right fun he => ⟨r, List.mem_cons_self, he.symm⟩
      · exact .inr ⟨r', List.mem_cons_of_mem _ hr', he⟩
  | finished plan plan' hn => exact .inl ((next_eq_none.1 (congrArg Prod.fst hn)).2 l h)

/-! ## Other roots -/

/-- What a stage inherits from the plan it is a stage of. -/
theorem stage_inherits {plan stage : Plan} {root : Root} (h : (root, stage) ∈ plan.stages) :
    stage.stemExclusions = plan.stemExclusions ∧ stage.roots ⊆ plan.roots ∧
      ∀ l ∈ stage.handedOut, l ∈ plan.handedOut ∨ ∃ r ∈ plan.roots, r.path.location = l := by
  induction plan using run_induction with
  | handed plan r plan' hn ih =>
    have hh := next_some hn
    have hs := stemExclusions_of_next hn
    have ho : ∀ l ∈ plan'.handedOut,
        l ∈ plan.handedOut ∨ ∃ r ∈ plan.roots, r.path.location = l := by
      intro l hl
      rw [hh.handedOut, List.mem_append, List.mem_singleton] at hl
      rw [roots_of_some hn]
      exact hl.imp_right fun he => ⟨r, List.mem_cons_self, he.symm⟩
    have hr : plan'.roots ⊆ plan.roots := by
      rw [roots_of_some hn]
      exact List.subset_cons_self _ _
    rw [stages_of_some hn] at h
    rcases List.mem_cons.1 h with h | h
    · cases h
      exact ⟨hs, hr, ho⟩
    · obtain ⟨h1, h2, h3⟩ := ih h
      refine ⟨h1.trans hs, List.Subset.trans h2 hr, fun l hl => ?_⟩
      rcases h3 l hl with hl | ⟨r', hr', he⟩
      · exact ho l hl
      · exact .inr ⟨r', hr hr', he⟩
  | finished plan plan' hn =>
    rw [stages_of_none hn] at h
    cases h

section Stage

variable {plan stage : Plan} {root : Root}

theorem isOtherRoot_iff {p : Path} (h : stage.current = some root) :
    stage.isOtherRoot p = true ↔ p.location ∈ stage.pendingMounts ∨
      p.location ∈ stage.pendingIncludes ∨
      p.location ∈ stage.handedOut ∧ root.path.location ≠ p.location := by
  simp [isOtherRoot, h, wasHandedOut, Path.location_eq_location_iff, or_assoc]

/-- A root other than the current one is known as such at each stage. -/
theorem isOtherRoot_of_mem (h : (root, stage) ∈ plan.stages) {r : Root} (hr : r ∈ plan.roots)
    {p : Path} (hp : r.path.location = p.location) (hne : root.path.location ≠ p.location) :
    stage.isOtherRoot p = true := by
  obtain ⟨_, hh⟩ := handed_of_mem h
  rw [isOtherRoot_iff hh.current, ← hp]
  rcases root_known h (.inl hr) with hk | hk | hk
  · exact .inr (.inr ⟨hk, hp ▸ hne⟩)
  · exact .inl hk
  · exact .inr (.inl hk)

/-- What counts as another root at a stage is a root of the plan, or a mount that is not handed out
because a stem covers it. -/
theorem isOtherRoot_cases (h : (root, stage) ∈ plan.stages) (ho : plan.handedOut = [])
    {p : Path} (hp : stage.isOtherRoot p = true) :
    (∃ r ∈ plan.roots, r.path.location = p.location) ∨
      root.isExplicit = false ∧ plan.isSuppressed p.location = true := by
  obtain ⟨_, hh⟩ := handed_of_mem h
  obtain ⟨hs, hr, hin⟩ := stage_inherits h
  have hroot : p.location ∈ stage.handedOut → ∃ r ∈ plan.roots, r.path.location = p.location := by
    intro hl
    simpa [ho] using hin _ hl
  rw [isOtherRoot_iff hh.current] at hp
  rcases hp with hp | hp | ⟨hp, -⟩
  · rcases mount_becomes_root hp with hm | hm | ⟨r, hm, he⟩
    · refine .inr ⟨?_, by rwa [isSuppressed, ← hs]⟩
      cases hk : root.isExplicit with
      | false => rfl
      | true =>
        rw [hh.explicit_last hk] at hp
        cases hp
    · exact .inl (hroot hm)
    · exact .inl ⟨r, hr hm, he⟩
  · rcases include_becomes_root hp with hm | ⟨r, hm, he⟩
    · exact .inl (hroot hm)
    · exact .inl ⟨r, hr hm, he⟩
  · exact .inl (hroot hp)

end Stage

end Sweep.Plan
