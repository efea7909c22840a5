import Mathlib.Data.List.Nodup
import Sweep.Proofs.Descent
import Sweep.Proofs.Origins
/-!
# Files that nothing excludes

Every file at or below a root has a deepest one, and that root alone decides about the file. For a
file that no rule, no exact path and no stem excludes we say what is left of the decision: an
explicit root lets the file in, and a mount root does unless it cuts the file off.
-/

namespace Sweep.Plan

/-- No rule and no exact path excludes the file. -/
structure Spares (plan : Plan) (f : Path) : Prop where
  noRule : plan.rules.applies f.text false false = false
  noExact : f.text ∉ plan.exactExclusions

/-- No stem begins the path of the file. -/
def NoStemOf (plan : Plan) (f : Path) : Prop := ∀ stem ∈ plan.stemExclusions, ¬ stem <+: f.text

/-- Why a mount root leaves a file out that nothing excludes: a barred mount lies between the root
and the file, or the file is itself a mount point that waits for its turn. -/
def CutsOff (stage : Plan) (root : Root) (f : Path) : Prop :=
  root.isExplicit = false ∧ f ≠ root.path ∧
    (f.location ∈ stage.pendingMounts ∨
      ∃ l ∈ stage.barredMounts, f.isUnder l.path = true ∧ l.path.isBelow root.path = true)

variable {policy : Policy} {mounts : List Mount} {plan stage : Plan} {root r : Root}
  {tree : FileTree} {p f : Path}

/-! ## The deepest root -/

theorem exists_deepest_of_mem {rs : List Root} (hr : r ∈ rs) (hf : f.isUnder r.path = true) :
    ∃ root ∈ rs, f.isUnder root.path = true ∧
      ∀ r ∈ rs, f.isUnder r.path = true → root.path.isUnder r.path = true := by
  induction rs generalizing r with
  | nil => cases hr
  | cons a rs ih =>
    by_cases hrest : ∃ r ∈ rs, f.isUnder r.path = true
    · obtain ⟨r', hr', hf'⟩ := hrest
      obtain ⟨d, hd, hfd, hall⟩ := ih hr' hf'
      by_cases ha : f.isUnder a.path = true ∧ a.path.isUnder d.path = true
      · -- The first root is deeper than the deepest of the others.
        refine ⟨a, List.mem_cons_self, ha.1, ?_⟩
        intro r hr hfr
        rcases List.mem_cons.1 hr with rfl | hr
        · exact Path.isUnder_self _
        · exact Path.isUnder_trans ha.2 (hall r hr hfr)
      · refine ⟨d, List.mem_cons_of_mem _ hd, hfd, ?_⟩
        intro r hr hfr
        rcases List.mem_cons.1 hr with rfl | hr
        · exact (Path.isUnder_or_isUnder hfr hfd).resolve_left fun h => ha ⟨hfr, h⟩
        · exact hall r hr hfr
    · refine ⟨a, List.mem_cons_self, ?_, ?_⟩
      · rcases List.mem_cons.1 hr with rfl | hr
        · exact hf
        · exact absurd ⟨r, hr, hf⟩ hrest
      · intro r hr hfr
        rcases List.mem_cons.1 hr with rfl | hr
        · exact Path.isUnder_self _
        · exact absurd ⟨r, hr, hfr⟩ hrest

/-- A file at or below a root has a deepest root, which is at or below that one. -/
theorem exists_isDeepest (hr : r ∈ plan.roots) (hf : f.isUnder r.path = true) :
    ∃ root stage, (root, stage) ∈ plan.stages ∧ IsDeepest plan root f ∧
      root.path.isUnder r.path = true := by
  obtain ⟨root, hm, hfr, hall⟩ := exists_deepest_of_mem hr hf
  obtain ⟨stage, hs⟩ := mem_roots_iff.1 hm
  exact ⟨root, stage, hs, ⟨hfr, hall⟩, hall r hr hf⟩

theorem stage_eq_of_location {s t : Root × Plan} (hs : s ∈ plan.stages) (ht : t ∈ plan.stages)
    (h : s.1.path.location = t.1.path.location) : s = t := by
  have hn := roots_nodup plan
  rw [roots, List.map_map] at hn
  exact List.inj_on_of_nodup_map hn hs ht h

/-- Whether a file is visited is decided at the stage of its deepest root. -/
theorem mem_visited_iff_reaches (ht : tree.IsProper)
    (hs : (root, stage) ∈ (ofPolicy policy mounts).stages)
    (hd : IsDeepest (ofPolicy policy mounts) root f) :
    f ∈ ((ofPolicy policy mounts).walk tree).2.visited ↔ Reaches stage tree root f := by
  rw [mem_visited_iff]
  constructor
  · rintro ⟨r, stage', hs', hf⟩
    have hd' := isDeepest_of_mem_visited ht hs' hf
    have hl := location_eq_of_isDeepest (mem_roots_of_mem_stages hs') (mem_roots_of_mem_stages hs)
      hd' hd
    cases stage_eq_of_location hs' hs hl
    exact reaches_of_mem_visited ht hf
  · intro h
    exact ⟨root, stage, hs, mem_visited_of_reaches ht hs hd h⟩

theorem reaches_iff (ht : tree.IsProper) (hn : root.path.normal = root.path)
    (hl : tree.LeadsTo root.path f) :
    Reaches stage tree root f ↔ f = root.path ∨ stage.admitsFile f = true := by
  obtain ⟨node, names, content, he, hb, rfl, -, hfit⟩ := hl
  have hnames := (FileTree.isProper_entered? ht he).of_below? hb
  constructor
  · rintro ⟨-, ks, -, -, -, hf, hks⟩
    rcases hks with rfl | ⟨-, ha⟩
    · exact .inl hf
    · exact .inr ha
  · intro h
    refine ⟨node, names, content, he, hb, rfl, ?_⟩
    rcases h with h | ha
    · left
      rw [← Path.extend_nil root.path] at h
      apply Path.extend_inj hn hnames _ h
      simp
    · by_cases hnil : names = []
      · exact .inl hnil
      · refine .inr ⟨?_, ha⟩
        rw [← List.dropLast_concat_getLast hnil, Path.extend_append] at hfit
        exact Path.fits_of_extend hfit

/-! ## What keeps a file out at its deepest root -/

/-- No other root stands where the file is, but a mount that waits for its turn may. -/
theorem isOtherRoot_iff_pending (hs : (root, stage) ∈ (ofPolicy policy mounts).stages)
    (hd : IsDeepest (ofPolicy policy mounts) root f) (hf : f.normal = f) (hne : f ≠ root.path) :
    stage.isOtherRoot f = true ↔ f.location ∈ stage.pendingMounts := by
  have hc := (Reachable.made.of_mem_stages hs).2
  have hn := normal_of_mem_stages hs
  obtain ⟨-, hsub, hout⟩ := stage_inherits hs
  -- A root at the file would be deeper than the deepest one.
  have hnone : ¬ ∃ r ∈ (ofPolicy policy mounts).roots, r.path.location = f.location := by
    rintro ⟨r, hr, he⟩
    have hrf : r.path = f := by
      rw [path_eq_of_location hr he, hf]
    have hu := hd.2 r hr (by rw [hrf]; exact Path.isUnder_self f)
    rw [hrf] at hu
    exact hne (Path.eq_of_same hf hn (Path.same_of_isUnder hd.1 hu))
  have hhanded : f.location ∉ stage.handedOut := by
    intro hin
    rcases hout _ hin with h | h
    · simp at h
    · exact hnone h
  rw [isOtherRoot_iff hc]
  constructor
  · rintro (h | h | ⟨h, -⟩)
    · exact h
    · rcases include_becomes_root h with h | ⟨r, hr, he⟩
      · exact absurd h hhanded
      · exact absurd ⟨r, hsub hr, he⟩ hnone
    · exact absurd h hhanded
  · intro h
    exact .inl h

theorem isOnBarredMount_iff_between (hc : stage.current = some root)
    (hn : root.path.normal = root.path) (hu : f.isUnder root.path = true) :
    stage.isOnBarredMount f = true ↔
      ∃ l ∈ stage.barredMounts, f.isUnder l.path = true ∧ l.path.isBelow root.path = true := by
  rw [isOnBarredMount_iff]
  refine exists_congr fun l => and_congr_right fun _ => and_congr_right fun hl => ?_
  rw [Path.isBelow_iff_length l.normal_eq hn hl hu, rootLength, hc]
  rfl

/-- A policy whose exclusions are all directories spares every file. -/
theorem spares_of_stems_alone (hr : policy.excludes.filterMap ruleOf? = [])
    (he : policy.excludes.filterMap exactOf? = []) (hx : policy.extensions = []) :
    (ofPolicy policy mounts).Spares f := by
  constructor
  · rw [rules_ofPolicy, hr, hx, RuleSet.applies_eq_any]
    simp [RuleSet.ofList, RuleSet.dropRepeats]
  · rw [exactExclusions_ofPolicy, he]
    exact List.not_mem_nil

theorem stage_noStemOf (hs : (root, stage) ∈ (ofPolicy policy mounts).stages)
    (h : (ofPolicy policy mounts).NoStemOf f) : stage.NoStemOf f := by
  have hr := (Reachable.made.of_mem_stages hs).1
  unfold NoStemOf
  rw [hr.unchanged stemExclusions fun _ => rfl]
  exact h

theorem stemsExclude_eq_false (h : plan.NoStemOf f) : plan.stemsExclude f.text false = false := by
  rw [Bool.eq_false_iff]
  intro hs
  obtain ⟨stem, hm, hc, -⟩ := stemsExclude_iff.1 hs
  simp only [stemCovers, Bool.false_and, Bool.or_false, List.isPrefixOf_iff_prefix] at hc
  exact h stem hm hc

/-- A spared file that no stem of the stage excludes is visited unless its deepest root cuts it
off. -/
theorem mem_visited_iff_of_spares (ht : tree.IsProper)
    (hs : (root, stage) ∈ (ofPolicy policy mounts).stages)
    (hd : IsDeepest (ofPolicy policy mounts) root f) (hl : tree.LeadsTo root.path f)
    (hf : (ofPolicy policy mounts).Spares f) (hst : stage.stemsExclude f.text false = false) :
    f ∈ ((ofPolicy policy mounts).walk tree).2.visited ↔ ¬ CutsOff stage root f := by
  obtain ⟨hr, hc⟩ := Reachable.made.of_mem_stages hs
  have hn := normal_of_mem_stages hs
  have hfn := (hl.isUnder ht hn).1
  rw [mem_visited_iff_reaches ht hs hd, reaches_iff ht hn hl, CutsOff]
  by_cases hne : f = root.path
  · simp [hne]
  have hrules : stage.rules.applies f.text false false = false := by
    rw [hr.unchanged rules fun _ => rfl]
    exact hf.noRule
  have hexact : f.text ∉ stage.exactExclusions := by
    rw [hr.unchanged exactExclusions fun _ => rfl]
    exact hf.noExact
  have hx : stage.rootIsExplicit = root.isExplicit := by simp [rootIsExplicit, hc]
  rw [← isOtherRoot_iff_pending hs hd hfn hne, ← isOnBarredMount_iff_between hc hn hd.1]
  rw [admitsFile, ← Bool.not_eq_false, admits_eq_false_iff, rulesExclude, if_neg (by simp), hrules,
    hst, hx]
  simp only [hexact, hne]
  cases hk : root.isExplicit with
  | true =>
    -- No mount is left when the include paths are handed out.
    have hpend : ¬ stage.isOtherRoot f = true := by
      rw [isOtherRoot_iff_pending hs hd hfn hne, (hr.kept hc).explicit_last hk]
      exact List.not_mem_nil
    simp [hpend]
  | false => simp [hne]

end Sweep.Plan
