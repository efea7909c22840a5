import Sweep.Proofs.Distinct
import Sweep.Proofs.Excluded
import Sweep.Proofs.Union
/-!
# Order and repeats in a policy

The exclusions and extensions of a policy count as sets, and an include path that comes again adds
nothing. Two policies that differ in no more than that have plans that stay alike from root to root,
although one of them still waits for roots that were handed out. So the same roots are walked, and
each walk comes to the same.
-/

namespace Sweep

/-- Whether the second policy is the first one with exclusions and extensions in any order and
number, and without the include paths that are the same as one before. -/
structure Policy.Condenses (p q : Policy) : Prop where
  excludes : ∀ t, t ∈ p.excludes ↔ t ∈ q.excludes
  extensions : ∀ t, t ∈ p.extensions ↔ t ∈ q.extensions
  includes : AreFirsts q.includes p.includes
  requests : p.requests = q.requests

/-! ## Lists without what is known -/

/-- Whether the second list is the first one without some locations that are known or came
before. -/
inductive Leaves : List Location → List Location → List Location → Prop where
  | nil {known} : Leaves known [] []
  | keep {known ls ms l} : Leaves (known ++ [l]) ls ms → Leaves known (l :: ls) (l :: ms)
  | pass {known ls ms l} : l ∈ known → Leaves known ls ms → Leaves known (l :: ls) ms

namespace Leaves

variable {known more ls ms : List Location} {l : Location}

theorem mono (h : Leaves known ls ms) (hk : known ⊆ more) : Leaves more ls ms := by
  induction h generalizing more with
  | nil => exact .nil
  | @keep known _ _ l _ ih =>
    refine .keep (ih fun m hm => ?_)
    rw [List.mem_append] at hm ⊢
    exact hm.imp_left (hk ·)
  | pass hl _ ih => exact .pass (hk hl) (ih hk)

theorem refl (known ls : List Location) : Leaves known ls ls := by
  induction ls generalizing known with
  | nil => exact .nil
  | cons l ls ih => exact .keep (ih _)

theorem concat (h : Leaves known ls ms) (l : Location) : Leaves known (ls ++ [l]) (ms ++ [l]) := by
  induction h with
  | nil => exact .keep .nil
  | keep _ ih => exact .keep ih
  | pass hl _ ih => exact .pass hl ih

theorem concat_pass (h : Leaves known ls ms) (hl : l ∈ known ∨ l ∈ ls) :
    Leaves known (ls ++ [l]) ms := by
  induction h with
  | nil => exact .pass (by simpa using hl) .nil
  | keep _ ih =>
    refine .keep (ih ?_)
    simp only [List.mem_append, List.mem_cons] at hl ⊢
    grind
  | pass hk _ ih =>
    refine .pass hk (ih ?_)
    rw [List.mem_cons] at hl
    grind

/-- What is left out is known. -/
theorem mem_or (h : Leaves known ls ms) (hl : l ∈ ls) : l ∈ known ∨ l ∈ ms := by
  induction h with
  | nil => cases hl
  | keep _ ih =>
    rw [List.mem_cons] at hl ⊢
    simp only [List.mem_append, List.mem_singleton] at ih
    grind
  | pass hk _ ih =>
    rw [List.mem_cons] at hl
    grind

theorem subset (h : Leaves known ls ms) : ms ⊆ ls := by
  induction h with
  | nil => exact List.Subset.refl _
  | keep _ ih => exact List.cons_subset_cons _ ih
  | pass _ _ ih => exact List.subset_cons_of_subset _ ih

theorem eq_nil_iff (h : Leaves [] ls ms) : ls = [] ↔ ms = [] := by
  cases h with
  | nil => simp
  | keep => simp
  | pass hl => cases hl

/-- When the known ones in front are dropped, both lists begin with the same, or both are empty. -/
theorem dropWhile (h : Leaves known ls ms) {f : Location → Bool}
    (hf : ∀ l, f l = true ↔ l ∈ more) (hk : known ⊆ more) :
    ls.dropWhile f = [] ∧ ms.dropWhile f = [] ∨
      ∃ l ls' ms', ls.dropWhile f = l :: ls' ∧ ms.dropWhile f = l :: ms' ∧
        Leaves (more ++ [l]) ls' ms' := by
  induction h with
  | nil => exact .inl ⟨rfl, rfl⟩
  | @keep known ls ms l h ih =>
    by_cases hl : l ∈ more
    · rw [List.dropWhile_cons_of_pos ((hf l).2 hl), List.dropWhile_cons_of_pos ((hf l).2 hl)]
      refine ih fun m hm => ?_
      rcases List.mem_append.1 hm with hm | hm
      · exact hk hm
      · exact List.mem_singleton.1 hm ▸ hl
    · have hn : ¬ f l = true := mt (hf l).1 hl
      rw [List.dropWhile_cons_of_neg hn, List.dropWhile_cons_of_neg hn]
      refine .inr ⟨l, ls, ms, rfl, rfl, h.mono fun m hm => ?_⟩
      rw [List.mem_append] at hm ⊢
      exact hm.imp_left (hk ·)
  | @pass known ls ms l hl _ ih =>
    rw [List.dropWhile_cons_of_pos ((hf l).2 (hk hl))]
    exact ih hk

/-- Of include paths that are the same, only the first one matters. -/
theorem of_areFirsts {fs ps : List Path} (h : AreFirsts fs ps) : Leaves []
    ((ps.filter Path.isAbsolute).map Path.location)
    ((fs.filter Path.isAbsolute).map Path.location) := by
  induction h with
  | nil => exact .nil
  | @keep fs ps p _ _ ih =>
    rw [List.filter_append, List.filter_append, List.map_append, List.map_append]
    cases hp : p.isAbsolute with
    | true => simpa [hp] using ih.concat p.location
    | false => simpa [hp] using ih
  | @pass fs ps p q _ hq hs ih =>
    rw [List.filter_append, List.map_append]
    cases hp : p.isAbsolute with
    | true =>
      have hl : p.location ∈ (ps.filter Path.isAbsolute).map Path.location := by
        rw [← Path.location_eq_location_iff.2 hs]
        exact List.mem_map_of_mem (List.mem_filter.2 ⟨hq, (Path.isAbsolute_of_same hs).trans hp⟩)
      simpa [hp] using ih.concat_pass (.inr hl)
    | false => simpa [hp] using ih

end Leaves

namespace Plan

/-! ## Plans that are alike -/

/-- Whether two plans differ only in order and repeats: the first may still wait for include paths
that were handed out or come twice. -/
structure Alike (a b : Plan) : Prop where
  pendingMounts : a.pendingMounts = b.pendingMounts
  pendingIncludes : Leaves a.handedOut a.pendingIncludes b.pendingIncludes
  barredMounts : a.barredMounts = b.barredMounts
  exactExclusions : ∀ t, t ∈ a.exactExclusions ↔ t ∈ b.exactExclusions
  stemExclusions : ∀ t, t ∈ a.stemExclusions ↔ t ∈ b.stemExclusions
  rules : ∀ p, p ∈ a.rules.members.map Rule.pattern ↔ p ∈ b.rules.members.map Rule.pattern
  current : a.current = b.current
  handedOut : a.handedOut = b.handedOut

theorem any_congr_mem {α : Type} {as bs : List α} (h : ∀ x, x ∈ as ↔ x ∈ bs) (f : α → Bool) :
    as.any f = bs.any f := by
  rw [Bool.eq_iff_iff, List.any_eq_true, List.any_eq_true]
  simp only [h]

namespace Alike

variable {a b : Plan}

theorem passesOver (h : Alike a b) : a.passesOver = b.passesOver := by
  funext l
  rw [Plan.passesOver, Plan.passesOver, any_congr_mem h.stemExclusions, wasHandedOut, wasHandedOut,
    h.handedOut]

/-- Alike plans hand out the same root, and stay alike. -/
theorem next (h : Alike a b) : a.next.1 = b.next.1 ∧ Alike a.next.2 b.next.2 := by
  have hm : a.pendingMounts.dropWhile a.passesOver = b.pendingMounts.dropWhile b.passesOver := by
    rw [h.pendingMounts, h.passesOver]
  have ho : b.wasHandedOut = a.wasHandedOut := by
    funext l
    rw [wasHandedOut, wasHandedOut, h.handedOut]
  have hi := h.pendingIncludes.dropWhile (f := a.wasHandedOut)
    (fun l => by rw [wasHandedOut, List.contains_iff_mem]) (List.Subset.refl _)
  unfold Plan.next
  rw [hm, ho]
  cases b.pendingMounts.dropWhile b.passesOver with
  | cons point rest =>
    exact ⟨rfl, { h with
      pendingMounts := rfl
      pendingIncludes := h.pendingIncludes.mono (List.subset_append_left _ _)
      current := rfl
      handedOut := by simp only [enter, h.handedOut] }⟩
  | nil =>
    rcases hi with ⟨h1, h2⟩ | ⟨start, ls, ms, h1, h2, hl⟩
    · rw [h1, h2]
      exact ⟨rfl, { h with
        pendingMounts := rfl
        pendingIncludes := .nil
        current := rfl }⟩
    · rw [h1, h2]
      exact ⟨rfl, { h with
        pendingMounts := rfl
        pendingIncludes := by
          simpa only [enter, Location.location_path] using hl
        current := rfl
        handedOut := by simp only [enter, h.handedOut] }⟩

/-! ## What alike plans let in -/

theorem rulesExclude (h : Alike a b) (t : Text) (isDirectory : Bool) :
    a.rulesExclude t isDirectory = b.rulesExclude t isDirectory := by
  have hc (s : RuleSet) : s.covers t = (s.members.map Rule.pattern).any (·.covers (.ofText t)) := by
    rw [List.any_map]
    rfl
  unfold Plan.rulesExclude
  split
  · rw [hc, hc, any_congr_mem h.rules]
  · rw [Bool.eq_iff_iff, RuleSet.applies_iff, RuleSet.applies_iff]
    simp only [h.rules]

theorem rootIsExplicit (h : Alike a b) : a.rootIsExplicit = b.rootIsExplicit := by
  rw [Plan.rootIsExplicit, h.current, ← Plan.rootIsExplicit]

theorem rootLength (h : Alike a b) : a.rootLength = b.rootLength := by
  rw [Plan.rootLength, h.current, ← Plan.rootLength]

theorem stemsExclude (h : Alike a b) (t : Text) (isDirectory : Bool) :
    a.stemsExclude t isDirectory = b.stemsExclude t isDirectory := by
  have hcounts : a.stemCounts = b.stemCounts := by
    funext stem
    rw [stemCounts, stemCounts, h.rootIsExplicit, h.rootLength]
  rw [Plan.stemsExclude, Plan.stemsExclude, any_congr_mem h.stemExclusions, hcounts]

/-- Away from the current root, what is known of other roots is the same: a location that only one
of the plans still waits for was handed out. -/
theorem isOtherRoot (h : Alike a b) {root : Root} (hc : a.current = some root) {p : Path}
    (hp : root.path.location ≠ p.location) : a.isOtherRoot p = b.isOtherRoot p := by
  have hcb : b.current = some root := h.current ▸ hc
  rw [Bool.eq_iff_iff, isOtherRoot_iff hc, isOtherRoot_iff hcb, h.pendingMounts, ← h.handedOut]
  refine or_congr_right ?_
  constructor
  · rintro (hl | hl)
    · exact (h.pendingIncludes.mem_or hl).symm.imp_right fun hk => ⟨hk, hp⟩
    · exact .inr hl
  · exact Or.imp_left (h.pendingIncludes.subset ·)

theorem admits (h : Alike a b) {root : Root} (hc : a.current = some root) {p : Path}
    (hp : root.path.location ≠ p.location) (isDirectory : Bool) :
    a.admits p isDirectory = b.admits p isDirectory := by
  have hexact : a.exactExclusions.contains p.text = b.exactExclusions.contains p.text := by
    rw [Bool.eq_iff_iff, List.contains_iff_mem, List.contains_iff_mem, h.exactExclusions]
  have hbarred : a.isOnBarredMount p = b.isOnBarredMount p := by
    simp only [isOnBarredMount, h.rootLength, h.barredMounts]
  simp only [Plan.admits, h.rulesExclude, hexact, h.stemsExclude, h.isOtherRoot hc hp,
    h.rootIsExplicit, hbarred]

end Alike

end Plan

/-! ## Walks of alike plans -/

namespace Node

variable {a b : Plan}

theorem walkEntries_congr {es : List (List UInt8 × Node)} (hes : AreProper es) {p : Path}
    (h : ∀ name node, named? name es = some node →
      node.walk a (p.child name) = node.walk b (p.child name)) :
    walkEntries a p es = walkEntries b p es := by
  induction es with
  | nil => rfl
  | cons e es ih =>
    obtain ⟨n, x⟩ := e
    obtain ⟨-, hnew, -, hes⟩ := hes
    rw [walkEntries, walkEntries, h n x (by simp [named?_cons])]
    congr 1
    refine ih hes fun name node hn => h name node ?_
    rw [named?_cons, if_neg, hn]
    rintro rfl
    rw [hnew] at hn
    cases hn

/-- Plans that let in the same at a path and below it walk what is there in the same way. -/
theorem walk_congr {node : Node} (hp : node.IsProper) : ∀ p : Path,
    (∀ names, (∀ n ∈ names, Path.IsName n) → ∀ isDirectory,
      a.admits (p.extend names) isDirectory = b.admits (p.extend names) isDirectory) →
    node.walk a p = node.walk b p := by
  refine IsProper.induction ?file ?locked ?link ?directory node hp
  case file =>
    intro content p h
    have hf : a.admitsFile p = b.admitsFile p := h [] (by simp) false
    rw [walk, walk, hf]
  case locked =>
    intro p h
    have hd : a.admitsDirectory p = b.admitsDirectory p := h [] (by simp) true
    rw [walk, walk, hd]
  case link =>
    intro target p _
    rfl
  case directory =>
    intro es hes ih p h
    have hd : a.admitsDirectory p = b.admitsDirectory p := h [] (by simp) true
    have he : walkEntries a p es = walkEntries b p es :=
      walkEntries_congr hes fun name node hn => ih name node hn _ fun names hns =>
        h (name :: names) (List.forall_mem_cons.2 ⟨(AreProper.of_named? hes hn).1, hns⟩)
    rw [walk, walk, hd, he]

end Node

namespace Plan

variable {a b : Plan} {root : Root} {tree : FileTree}

theorem walkRoot_of_alike (h : Alike a b) (hc : a.current = some root)
    (hn : root.path.normal = root.path) (ht : tree.IsProper) :
    a.walkRoot tree root.path = b.walkRoot tree root.path := by
  -- All entries lie strictly below the root, where alike plans let in the same.
  have hentries (es : List (List UInt8 × Node)) (hes : Node.AreProper es) :
      Node.walkEntries a root.path (Node.sortedEntries es) =
        Node.walkEntries b root.path (Node.sortedEntries es) := by
    have hsorted := Node.areProper_sortedEntries es hes
    refine Node.walkEntries_congr hsorted fun name node hnode => ?_
    obtain ⟨hname, hproper⟩ := hsorted.of_named? hnode
    refine Node.walk_congr hproper _ fun names hnames isDirectory => h.admits hc ?_ isDirectory
    have hall : ∀ n ∈ name :: names, Path.IsName n := List.forall_mem_cons.2 ⟨hname, hnames⟩
    exact Path.location_extend_ne hn hall (by simp)
  unfold walkRoot
  cases hf : tree.find? root.path false with
  | none => rfl
  | some found =>
    cases found with
    | file | locked => rfl
    | directory es => exact hentries es (FileTree.isProper_find? ht hf)
    | link =>
      dsimp only
      cases hl : tree.find? root.path true with
      | none => rfl
      | some target =>
        cases target with
        | file | locked | link => rfl
        | directory es => exact hentries es (FileTree.isProper_find? ht hl)

/-- Alike plans hand out the same roots, and walk each of them in the same way. -/
theorem walks_of_alike (h : Alike a b) (ht : tree.IsProper) :
    a.roots = b.roots ∧ a.walks tree = b.walks tree := by
  induction a using run_induction generalizing b with
  | handed a root a' hn ih =>
    obtain ⟨hroot, halike⟩ := h.next
    rcases hb : b.next with ⟨r, b'⟩
    rw [hn, hb] at hroot halike
    obtain rfl : some root = r := hroot
    obtain ⟨hroots, hwalks⟩ := ih halike
    have hh := next_some hn
    rw [roots_of_some hn, roots_of_some hb, hroots, walks, walks, stages_of_some hn,
      stages_of_some hb, List.map_cons, List.map_cons, ← walks, ← walks, hwalks]
    exact ⟨rfl, congrArg (· :: _) (walkRoot_of_alike halike hh.current hh.normal ht)⟩
  | finished a a' hn =>
    obtain ⟨hroot, -⟩ := h.next
    rcases hb : b.next with ⟨r, b'⟩
    rw [hn, hb] at hroot
    obtain rfl : none = r := hroot
    rw [roots_of_none hn, roots_of_none hb, walks, walks, stages_of_none hn, stages_of_none hb]
    exact ⟨rfl, rfl⟩

/-! ## Policies that say the same -/

section Condensed

open Mount

variable {p q : Policy}

theorem mem_filterMap_congr {α β : Type} {as bs : List α} (h : ∀ x, x ∈ as ↔ x ∈ bs)
    (f : α → Option β) (y : β) : y ∈ as.filterMap f ↔ y ∈ bs.filterMap f := by
  simp only [List.mem_filterMap, h]

theorem mem_policyStems_congr (h : p.Condenses q) (t : Text) :
    t ∈ policyStems p ↔ t ∈ policyStems q :=
  mem_filterMap_congr h.excludes stemOf? t

/-- Mounts are judged by the set of the stems alone. -/
theorem thatPass_congr {f g : List Text → Mount → Bool}
    (hfg : ∀ as bs, (∀ t, t ∈ as ↔ t ∈ bs) → f as = g bs) (ms : List Mount) {as bs : List Text}
    (h : ∀ t, t ∈ as ↔ t ∈ bs) : thatPass f as ms = thatPass g bs ms := by
  induction ms generalizing as bs with
  | nil => rfl
  | cons m ms ih =>
    have hs : ∀ t, t ∈ as ++ specialStems [m] ↔ t ∈ bs ++ specialStems [m] := fun t => by
      rw [List.mem_append, List.mem_append, h]
    rw [thatPass, thatPass, hfg as bs h, ih hs]

theorem isPassed_congr {as bs : List Text} (h : ∀ t, t ∈ as ↔ t ∈ bs) (m : Mount) :
    m.isPassed as = m.isPassed bs := by
  rw [isPassed, isPassed, any_congr_mem h]

theorem requestsDevices_congr (h : p.requests = q.requests) :
    p.requestsDevices = q.requestsDevices := by
  have hk (k : DeviceKind) : p.requests k = q.requests k := congrFun h k
  exact congrArg₂ (· || ·) (congrArg₂ (· || ·) (congrArg₂ (· || ·) (hk .hardDisc) (hk .optical))
    (hk .removable)) (hk .network)

theorem isTaken_congr (h : p.requests = q.requests) {as bs : List Text}
    (hs : ∀ t, t ∈ as ↔ t ∈ bs) : isTaken p as = isTaken q bs := by
  funext m
  rw [isTaken, isTaken, isPassed_congr hs, isRequested, isRequested, h]

theorem isBarred_congr (h : p.requests = q.requests) {as bs : List Text}
    (hs : ∀ t, t ∈ as ↔ t ∈ bs) : isBarred p as = isBarred q bs := by
  funext m
  rw [isBarred, isBarred, isPassed_congr hs, isRequested, isRequested, h, requestsDevices_congr h]

theorem alike_ofPolicy (h : p.Condenses q) (mounts : List Mount) :
    Alike (ofPolicy p mounts) (ofPolicy q mounts) := by
  have htaken : takenMounts p mounts = takenMounts q mounts :=
    thatPass_congr (fun _ _ => isTaken_congr h.requests) mounts (mem_policyStems_congr h)
  have hbarred : thatPass (isBarred p) (policyStems p) mounts =
      thatPass (isBarred q) (policyStems q) mounts :=
    thatPass_congr (fun _ _ => isBarred_congr h.requests) mounts (mem_policyStems_congr h)
  have hleaves : Leaves [] (absoluteIncludes p) (absoluteIncludes q) := .of_areFirsts h.includes
  exact {
    pendingMounts := by rw [pendingMounts_ofPolicy, pendingMounts_ofPolicy, htaken]
    pendingIncludes := by
      rw [handedOut_ofPolicy, pendingIncludes_ofPolicy, pendingIncludes_ofPolicy, htaken]
      simp only [hleaves.eq_nil_iff]
      split
      · exact .refl _ _
      · exact hleaves
    barredMounts := by rw [barredMounts_ofPolicy, barredMounts_ofPolicy, hbarred]
    exactExclusions := by
      rw [exactExclusions_ofPolicy, exactExclusions_ofPolicy]
      exact mem_filterMap_congr h.excludes exactOf?
    stemExclusions := by
      intro t
      rw [stemExclusions_ofPolicy, stemExclusions_ofPolicy, List.mem_append, List.mem_append,
        mem_policyStems_congr h]
    rules := by
      intro r
      rw [rules_ofPolicy, rules_ofPolicy, RuleSet.mem_patterns_ofList, RuleSet.mem_patterns_ofList]
      simp only [List.map_append, List.mem_append, List.mem_map,
        mem_filterMap_congr h.excludes, h.extensions]
    current := by rw [current_ofPolicy, current_ofPolicy]
    handedOut := by rw [handedOut_ofPolicy, handedOut_ofPolicy] }

/-- Exclusions and extensions count as sets, and include paths that come again add nothing: whatever
is mounted and whatever the tree holds, the same roots are handed out in the same order, and walking
them visits the same files in the same order and leaves out and fails to read as many. -/
theorem walk_of_condensed (h : p.Condenses q) (mounts : List Mount) {tree : FileTree}
    (ht : tree.IsProper) :
    (ofPolicy p mounts).roots = (ofPolicy q mounts).roots ∧
    (ofPolicy p mounts).walk tree = (ofPolicy q mounts).walk tree := by
  obtain ⟨hroots, hwalks⟩ := walks_of_alike (alike_ofPolicy h mounts) ht
  have hlength : (ofPolicy p mounts).stages.length = (ofPolicy q mounts).stages.length := by
    simpa only [roots, List.length_map] using congrArg List.length hroots
  exact ⟨hroots, by rw [walk, walk, hlength, hwalks]⟩

/-- Asks for hard discs and two include paths, and says most of it twice. -/
def wordy : Policy where
  includes := [.ofText "/d".toList, .ofText "/e".toList, .ofText "//d/.".toList]
  excludes := ["*.log".toList, "/d/x/".toList, "*.log".toList]
  extensions := ["iso".toList, "bak".toList]
  hardDiscs := true

/-- Asks for the same once. -/
def terse : Policy where
  includes := [.ofText "/d".toList, .ofText "/e".toList]
  excludes := ["/d/x/".toList, "*.log".toList]
  extensions := ["bak".toList, "iso".toList]
  hardDiscs := true

/-- The plan of the wordy policy waits for a root once more, and all comes to the same. -/
theorem wordy_walks_as_terse : wordy.Condenses terse ∧ logTree.IsProper ∧
    (ofPolicy wordy []).pendingIncludes ≠ (ofPolicy terse []).pendingIncludes ∧
    (ofPolicy wordy []).walk logTree = (ofPolicy terse []).walk logTree := by
  have hfirsts : AreFirsts terse.includes wordy.includes := by
    have hd : Path.distinct wordy.includes = terse.includes := by decide
    exact hd ▸ areFirsts_distinct wordy.includes
  have h : wordy.Condenses terse := {
    excludes := fun t => by
      simp only [wordy, terse, List.mem_cons, List.not_mem_nil, or_false]
      grind
    extensions := fun t => by
      simp only [wordy, terse, List.mem_cons, List.not_mem_nil, or_false]
      exact or_comm
    includes := hfirsts
    requests := rfl }
  exact ⟨h, isProper_logTree, by decide, (walk_of_condensed h [] isProper_logTree).2⟩

end Condensed

end Plan

end Sweep
