import Sweep.Proofs.Encoding
import Sweep.Proofs.Spared
/-!
# Include paths

A file at or below an include path is scanned whatever device it lives on, so says the policy. We
prove when this is so: if the deepest root above the file is explicit, always, and if it is a mount
that was asked for, unless that mount cuts the file off. An include path below the stem of an
exclusion has no mount roots, so all of it is scanned.
-/

namespace Sweep.Plan

open Mount

variable {policy : Policy} {mounts : List Mount} {plan stage : Plan} {root : Root} {tree : FileTree}
  {p f : Path} {stem : Text}

/-- A file at or below an include path has a deepest root, and that is at or below the include
path, too. -/
theorem exists_deepest_of_include (mounts : List Mount) (ht : tree.IsProper)
    (hi : p ∈ policy.includes) (ha : p.isAbsolute = true) (hl : tree.LeadsTo p.normal f) :
    ∃ root stage, (root, stage) ∈ (ofPolicy policy mounts).stages ∧
      IsDeepest (ofPolicy policy mounts) root f ∧ root.path.isUnder p.normal = true ∧
      tree.LeadsTo root.path f := by
  have hp := p.normal_normal
  obtain ⟨r, hr, he⟩ := root_of_mem_includes (mem_includes hi ha mounts)
  have he := path_eq_of_location hr he
  have hu := (hl.isUnder ht hp).2
  rw [← he] at hu
  obtain ⟨root, stage, hs, hd, hrp⟩ := exists_isDeepest hr hu
  rw [he] at hrp
  exact ⟨root, stage, hs, hd, hrp, hl.between ht hp (normal_of_mem_stages hs) hrp hd.1⟩

/-- A file at or below an include path that nothing excludes is visited exactly if its deepest root
does not cut it off. That root lies at or below the include path; if it is explicit, it cuts nothing
off. -/
theorem include_visited_iff (policy : Policy) (mounts : List Mount) (ht : tree.IsProper)
    (hi : p ∈ policy.includes) (ha : p.isAbsolute = true) (hl : tree.LeadsTo p.normal f)
    (hf : (ofPolicy policy mounts).Spares f) (hn : (ofPolicy policy mounts).NoStemOf f) :
    ∃ root stage, (root, stage) ∈ (ofPolicy policy mounts).stages ∧
      IsDeepest (ofPolicy policy mounts) root f ∧ root.path.isUnder p = true ∧
      (f ∈ ((ofPolicy policy mounts).walk tree).2.visited ↔ ¬ CutsOff stage root f) := by
  obtain ⟨root, stage, hs, hd, hu, hlr⟩ := exists_deepest_of_include mounts ht hi ha hl
  have hst := stemsExclude_eq_false (stage_noStemOf hs hn)
  refine ⟨root, stage, hs, hd, ?_, mem_visited_iff_of_spares ht hs hd hlr hf hst⟩
  rwa [Path.isUnder_normal] at hu

/-- A file in a directory of another one. -/
def deviceTree : FileTree :=
  Node.directory [([0x64, 0x61, 0x74, 0x61], .directory [([0x75, 0x73, 0x62],
    .directory [([0x78], .file [])])])]

theorem isProper_deviceTree : deviceTree.IsProper := by decide

theorem leadsTo_deviceTree :
    deviceTree.LeadsTo (Path.ofText "/data".toList).normal (.ofText "/data/usb/x".toList) := by
  have hn : (Path.ofText "/data".toList).normal = .ofText "/data".toList := by decide
  have hdata : Path.ofText "/data".toList = Path.root.extend [[0x64, 0x61, 0x74, 0x61]] := by decide
  have he : deviceTree.entered? (.ofText "/data".toList) =
      some (.directory [([0x75, 0x73, 0x62], .directory [([0x78], .file [])])]) :=
    FileTree.entered?_of_below? isProper_deviceTree rfl hdata rfl (by simp) (by decide) (by decide)
  rw [hn]
  exact ⟨_, [[0x75, 0x73, 0x62], [0x78]], [], he, rfl, by decide, by decide, by decide⟩

/-- A removable device that is mounted on a disc. -/
def deviceOn (disc : Path) : List Mount :=
  [.hardDisc disc, .removable (.ofText "/data/usb".toList)]

/-- Asks for hard discs, and for a path whatever device it lives on. -/
def includeData : Policy := { includes := [.ofText "/data".toList], hardDiscs := true }

/-- The device is scanned where the disc is mounted above the include path. -/
theorem device_of_include_visited :
    (includeData.includes = [.ofText "/data".toList] ∧
      (ofPolicy includeData (deviceOn .root)).Spares (.ofText "/data/usb/x".toList) ∧
      (ofPolicy includeData (deviceOn .root)).NoStemOf (.ofText "/data/usb/x".toList)) ∧
    Path.ofText "/data/usb/x".toList ∈
      ((ofPolicy includeData (deviceOn .root)).walk deviceTree).2.visited := by
  have hf : (ofPolicy includeData (deviceOn .root)).Spares (.ofText "/data/usb/x".toList) :=
    spares_of_stems_alone (by decide) (by decide) (by decide)
  have hn : (ofPolicy includeData (deviceOn .root)).NoStemOf (.ofText "/data/usb/x".toList) := by
    unfold NoStemOf
    decide
  obtain ⟨root, stage, hs, -, hu, hiff⟩ := include_visited_iff includeData (deviceOn .root)
    isProper_deviceTree (p := .ofText "/data".toList) (by decide) (by decide)
    leadsTo_deviceTree hf hn
  refine ⟨⟨rfl, hf, hn⟩, hiff.2 ?_⟩
  rintro ⟨hk, -, -⟩
  -- The only mount root is the root of the tree, which is not at or below the include path.
  have hr := mem_roots_of_mem_stages hs
  obtain ⟨m, hm, he⟩ := mount_of_root hr hk
  have htaken : takenMounts includeData (deviceOn .root) = [.hardDisc .root] := by decide
  rw [htaken, List.mem_singleton] at hm
  rw [path_eq_of_location hr he.symm, hm] at hu
  exact absurd hu (by decide)

/-- It is lost where the disc is mounted at the include path. -/
theorem device_on_included_disc_lost :
    (includeData.includes = [.ofText "/data".toList] ∧
      deviceTree.LeadsTo (Path.ofText "/data".toList).normal (.ofText "/data/usb/x".toList) ∧
      (ofPolicy includeData (deviceOn (.ofText "/data".toList))).Spares
        (.ofText "/data/usb/x".toList) ∧
      (ofPolicy includeData (deviceOn (.ofText "/data".toList))).NoStemOf
        (.ofText "/data/usb/x".toList)) ∧
    Path.ofText "/data/usb/x".toList ∉
      ((ofPolicy includeData (deviceOn (.ofText "/data".toList))).walk deviceTree).2.visited := by
  let disc := deviceOn (.ofText "/data".toList)
  have hf : (ofPolicy includeData disc).Spares (.ofText "/data/usb/x".toList) :=
    spares_of_stems_alone (by decide) (by decide) (by decide)
  have hn : (ofPolicy includeData disc).NoStemOf (.ofText "/data/usb/x".toList) := by
    unfold NoStemOf
    decide
  have hnext : (ofPolicy includeData disc).next =
      (some ⟨.ofText "/data".toList, .mount⟩, (ofPolicy includeData disc).next.2) :=
    Prod.ext (by decide) rfl
  have hs : (⟨.ofText "/data".toList, .mount⟩, (ofPolicy includeData disc).next.2) ∈
      (ofPolicy includeData disc).stages := by
    rw [stages_of_some hnext]
    exact List.mem_cons_self
  have hd : IsDeepest (ofPolicy includeData disc) ⟨.ofText "/data".toList, .mount⟩
      (.ofText "/data/usb/x".toList) := by
    refine ⟨by decide, ?_⟩
    intro r hr _
    -- The mount and the include path are at one location, so there is no other root.
    have hm : (ofPolicy includeData disc).pendingMounts =
        [(Path.ofText "/data".toList).location] := by decide
    have hi : (ofPolicy includeData disc).pendingIncludes =
        [(Path.ofText "/data".toList).location] := by decide
    have hp := root_pending hr
    rw [hm, hi, or_self, List.mem_singleton] at hp
    rw [path_eq_of_location hr hp]
    decide
  have hl := leadsTo_deviceTree
  refine ⟨⟨rfl, hl, hf, hn⟩, ?_⟩
  rw [show (Path.ofText "/data".toList).normal = .ofText "/data".toList by decide] at hl
  rw [mem_visited_iff_of_spares isProper_deviceTree hs hd hl hf
    (stemsExclude_eq_false (stage_noStemOf hs hn)), not_not]
  refine ⟨rfl, by decide, .inr ?_⟩
  decide

/-! ## Below the stem of an exclusion -/

/-- No mount root lies where a stem begins the path. -/
theorem isExplicit_of_stem (h : root ∈ (ofPolicy policy mounts).roots)
    (hs : stem ∈ (ofPolicy policy mounts).stemExclusions) (hp : stem <+: root.path.text) :
    root.isExplicit = true := by
  rw [← Bool.not_eq_false]
  intro hk
  exact not_covered_of_root h hk hs (stemCovers_iff.2 (.inl hp))

/-- A stem that is shorter than an explicit root does not exclude anything below the root. -/
theorem stemsExclude_eq_false_of_shorter (hc : stage.current = some root)
    (hk : root.isExplicit = true)
    (h : ∀ t ∈ stage.stemExclusions, t <+: f.text → t.byteLength < root.path.byteLength) :
    stage.stemsExclude f.text false = false := by
  rw [Bool.eq_false_iff]
  intro hs
  obtain ⟨t, ht, hcov, hcount⟩ := stemsExclude_iff.1 hs
  simp only [stemCovers, Bool.false_and, Bool.or_false, List.isPrefixOf_iff_prefix] at hcov
  have hlt := h t ht hcov
  simp only [stemCounts, rootIsExplicit, rootLength, hc, hk, Bool.not_true, Bool.false_or,
    decide_eq_true_eq] at hcount
  omega

/-- An include path goes through the stem of an exclusion that begins it: a file at or below it is
visited if no rule and no exact path excludes it, and all stems that begin the file's path begin the
include path, too, and are shorter. Mounts at, above or below the include path do not matter. -/
theorem drills_through (policy : Policy) (mounts : List Mount) (ht : tree.IsProper)
    (hi : p ∈ policy.includes) (ha : p.isAbsolute = true) (hu : p.normal.text?.isSome = true)
    (hs : stem ∈ policyStems policy) (hp : stem <+: p.normal.text) (hl : tree.LeadsTo p.normal f)
    (hf : (ofPolicy policy mounts).Spares f)
    (hstems : ∀ t ∈ (ofPolicy policy mounts).stemExclusions, t <+: f.text →
      t <+: p.normal.text ∧ t ≠ p.normal.text) :
    f ∈ ((ofPolicy policy mounts).walk tree).2.visited := by
  obtain ⟨root, stage, hst, hd, hrp, hlr⟩ := exists_deepest_of_include mounts ht hi ha hl
  obtain ⟨hr, hc⟩ := Reachable.made.of_mem_stages hst
  have hn := normal_of_mem_stages hst
  have hk : root.isExplicit = true := by
    have hs : stem ∈ (ofPolicy policy mounts).stemExclusions := by
      rw [stemExclusions_ofPolicy]
      exact List.mem_append_left _ hs
    apply isExplicit_of_stem (mem_roots_of_mem_stages hst) hs
    exact hp.trans (Path.text_prefix_of_isUnder hn p.normal_normal hl.components_ne_nil hrp)
  obtain ⟨u, hu⟩ := Option.isSome_iff_exists.1 hu
  have hlen : p.normal.text.byteLength = p.normal.bytes.length := Utf8.byteLength_lenient hu
  have hle := Path.length_le_of_isUnder hn p.normal_normal hrp
  rw [mem_visited_iff_of_spares ht hst hd hlr hf]
  · intro hcut
    rw [hcut.1] at hk
    cases hk
  · apply stemsExclude_eq_false_of_shorter hc hk
    intro t htm hpre
    rw [hr.unchanged stemExclusions fun _ => rfl] at htm
    obtain ⟨hpre, hne⟩ := hstems t htm hpre
    have hlt := Path.byteLength_lt_of_prefix hpre hne
    rw [Path.byteLength]
    omega

/-- Asks for hard discs, but for nothing of them except a path. -/
def onlyData : Policy :=
  { includes := [.ofText "/data".toList], excludes := ["/".toList], hardDiscs := true }

/-- A device that was not asked for, on a disc at the include path. -/
theorem device_below_exclusion_visited :
    ("/".toList ∈ policyStems onlyData ∧
      (ofPolicy onlyData (deviceOn (.ofText "/data".toList))).Spares
        (.ofText "/data/usb/x".toList)) ∧
    Path.ofText "/data/usb/x".toList ∈
      ((ofPolicy onlyData (deviceOn (.ofText "/data".toList))).walk deviceTree).2.visited := by
  have hf : (ofPolicy onlyData (deviceOn (.ofText "/data".toList))).Spares
      (.ofText "/data/usb/x".toList) := spares_of_stems_alone (by decide) (by decide) (by decide)
  have hs : "/".toList ∈ policyStems onlyData := by decide
  refine ⟨⟨hs, hf⟩, ?_⟩
  exact drills_through onlyData (deviceOn (.ofText "/data".toList)) isProper_deviceTree
    (p := .ofText "/data".toList) (by decide) (by decide) (by decide) hs
    (by decide) leadsTo_deviceTree hf (by decide)

end Sweep.Plan
