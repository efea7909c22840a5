import Sweep.Proofs.Included
/-!
# Files on devices

The device that a file lives on is the deepest mount above it. A file that nothing excludes is
visited if its device was asked for, and only from an include path if it was not: no mount comes
between the device and the file, and a device that was not asked for is barred to the mount roots
above it. One stem, `//`, keeps the root of the file tree from being handed out as a mount although
it begins no path below the root.
-/

namespace Sweep.Plan

open Mount

/-- The file lies below the mount, and no mount lies deeper or at the file itself. -/
structure IsDeviceOf (mounts : List Mount) (m : Mount) (f : Path) : Prop where
  mem : m ∈ mounts
  below : f.isBelow m.point = true
  deepest : ∀ n ∈ mounts, f.isUnder n.point = true → m.point.isUnder n.point = true

variable {policy : Policy} {mounts : List Mount} {plan stage : Plan} {root : Root} {tree : FileTree}
  {p f : Path} {m n : Mount}

theorem IsDeviceOf.isBelow (h : IsDeviceOf mounts m f) (hn : n ∈ mounts)
    (hu : f.isUnder n.point = true) : f.isBelow n.point = true := by
  rw [Path.isBelow_iff]
  refine ⟨hu, ?_⟩
  intro hnf
  exact (Path.isBelow_iff.1 h.below).2 (Path.isUnder_trans (h.deepest n hn hu) hnf)

/-! ## Mounts above a file that no stem begins -/

/-- Such a mount is judged by its kind when the plan is made. -/
theorem isPassed_eq_false {before after : List Mount}
    (hn : (ofPolicy policy (before ++ n :: after)).NoStemOf f) (hp : n.stem <+: f.text) :
    n.isPassed (policyStems policy ++ specialStems before) = false := by
  unfold NoStemOf at hn
  rw [stemExclusions_ofPolicy, specialStems_append, specialStems_cons] at hn
  simp only [isPassed, Bool.or_eq_false_iff, List.any_eq_false, List.isPrefixOf_iff_prefix]
  constructor
  · rw [Bool.eq_false_iff]
    intro hs
    have hmem : n.stem ∈ specialStems [n] := by simp [specialStems, hs]
    exact hn n.stem (by simp [hmem]) hp
  · intro t ht hpre
    apply hn t _ (hpre.trans hp)
    rcases List.mem_append.1 ht with ht | ht <;> simp [ht]

theorem pending_of_requested (hn : (ofPolicy policy mounts).NoStemOf f) (hm : n ∈ mounts)
    (hp : n.stem <+: f.text) (hr : n.isRequested policy = true) :
    n.point.location ∈ (ofPolicy policy mounts).pendingMounts := by
  obtain ⟨before, after, rfl⟩ := List.append_of_mem hm
  rw [pendingMounts_ofPolicy]
  apply List.mem_map_of_mem
  apply mem_thatPass_iff.2
  exact ⟨before, after, rfl, by rw [isTaken, isPassed_eq_false hn hp, hr]; rfl⟩

theorem barred_of_not_requested (hn : (ofPolicy policy mounts).NoStemOf f) (hm : n ∈ mounts)
    (hp : n.stem <+: f.text) (hr : n.isRequested policy = false)
    (hd : policy.requestsDevices = true) :
    n.point.location ∈ (ofPolicy policy mounts).barredMounts := by
  obtain ⟨before, after, rfl⟩ := List.append_of_mem hm
  rw [barredMounts_ofPolicy]
  apply List.mem_map_of_mem
  apply mem_thatPass_iff.2
  exact ⟨before, after, rfl, by rw [isBarred, isPassed_eq_false hn hp, hr, hd]; rfl⟩

/-- A directory above such a file is not suppressed, unless it is the root of the file tree. -/
theorem isSuppressed_eq_false (hne : p.normal.components ≠ []) (hf : f.normal = f)
    (hb : f.isBelow p = true) (hn : plan.NoStemOf f)
    (hroot : ¬ (p.normal = Path.root ∧ ['/', '/'] ∈ plan.stemExclusions)) :
    plan.isSuppressed p.location = false := by
  have hp := p.normal_normal
  obtain ⟨hu, -⟩ := Path.isBelow_iff.1 hb
  rw [← Path.isUnder_normal] at hu
  rw [isSuppressed, List.any_eq_false]
  intro t ht hcov
  rw [Path.path_location] at hcov
  rcases stemCovers_iff.1 hcov with hpre | rfl
  · exact hn t ht (hpre.trans (Path.text_prefix_of_isUnder hf hp hne hu))
  · rcases Path.root_or_isOpen hp hne with hr | ho
    · apply hroot
      rw [hr] at ht
      exact ⟨hr, ht⟩
    · -- The text of the file goes on with the separator that ends the stem.
      have hb' : f.isBelow p.normal = true := by rwa [Path.isBelow_normal]
      obtain ⟨rest, hrest⟩ := Path.text_of_goesOnFrom (Path.goesOnFrom_of_isBelow hf hp ho hb')
      exact hn _ ht ⟨rest, by simp [hrest]⟩

/-! ## Devices that were asked for -/

/-- A device that was asked for is a root, unless it is suppressed as the root of the file tree. -/
theorem root_of_requested (hf : f.normal = f) (hb : f.isBelow n.point = true)
    (hne : n.point.normal.components ≠ []) (hn : (ofPolicy policy mounts).NoStemOf f)
    (hm : n ∈ mounts) (hr : n.isRequested policy = true)
    (hroot : ¬ (n.point.normal = Path.root ∧
      ['/', '/'] ∈ (ofPolicy policy mounts).stemExclusions)) :
    ∃ r ∈ (ofPolicy policy mounts).roots, r.path = n.point.normal := by
  have hstem := stem_prefix hf hb (.inr (by rwa [Path.components_normal] at hne))
  have hpend := pending_of_requested hn hm hstem hr
  rcases mount_becomes_root hpend with h | h | ⟨r, hr, he⟩
  · rw [isSuppressed_eq_false hne hf hb hn hroot] at h
    cases h
  · simp at h
  · exact ⟨r, hr, path_eq_of_location hr he⟩

/-- A root at or below its device does not cut a file off. -/
theorem not_cutsOff_of_device (hs : (root, stage) ∈ (ofPolicy policy mounts).stages)
    (hd : IsDeviceOf mounts m f) (hu : root.path.isUnder m.point = true) :
    ¬ CutsOff stage root f := by
  rintro ⟨-, -, hp | ⟨l, hl, hfl, hlr⟩⟩
  · have hp := pendingMounts_subset hs hp
    rw [pendingMounts_ofPolicy] at hp
    obtain ⟨n, hn, he⟩ := List.mem_map.1 hp
    rw [Path.location_eq_location_iff, Path.same_iff] at he
    have hfn : f.isUnder n.point = true := by simp [Path.isUnder_iff, he]
    have hb := Path.isBelow_iff.1 (hd.isBelow (mem_of_mem_thatPass hn) hfn)
    exact hb.2 (by simp [Path.isUnder_iff, he])
  · have hr := (Reachable.made.of_mem_stages hs).1
    rw [hr.unchanged barredMounts fun _ => rfl, barredMounts_ofPolicy] at hl
    obtain ⟨n, hn, rfl⟩ := List.mem_map.1 hl
    rw [Path.path_location, Path.isUnder_normal] at hfl
    -- The barred mount is at or above the device, so it is at or above the root.
    have hm := hd.deepest n (mem_of_mem_thatPass hn) hfl
    apply (Path.isBelow_iff.1 hlr).2
    rw [Path.path_location, Path.isUnder_normal]
    exact Path.isUnder_trans hu hm

/-- Below a root that lies on its device, a file that nothing excludes is visited. -/
theorem visited_of_root_on_device (ht : tree.IsProper) (hd : IsDeviceOf mounts m f)
    (hf : (ofPolicy policy mounts).Spares f) (hn : (ofPolicy policy mounts).NoStemOf f)
    (hl : tree.LeadsTo m.point.normal f) (hr : root ∈ (ofPolicy policy mounts).roots)
    (hu : f.isUnder root.path = true) (hm : root.path.isUnder m.point = true) :
    f ∈ ((ofPolicy policy mounts).walk tree).2.visited := by
  obtain ⟨deepest, stage, hs, hdeep, hdr⟩ := exists_isDeepest hr hu
  have hdm := Path.isUnder_trans hdr hm
  have hdl := hl.between ht m.point.normal_normal (normal_of_mem_stages hs)
    (by rwa [Path.isUnder_normal]) hdeep.1
  rw [mem_visited_iff_of_spares ht hs hdeep hdl hf (stemsExclude_eq_false (stage_noStemOf hs hn))]
  exact not_cutsOff_of_device hs hd hdm

theorem visited_of_requested (ht : tree.IsProper) (hd : IsDeviceOf mounts m f)
    (hf : (ofPolicy policy mounts).Spares f) (hn : (ofPolicy policy mounts).NoStemOf f)
    (hk : n ∈ mounts) (hs : n.point.same m.point = true) (hr : n.isRequested policy = true)
    (hl : tree.LeadsTo m.point.normal f)
    (hroot : ¬ (m.point.normal = Path.root ∧
      ['/', '/'] ∈ (ofPolicy policy mounts).stemExclusions)) :
    f ∈ ((ofPolicy policy mounts).walk tree).2.visited := by
  have he : n.point.normal = m.point.normal := Path.normal_eq_normal_iff.2 hs
  obtain ⟨hfn, hu⟩ := hl.isUnder ht m.point.normal_normal
  have hb : f.isBelow n.point = true := by
    apply hd.isBelow hk
    rwa [← Path.isUnder_normal, he]
  have hne := hl.components_ne_nil
  rw [← he] at hroot hne
  obtain ⟨r, hr, hrp⟩ := root_of_requested hfn hb hne hn hk hr hroot
  rw [he] at hrp
  apply visited_of_root_on_device ht hd hf hn hl hr
  · rwa [hrp]
  · rw [hrp, Path.normal_isUnder]
    exact Path.isUnder_self _

/-! ## The root of the file tree -/

/-- With the stem `//` a root above a file whose device is the root of the file tree is explicit. -/
theorem isExplicit_of_device_at_root (hd : IsDeviceOf mounts m f) (hm : m.point.normal = Path.root)
    (h : ['/', '/'] ∈ (ofPolicy policy mounts).stemExclusions)
    (hr : root ∈ (ofPolicy policy mounts).roots) (hne : root.path.components ≠ [])
    (hu : f.isUnder root.path = true) : root.isExplicit = true := by
  rw [← Bool.not_eq_false]
  intro hk
  -- A mount root above the file is at or above its device.
  obtain ⟨n, hn, he⟩ := mount_of_root hr hk
  have hrn := path_eq_of_location hr he.symm
  rw [hrn, Path.isUnder_normal] at hu
  have hmn := hd.deepest n (mem_of_mem_thatPass hn) hu
  rw [← Path.isUnder_normal, ← hrn, ← Path.normal_isUnder, hm] at hmn
  have ha := Path.isAbsolute_of_isUnder (p := Path.root) rfl hmn hne
  have hroot : root.path = Path.root :=
    Path.eq_of_same (normal_of_mem_roots hr) (by decide)
      (Path.same_of_isUnder (Path.isUnder_root ha) hmn)
  apply not_covered_of_root hr hk h
  rw [hroot]
  exact stemCovers_iff.2 (.inr rfl)

/-- If the device is suppressed as the root of the file tree, include paths alone count. -/
theorem visited_iff_of_root (ht : tree.IsProper) (hd : IsDeviceOf mounts m f)
    (hf : (ofPolicy policy mounts).Spares f) (hn : (ofPolicy policy mounts).NoStemOf f)
    (hl : tree.LeadsTo m.point.normal f) (hm : m.point.normal = Path.root)
    (h : ['/', '/'] ∈ (ofPolicy policy mounts).stemExclusions) :
    f ∈ ((ofPolicy policy mounts).walk tree).2.visited ↔
      ∃ l ∈ (ofPolicy policy mounts).includes, f.isUnder l.path = true := by
  constructor
  · intro hv
    obtain ⟨root, stage, hs, hv⟩ := mem_visited_iff.1 hv
    have hr := mem_roots_of_mem_stages hs
    have hu := (isDeepest_of_mem_visited ht hs hv).1
    obtain ⟨node, he⟩ := entered?_of_mem_visited hv
    have hne := FileTree.components_ne_nil_of_entered? he
    exact isUnder_include hr (isExplicit_of_device_at_root hd hm h hr hne hu) hu
  · rintro ⟨l, hi, hu⟩
    obtain ⟨r, hr, rfl⟩ := root_of_mem_includes hi
    have hroot := isUnder_root_of_mem_includes hi
    rw [Path.path_location, Path.isUnder_normal] at hu
    rw [Path.path_location, Path.normal_isUnder, ← hm, Path.isUnder_normal] at hroot
    exact visited_of_root_on_device ht hd hf hn hl hr hu hroot

/-! ## Devices that were not asked for -/

/-- Below a mount root, a barred mount lets no file in. -/
theorem admitsFile_of_barred (hs : (root, stage) ∈ (ofPolicy policy mounts).stages)
    (hk : root.isExplicit = false) (hu : f.isUnder root.path = true)
    (hb : p.location ∈ (ofPolicy policy mounts).barredMounts) (hp : f.isUnder p = true)
    (hr : p.normal.isBelow root.path = true) : stage.admitsFile f = false := by
  obtain ⟨hreach, hc⟩ := Reachable.made.of_mem_stages hs
  apply admits_eq_false_iff.2
  refine .inr (.inr (.inr (.inr ⟨by rw [rootIsExplicit, hc]; exact hk, ?_⟩)))
  rw [isOnBarredMount_iff_between hc (normal_of_mem_stages hs) hu,
    hreach.unchanged barredMounts fun _ => rfl]
  exact ⟨p.location, hb, by simpa using hp, hr⟩

/-- A mount root above a device that was not asked for is above the device's own point. -/
theorem isBelow_root_of_not_requested (hd : IsDeviceOf mounts m f)
    (hno : ∀ n ∈ mounts, n.point.same m.point = true → n.isRequested policy = false)
    (hr : root ∈ (ofPolicy policy mounts).roots) (hk : root.isExplicit = false)
    (hu : f.isUnder root.path = true) :
    f ≠ root.path ∧ m.point.normal.isBelow root.path = true := by
  obtain ⟨n, hn, he⟩ := mount_of_root hr hk
  have hmem := mem_of_mem_thatPass hn
  rw [path_eq_of_location hr he.symm] at hu ⊢
  rw [Path.isUnder_normal] at hu
  have hb := hd.isBelow hmem hu
  have hmn := hd.deepest n hmem hu
  constructor
  · rintro rfl
    exact (Path.isBelow_iff.1 hb).2 (by simp)
  · rw [Path.isBelow_normal, Path.isBelow_iff, Path.normal_isUnder]
    refine ⟨hmn, ?_⟩
    intro hnm
    have hreq := isRequested_of_mem_takenMounts hn
    rw [Path.isUnder_normal] at hnm
    rw [hno n hmem (Path.same_of_isUnder hnm hmn)] at hreq
    cases hreq

/-- A file on a device that was not asked for is visited from an explicit root. -/
theorem isExplicit_of_not_requested (ht : tree.IsProper) (hq : policy.requestsDevices = true)
    (hd : IsDeviceOf mounts m f) (hn : (ofPolicy policy mounts).NoStemOf f)
    (hpoint : m.point.components ≠ [])
    (hno : ∀ n ∈ mounts, n.point.same m.point = true → n.isRequested policy = false)
    (hs : (root, stage) ∈ (ofPolicy policy mounts).stages)
    (hv : f ∈ (stage.walkRoot tree root.path).visited) : root.isExplicit = true := by
  rw [← Bool.not_eq_false]
  intro hk
  have hu := (isDeepest_of_mem_visited ht hs hv).1
  have hreach := reaches_of_mem_visited ht hv
  obtain ⟨hne, hb⟩ :=
    isBelow_root_of_not_requested hd hno (mem_roots_of_mem_stages hs) hk hu
  have hstem := stem_prefix (normal_of_mem_visited ht hs hv) hd.below (.inr hpoint)
  have hbarred := barred_of_not_requested hn hd.mem hstem (hno m hd.mem (Path.same_self _)) hq
  have hout := admitsFile_of_barred hs hk hu hbarred (Path.isBelow_iff.1 hd.below).1 hb
  obtain ⟨node, names, content, -, -, rfl, rfl | ⟨-, ha⟩⟩ := hreach
  · exact hne (Path.extend_nil _)
  · rw [hout] at ha
    cases ha

/-- A file that nothing excludes, below a mount and not a mount point itself, is visited if its
device was asked for, unless that is mounted at the root of the file tree and there is a stem `//`.
Then it is visited exactly if it is at or below an include path. If its device was not asked for, it
is visited only if it is at or below an include path. -/
theorem device_decides (policy : Policy) (mounts : List Mount) (m : Mount) (ht : tree.IsProper)
    (hq : policy.requestsDevices = true) (hd : IsDeviceOf mounts m f)
    (hf : (ofPolicy policy mounts).Spares f) (hn : (ofPolicy policy mounts).NoStemOf f)
    (hl : tree.LeadsTo m.point.normal f) :
    ((∃ k ∈ mounts, k.point.same m.point = true ∧ k.isRequested policy = true) →
      ¬ (m.point.normal = Path.root ∧ ['/', '/'] ∈ (ofPolicy policy mounts).stemExclusions) →
      f ∈ ((ofPolicy policy mounts).walk tree).2.visited) ∧
    (m.point.normal = Path.root → ['/', '/'] ∈ (ofPolicy policy mounts).stemExclusions →
      (f ∈ ((ofPolicy policy mounts).walk tree).2.visited ↔
        ∃ l ∈ (ofPolicy policy mounts).includes, f.isUnder l.path = true)) ∧
    ((∀ k ∈ mounts, k.point.same m.point = true → k.isRequested policy = false) →
      f ∈ ((ofPolicy policy mounts).walk tree).2.visited →
      ∃ l ∈ (ofPolicy policy mounts).includes, f.isUnder l.path = true) := by
  refine ⟨?_, ?_, ?_⟩
  · rintro ⟨k, hk, hs, hr⟩ hroot
    exact visited_of_requested ht hd hf hn hk hs hr hl hroot
  · intro hm h
    exact visited_iff_of_root ht hd hf hn hl hm h
  · intro hno hv
    obtain ⟨root, stage, hs, hv⟩ := mem_visited_iff.1 hv
    have hpoint := hl.components_ne_nil
    rw [Path.components_normal] at hpoint
    have hk := isExplicit_of_not_requested ht hq hd hn hpoint hno hs hv
    exact isUnder_include (mem_roots_of_mem_stages hs) hk (isDeepest_of_mem_visited ht hs hv).1

/-- Asks for hard discs, and perhaps for removable devices. -/
def discsAnd (removableDevices : Bool) : Policy := { hardDiscs := true, removableDevices }

/-- A file on a removable device is visited if such devices are asked for, and not if only the disc
above it is. -/
theorem device_visited_on_request :
    (IsDeviceOf (deviceOn (.ofText "/data".toList)) (.removable (.ofText "/data/usb".toList))
        (.ofText "/data/usb/x".toList) ∧
      deviceTree.LeadsTo (Path.ofText "/data/usb".toList).normal (.ofText "/data/usb/x".toList)) ∧
    Path.ofText "/data/usb/x".toList ∈
      ((ofPolicy (discsAnd true) (deviceOn (.ofText "/data".toList))).walk deviceTree).2.visited ∧
    Path.ofText "/data/usb/x".toList ∉
      ((ofPolicy (discsAnd false) (deviceOn (.ofText "/data".toList))).walk deviceTree).2.visited := by
  let mounts := deviceOn (.ofText "/data".toList)
  have hd : IsDeviceOf mounts (.removable (.ofText "/data/usb".toList))
      (.ofText "/data/usb/x".toList) :=
    ⟨by decide, by decide, by decide⟩
  have hl : deviceTree.LeadsTo (Path.ofText "/data/usb".toList).normal
      (.ofText "/data/usb/x".toList) :=
    leadsTo_deviceTree.between isProper_deviceTree (by decide) (by decide)
      (by decide) (by decide)
  have hf (b : Bool) : (ofPolicy (discsAnd b) mounts).Spares (.ofText "/data/usb/x".toList) := by
    cases b <;> exact spares_of_stems_alone (by decide) (by decide) (by decide)
  have hn (b : Bool) : (ofPolicy (discsAnd b) mounts).NoStemOf (.ofText "/data/usb/x".toList) := by
    unfold NoStemOf
    cases b <;> decide
  obtain ⟨hyes, -, -⟩ := device_decides (discsAnd true) mounts _ isProper_deviceTree (by decide) hd
    (hf true) (hn true) hl
  obtain ⟨-, -, hno⟩ := device_decides (discsAnd false) mounts _ isProper_deviceTree (by decide) hd
    (hf false) (hn false) hl
  refine ⟨⟨hd, hl⟩, hyes (by decide) (by decide), ?_⟩
  intro hv
  obtain ⟨l, hi, -⟩ := hno (by decide) hv
  have hnil : (ofPolicy (discsAnd false) mounts).includes = [] := by decide
  rw [hnil] at hi
  cases hi

/-- A tree with one file. -/
def fileTree : FileTree := Node.directory [([0x61], .file [])]

/-- Asks for hard discs, and sets the root of the file tree aside in a spelling of its own. -/
def discsWithoutRoot : Policy := { hardDiscs := true, excludes := ["//".toList] }

theorem disc_at_root_lost :
    (discsWithoutRoot.requestsDevices = true ∧
      IsDeviceOf [.hardDisc .root] (.hardDisc .root) (.ofText "/a".toList) ∧
      (hardDisc .root).isRequested discsWithoutRoot = true ∧
      fileTree.LeadsTo (hardDisc .root).point.normal (.ofText "/a".toList) ∧
      (ofPolicy discsWithoutRoot [.hardDisc .root]).Spares (.ofText "/a".toList) ∧
      (ofPolicy discsWithoutRoot [.hardDisc .root]).NoStemOf (.ofText "/a".toList)) ∧
    Path.ofText "/a".toList ∉
      ((ofPolicy discsWithoutRoot [.hardDisc .root]).walk fileTree).2.visited := by
  have hstages : (ofPolicy discsWithoutRoot [.hardDisc .root]).stages = [] :=
    stages_of_none (Prod.ext (by decide) rfl)
  have he : fileTree.entered? .root = some fileTree.top := FileTree.entered?_root rfl
  refine ⟨⟨by decide, ?_, by decide, ?_, ?_, ?_⟩, ?_⟩
  · exact ⟨by decide, by decide, by decide⟩
  · exact ⟨_, [[0x61]], [], he, rfl, by decide, by decide, by decide⟩
  · exact spares_of_stems_alone (by decide) (by decide) (by decide)
  · unfold NoStemOf
    decide
  · rw [visited_walk, hstages]
    exact List.not_mem_nil

end Sweep.Plan
