import Sweep.Proofs.Origins
/-!
# Special mounts

The stem of a special mount is kept like any other stem, so an explicit root that is longer goes
through it. We say exactly when this happens: in a state of the scan, and for what a walk visits
below the mount point.
-/

namespace Sweep.Plan

/-- The plan as if a stem were not there. -/
def without (plan : Plan) (stem : Text) : Plan :=
  { plan with stemExclusions := plan.stemExclusions.filter (· != stem) }

/-- Whether the current root goes through the stem. -/
def goesThrough (plan : Plan) (stem : Text) : Bool :=
  plan.rootIsExplicit && stem.byteLength < plan.rootLength

variable {policy : Policy} {mounts : List Mount} {plan stage : Plan} {root : Root} {tree : FileTree}
  {m : Mount} {stem t : Text} {p f : Path} {isDirectory : Bool}

/-! ## In a state of the scan -/

theorem goesThrough_iff (hc : plan.current = some root) : plan.goesThrough stem = true ↔
    root.isExplicit = true ∧ stem.byteLength < root.path.byteLength := by
  simp [goesThrough, rootIsExplicit, rootLength, hc]

theorem stemCounts_eq_not_goesThrough : plan.stemCounts stem = !plan.goesThrough stem := by
  simp only [stemCounts, goesThrough, Bool.not_and, ← decide_not, Nat.not_lt]

/-- A stem adds to the others what it covers, unless the root goes through it. -/
theorem stemsExclude_eq (hs : stem ∈ plan.stemExclusions) : plan.stemsExclude t isDirectory =
    ((plan.without stem).stemsExclude t isDirectory ||
      (stemCovers stem t isDirectory && !plan.goesThrough stem)) := by
  rw [Bool.eq_iff_iff, Bool.or_eq_true, stemsExclude_iff, stemsExclude_iff,
    ← stemCounts_eq_not_goesThrough, Bool.and_eq_true]
  constructor
  · rintro ⟨u, hu, h⟩
    by_cases he : u = stem
    · exact .inr (he ▸ h)
    · exact .inl ⟨u, List.mem_filter.2 ⟨hu, by simpa using he⟩, h⟩
  · rintro (⟨u, hu, h⟩ | h)
    · exact ⟨u, (List.mem_filter.1 hu).1, h⟩
    · exact ⟨stem, hs, h⟩

theorem admits_iff_without (hs : stem ∈ plan.stemExclusions) :
    plan.admits p isDirectory = true ↔ (plan.without stem).admits p isDirectory = true ∧
      (plan.goesThrough stem = true ∨ stemCovers stem p.text isDirectory = false) := by
  have hr : (plan.without stem).rulesExclude = plan.rulesExclude := rfl
  have ho : (plan.without stem).isOtherRoot = plan.isOtherRoot := rfl
  have hb : (plan.without stem).isOnBarredMount = plan.isOnBarredMount := rfl
  have he : (plan.without stem).exactExclusions = plan.exactExclusions := rfl
  have hx : (plan.without stem).rootIsExplicit = plan.rootIsExplicit := rfl
  rw [admits, admits, stemsExclude_eq hs, hr, ho, hb, he, hx]
  cases plan.goesThrough stem <;> cases stemCovers stem p.text isDirectory <;> simp

/-- The stem of a mount with an empty path is a separator, which begins absolute paths alone. -/
theorem stemCovers_below (hp : p.normal = p)
    (ha : p.isAbsolute = true ∨ m.point.components ≠ []) (hb : p.isBelow m.point = true) :
    stemCovers m.stem p.text isDirectory = true :=
  stemCovers_of_prefix (Mount.stem_prefix hp hb ha) isDirectory

/-! ## On a walk -/

/-- A root that is longer than the stem of a mount, and above a path below the mount, is below the
mount, too. -/
theorem isBelow_of_longer (hroot : root.path.normal = root.path)
    (hl : m.stem.byteLength < root.path.byteLength) (hf : f.isUnder root.path = true)
    (hm : f.isUnder m.point = true) : root.path.isBelow m.point = true := by
  have hnot : ¬ m.point.isUnder root.path = true := by
    intro h
    have hu : m.point.normal.isUnder root.path = true := by rwa [Path.normal_isUnder]
    have := Path.length_le_of_isUnder (Path.normal_normal m.point) hroot hu
    have := m.length_le_stem
    rw [Path.byteLength] at hl
    omega
  exact Path.isBelow_iff.2 ⟨(Path.isUnder_or_isUnder hf hm).resolve_right hnot, hnot⟩

/-- A root that is handed out below a special mount is an include path. -/
theorem isExplicit_of_below (hr : root ∈ (ofPolicy policy mounts).roots) (hm : m ∈ mounts)
    (hs : m.is .special = true) (ha : root.path.isAbsolute = true ∨ m.point.components ≠ [])
    (hb : root.path.isBelow m.point = true) : root.isExplicit = true := by
  rw [← Bool.not_eq_false]
  intro hk
  have hstem : m.stem ∈ (ofPolicy policy mounts).stemExclusions :=
    Reachable.made.special_stem hm hs
  exact not_covered_of_root hr hk hstem (stemCovers_below (normal_of_mem_roots hr) ha hb)

/-- A file below a special mount is visited from an explicit root that is below the mount, too; if
it is not the root itself, the root is longer than the stem. -/
theorem explicit_of_visited (hp : tree.IsProper) (hm : m ∈ mounts) (hs : m.is .special = true)
    (hst : (root, stage) ∈ (ofPolicy policy mounts).stages)
    (hf : f ∈ (stage.walkRoot tree root.path).visited)
    (ha : f.isAbsolute = true ∨ m.point.components ≠ []) (hb : f.isBelow m.point = true) :
    root.isExplicit = true ∧ root.path.isBelow m.point = true ∧
      (f = root.path ∨ m.stem.byteLength < root.path.byteLength) := by
  obtain ⟨hr, hc⟩ := Reachable.made.of_mem_stages hst
  have hroot := normal_of_mem_stages hst
  have hfn := normal_of_mem_visited hp hst hf
  obtain ⟨node, names, content, -, -, he, hd⟩ := reaches_of_mem_visited hp hf
  rcases hd with rfl | ⟨-, had⟩
  · have hfr : f = root.path := he
    subst hfr
    exact ⟨isExplicit_of_below (mem_roots_of_mem_stages hst) hm hs ha hb, hb, .inl rfl⟩
  · obtain ⟨-, ht⟩ := (admits_iff_without (hr.special_stem hm hs)).1 had
    rw [stemCovers_below hfn ha hb] at ht
    obtain ⟨hx, hl⟩ := (goesThrough_iff hc).1 (ht.resolve_right (by simp))
    have hu := (isDeepest_of_mem_visited hp hst hf).1
    exact ⟨hx, isBelow_of_longer hroot hl hu (Path.isBelow_iff.1 hb).1, .inr hl⟩

/-- In every state of a scan a special mount keeps out what its stem covers, unless the current root
is explicit and longer than the stem. The stem covers every path below the mount in its shortest
spelling, unless the path is relative and the mount has an empty one. With the same exception, a walk
visits files below the mount from explicit roots below it, and from no others. -/
theorem special_mount_opens_iff (policy : Policy) (mounts : List Mount) (m : Mount)
    (hm : m ∈ mounts) (hs : m.is .special = true) :
    (∀ (plan : Plan) (p : Path) (isDirectory : Bool), Reachable policy mounts plan →
      (plan.admits p isDirectory = true ↔ (plan.without m.stem).admits p isDirectory = true ∧
        (plan.goesThrough m.stem = true ∨ stemCovers m.stem p.text isDirectory = false))) ∧
    (∀ (p : Path) (isDirectory : Bool), p.normal = p →
      (p.isAbsolute = true ∨ m.point.components ≠ []) → p.isBelow m.point = true →
      stemCovers m.stem p.text isDirectory = true) ∧
    (∀ (tree : FileTree) (f : Path), tree.IsProper →
      (f.isAbsolute = true ∨ m.point.components ≠ []) → f.isBelow m.point = true →
      (f ∈ ((ofPolicy policy mounts).walk tree).2.visited ↔ ∃ root stage,
        (root, stage) ∈ (ofPolicy policy mounts).stages ∧ root.isExplicit = true ∧
        root.path.isBelow m.point = true ∧
        (f = root.path ∨ m.stem.byteLength < root.path.byteLength) ∧
        f ∈ (stage.walkRoot tree root.path).visited)) := by
  refine ⟨fun plan p isDirectory hr => admits_iff_without (hr.special_stem hm hs),
    fun p isDirectory hp ha hb => stemCovers_below hp ha hb, fun tree f hp ha hb => ?_⟩
  rw [mem_visited_iff]
  constructor
  · rintro ⟨root, stage, hst, hf⟩
    obtain ⟨hx, hrb, hl⟩ := explicit_of_visited hp hm hs hst hf ha hb
    exact ⟨root, stage, hst, hx, hrb, hl, hf⟩
  · rintro ⟨root, stage, hst, -, -, -, hf⟩
    exact ⟨root, stage, hst, hf⟩

/-- The file system of processes. -/
def proc : Mount := .special (.ofText "/proc".toList) "proc".toList

/-- A tree with one file in the directory of a process. -/
def procTree : FileTree :=
  Node.directory [([0x70, 0x72, 0x6F, 0x63],
    .directory [([0x31], .directory [([0x6D], .file [])])])]

theorem isProper_procTree : procTree.IsProper := by decide

/-- With no include path the special mount is closed, in the state of the root and on the walk. -/
theorem proc_closed_to_everything :
    (proc ∈ [proc] ∧ proc.is .special = true) ∧
    (ofPolicy {} [proc]).next.2.admitsFile (.ofText "/proc/1/m".toList) = false ∧
    Path.ofText "/proc/1/m".toList ∉ ((ofPolicy {} [proc]).walk procTree).2.visited := by
  obtain ⟨hstate, hcover, hwalk⟩ := special_mount_opens_iff {} [proc] proc (by simp) (by decide)
  refine ⟨⟨by simp, by decide⟩, ?_, fun hv => ?_⟩
  · rw [Bool.eq_false_iff]
    intro ha
    obtain ⟨-, ht⟩ := (hstate _ _ false Reachable.made.next).1 ha
    rw [hcover _ false (by decide +kernel) (.inl (by decide +kernel)) (by decide +kernel)] at ht
    exact absurd ht (by decide +kernel)
  · obtain ⟨root, stage, hst, -, hb, -⟩ :=
      (hwalk procTree _ isProper_procTree (.inl (by decide +kernel)) (by decide +kernel)).1 hv
    have hroots : (ofPolicy {} [proc]).roots = [⟨Path.root, .explicit⟩] := by decide +kernel
    have hr := mem_roots_of_mem_stages hst
    rw [hroots, List.mem_singleton] at hr
    rw [hr] at hb
    exact absurd hb (by decide +kernel)

/-- An include path below the special mount opens it. -/
theorem proc_open_to_include :
    (Path.ofText "/proc/1/m".toList).isBelow proc.point = true ∧
    (ofPolicy { includes := [.ofText "/proc/1".toList] } [proc]).next.2.admitsFile
      (.ofText "/proc/1/m".toList) = true ∧
    Path.ofText "/proc/1/m".toList ∈
      ((ofPolicy { includes := [.ofText "/proc/1".toList] } [proc]).walk procTree).2.visited := by
  refine ⟨by decide +kernel, by decide +kernel, mem_visited_iff.2
    ⟨⟨.ofText "/proc/1".toList, .explicit⟩,
      (ofPolicy { includes := [.ofText "/proc/1".toList] } [proc]).next.2, by decide +kernel, ?_⟩⟩
  have hprocess : Path.ofText "/proc/1".toList =
      Path.root.extend [[0x70, 0x72, 0x6F, 0x63], [0x31]] := by decide
  have he : procTree.entered? (.ofText "/proc/1".toList) =
      some (.directory [([0x6D], .file [])]) :=
    FileTree.entered?_of_below? isProper_procTree rfl hprocess rfl (by simp) (by decide) (by decide)
  rw [visited_walkRoot, he]
  decide +kernel

end Sweep.Plan
