import Sweep.Proofs.Spared
/-!
# Files that are visited though they are excluded

Below a root a file is let in only if no rule and no exact path excludes it. A root that is itself a
file is visited as it is. An include path is meant so, but a mount root is looked at by the stems
alone, which leave out exact paths and no other rule. So the excluded files that a walk visits are
those that are include paths or mount roots.
-/

namespace Sweep.Plan

variable {policy : Policy} {mounts : List Mount} {plan stage : Plan} {root : Root} {tree : FileTree}
  {f : Path}

theorem spares_of_admitsFile (hs : (root, stage) ∈ (ofPolicy policy mounts).stages)
    (h : stage.admitsFile f = true) : (ofPolicy policy mounts).Spares f := by
  have hr := (Reachable.made.of_mem_stages hs).1
  have hrules := hr.unchanged rules fun _ => rfl
  have hexact := hr.unchanged exactExclusions fun _ => rfl
  rw [admitsFile, ← Bool.not_eq_false, admits_eq_false_iff, not_or, not_or, hexact] at h
  obtain ⟨hr, he, -⟩ := h
  refine ⟨?_, he⟩
  rwa [rulesExclude, if_neg (by simp), hrules, Bool.not_eq_true] at hr

/-- A mount root is no exact path, as the stem of an exact path covers it. -/
theorem exact_of_mount_root (h : root ∈ (ofPolicy policy mounts).roots)
    (hk : root.isExplicit = false) : root.path.text ∉ (ofPolicy policy mounts).exactExclusions := by
  intro he
  have hstem := Reachable.made.stem_of_exact he
  exact not_covered_of_root h hk hstem (stemCovers_iff.2 (.inr rfl))

theorem entered?_file_iff {content : List UInt8} :
    tree.entered? f = some (.file content) ↔ tree.find? f false = some (.file content) := by
  constructor
  · intro h
    unfold FileTree.entered? at h
    split at h
    · split at h <;> cases h
    · exact h
  · intro h
    exact FileTree.entered?_of_find? h (by simp)

/-- What a root that is a file leads to. -/
theorem mem_visited_of_file_root (ht : tree.IsProper) (h : root ∈ (ofPolicy policy mounts).roots)
    {content : List UInt8} (hf : tree.find? root.path false = some (.file content)) :
    root.path ∈ ((ofPolicy policy mounts).walk tree).2.visited := by
  obtain ⟨stage, hs⟩ := mem_roots_iff.1 h
  have hd : IsDeepest (ofPolicy policy mounts) root root.path :=
    ⟨Path.isUnder_self _, fun _ _ hu => hu⟩
  rw [mem_visited_iff_reaches ht hs hd]
  exact ⟨_, [], content, entered?_file_iff.2 hf, rfl, rfl, .inl rfl⟩

/-- An excluded file that is no include path is visited exactly if it is a mount root and a rule,
not an exact path, is what excludes it. -/
theorem excluded_visited_iff (policy : Policy) (mounts : List Mount) (ht : tree.IsProper)
    (f : Path) :
    (f ∈ ((ofPolicy policy mounts).walk tree).2.visited ∧ ¬ (ofPolicy policy mounts).Spares f ∧
        f.location ∉ (ofPolicy policy mounts).includes) ↔
      (∃ root ∈ (ofPolicy policy mounts).roots, root.isExplicit = false ∧ root.path = f) ∧
        (∃ content, tree.find? f false = some (.file content)) ∧
        (ofPolicy policy mounts).rules.applies f.text false false = true ∧
        f.location ∉ (ofPolicy policy mounts).includes := by
  constructor
  · rintro ⟨hv, hno, hi⟩
    obtain ⟨root, stage, hs, hv⟩ := mem_visited_iff.1 hv
    have hroot := mem_roots_of_mem_stages hs
    obtain ⟨node, names, content, he, hb, hf, hd⟩ := reaches_of_mem_visited ht hv
    rcases hd with rfl | ⟨-, ha⟩
    · cases hb
      rw [Path.extend_nil] at hf
      subst hf
      have hk : root.isExplicit = false := by
        rw [← Bool.not_eq_true]
        intro hk
        exact hi (include_of_explicit hroot hk)
      have hx := exact_of_mount_root hroot hk
      have hr : (ofPolicy policy mounts).rules.applies root.path.text false false = true := by
        rw [← Bool.not_eq_false]
        intro hr
        exact hno ⟨hr, hx⟩
      exact ⟨⟨root, hroot, hk, rfl⟩, ⟨content, entered?_file_iff.1 he⟩, hr, hi⟩
    · exact absurd (spares_of_admitsFile hs ha) hno
  · rintro ⟨⟨root, hroot, -, rfl⟩, ⟨content, hf⟩, hr, hi⟩
    refine ⟨mem_visited_of_file_root ht hroot hf, ?_, hi⟩
    intro hs
    rw [hs.noRule] at hr
    cases hr

/-- A log in a directory. -/
def logTree : FileTree :=
  Node.directory [([0x64], .directory [([0x61, 0x2E, 0x6C, 0x6F, 0x67], .file [])])]

theorem isProper_logTree : logTree.IsProper := by decide

/-- Asks for hard discs, without logs. -/
def withoutLogs : Policy := { hardDiscs := true, excludes := ["*.log".toList] }

/-- The log is left out where the directory is the mount. -/
theorem log_below_mount_left_out : logTree.IsProper ∧
    ¬ (ofPolicy withoutLogs [.hardDisc (.ofText "/d".toList)]).Spares (.ofText "/d/a.log".toList) ∧
    Path.ofText "/d/a.log".toList ∉
      ((ofPolicy withoutLogs [.hardDisc (.ofText "/d".toList)]).walk logTree).2.visited := by
  have hno : ¬ (ofPolicy withoutLogs [.hardDisc (.ofText "/d".toList)]).Spares
      (.ofText "/d/a.log".toList) := by
    intro hs
    exact absurd hs.noRule (by decide +kernel)
  refine ⟨isProper_logTree, hno, ?_⟩
  intro hv
  have hi : (Path.ofText "/d/a.log".toList).location ∉
      (ofPolicy withoutLogs [.hardDisc (.ofText "/d".toList)]).includes := by decide
  obtain ⟨⟨root, hr, hk, hp⟩, -⟩ := (excluded_visited_iff withoutLogs
    [.hardDisc (.ofText "/d".toList)] isProper_logTree _).1 ⟨hv, hno, hi⟩
  obtain ⟨m, hm, he⟩ := mount_of_root hr hk
  have htaken : takenMounts withoutLogs [.hardDisc (.ofText "/d".toList)] =
      [.hardDisc (.ofText "/d".toList)] := by decide
  rw [htaken, List.mem_singleton] at hm
  rw [path_eq_of_location hr he.symm, hm] at hp
  exact absurd hp (by decide)

/-- The log is visited where it is a mount itself. -/
theorem log_mount_visited :
    (ofPolicy withoutLogs [.hardDisc (.ofText "/d/a.log".toList)]).rules.applies
      (Path.ofText "/d/a.log".toList).text false false = true ∧
    (Path.ofText "/d/a.log".toList).location ∉
      (ofPolicy withoutLogs [.hardDisc (.ofText "/d/a.log".toList)]).includes ∧
    Path.ofText "/d/a.log".toList ∈
      ((ofPolicy withoutLogs [.hardDisc (.ofText "/d/a.log".toList)]).walk logTree).2.visited := by
  have hlog : Path.ofText "/d/a.log".toList =
      Path.root.extend [[0x64], [0x61, 0x2E, 0x6C, 0x6F, 0x67]] := by decide
  have hf : logTree.find? (.ofText "/d/a.log".toList) false = some (.file []) :=
    entered?_file_iff.1 <| FileTree.entered?_of_below? isProper_logTree rfl hlog rfl (by simp)
      (by decide) (by decide)
  have hnext : (ofPolicy withoutLogs [.hardDisc (.ofText "/d/a.log".toList)]).next =
      (some ⟨.ofText "/d/a.log".toList, .mount⟩,
        (ofPolicy withoutLogs [.hardDisc (.ofText "/d/a.log".toList)]).next.2) :=
    Prod.ext (by decide) rfl
  have hr : ⟨.ofText "/d/a.log".toList, .mount⟩ ∈
      (ofPolicy withoutLogs [.hardDisc (.ofText "/d/a.log".toList)]).roots := by
    rw [roots_of_some hnext]
    exact List.mem_cons_self
  refine ⟨by decide +kernel, by decide, ?_⟩
  exact mem_visited_of_file_root isProper_logTree hr hf

end Sweep.Plan
