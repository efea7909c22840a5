import Sweep.Proofs.Descent
import Sweep.Proofs.Pruning
/-!
# The deepest root decides

A file is visited exactly when the deepest root above it lets it in, and no file is visited twice.
The walk of a root leaves out other roots and directories that are not let in. The former are deeper
roots, and the latter hide nothing that would be let in.
-/

namespace Sweep.Plan

/-- The root is the file or lies above it, and no other root lies between them. -/
def IsDeepest (plan : Plan) (root : Root) (f : Path) : Prop :=
  f.isUnder root.path = true ∧
    ∀ r ∈ plan.roots, f.isUnder r.path = true → root.path.isUnder r.path = true

/-- The file is the root, or it is below the root in directories alone and let in. Its directory
must have a path that the system takes. -/
def Reaches (stage : Plan) (tree : FileTree) (root : Root) (f : Path) : Prop :=
  ∃ node names content, tree.entered? root.path = some node ∧
    node.below? names = some (.file content) ∧ f = root.path.extend names ∧
    (names = [] ∨ (root.path.extend names.dropLast).fits = true ∧ stage.admitsFile f = true)

variable {policy : Policy} {mounts : List Mount} {plan stage : Plan} {root : Root} {tree : FileTree}
  {f : Path}

theorem normal_of_mem_roots (h : root ∈ plan.roots) : root.path.normal = root.path := by
  obtain ⟨stage, hs⟩ := mem_roots_iff.1 h
  obtain ⟨_, hh⟩ := handed_of_mem hs
  exact hh.normal

theorem path_eq_of_location (h : root ∈ plan.roots) (hl : root.path.location = f.location) :
    root.path = f.normal := by
  rw [← normal_of_mem_roots h]
  exact congrArg Location.path hl

theorem mem_roots_of_mem_stages (h : (root, stage) ∈ plan.stages) : root ∈ plan.roots :=
  mem_roots_iff.2 ⟨stage, h⟩

theorem normal_of_mem_stages (h : (root, stage) ∈ plan.stages) : root.path.normal = root.path :=
  normal_of_mem_roots (mem_roots_of_mem_stages h)

theorem admits_of_isOtherRoot {p : Path} (h : stage.isOtherRoot p = true) (isDirectory : Bool) :
    stage.admits p isDirectory = false :=
  admits_eq_false_iff.2 (.inr (.inr (.inr (.inl h))))

/-! ## From the walk to the root -/

/-- Names below the current root that lead to another root make it known as such. -/
theorem isOtherRoot_extend (hs : (root, stage) ∈ plan.stages) {r : Root} (hr : r ∈ plan.roots)
    {ms : List (List UInt8)} (hms : ∀ m ∈ ms, Path.IsName m) (hne : ms ≠ [])
    (he : r.path = root.path.extend ms) : stage.isOtherRoot (root.path.extend ms) = true := by
  have hroot := normal_of_mem_stages hs
  exact isOtherRoot_of_mem hs hr (congrArg Path.location he)
    (Path.location_extend_ne hroot hms hne)

theorem isDeepest_of_mem_visited (hp : tree.IsProper) (hs : (root, stage) ∈ plan.stages)
    (hf : f ∈ (stage.walkRoot tree root.path).visited) : IsDeepest plan root f := by
  have hroot := normal_of_mem_stages hs
  obtain ⟨node, he⟩ := entered?_of_mem_visited hf
  have hnode := FileTree.isProper_entered? hp he
  obtain ⟨names, content, hb, rfl, hd⟩ := (mem_visited_walkRoot hnode he).1 hf
  have hnames := hnode.of_below? hb
  have hu := Path.isUnder_extend hroot hnames
  refine ⟨hu, fun r hr hfr => ?_⟩
  rcases Path.isUnder_or_isUnder hu hfr with h | h
  · exact h
  -- A root in between is another root that the walk comes across.
  have hrn := normal_of_mem_roots hr
  obtain ⟨ms, hms, hre⟩ := Path.exists_extend hrn hroot (FileTree.components_ne_nil_of_entered? he)
    h
  by_cases hm : ms = []
  · subst hm
    rw [hre]
    exact Path.isUnder_self _
  · have ho := isOtherRoot_extend hs hr hms hm hre
    rw [hre] at hfr
    obtain ⟨ns, rfl⟩ := Path.prefix_of_isUnder hroot hnames hms hfr
    obtain ⟨ha, hd⟩ := hd.resolve_left (by simp [hm])
    cases ns with
    | nil =>
      rw [List.append_nil, admitsFile, admits_of_isOtherRoot ho] at ha
      cases ha
    | cons n ns =>
      have hen := hd ms (n :: ns) rfl hm (by simp)
      rw [enters, admitsDirectory, admits_of_isOtherRoot ho] at hen
      cases hen

theorem reaches_of_mem_visited (hp : tree.IsProper)
    (hf : f ∈ (stage.walkRoot tree root.path).visited) : Reaches stage tree root f := by
  obtain ⟨node, he⟩ := entered?_of_mem_visited hf
  obtain ⟨names, content, hb, rfl, hd⟩ :=
    (mem_visited_walkRoot (FileTree.isProper_entered? hp he) he).1 hf
  refine ⟨node, names, content, he, hb, rfl, hd.imp_right fun ⟨ha, hd⟩ => ⟨?_, ha⟩⟩
  by_cases hn : names.dropLast = []
  · rw [hn]
    exact FileTree.fits_of_entered? he
  · have hne : names ≠ [] := fun h => hn (by rw [h]; rfl)
    have hen := hd names.dropLast [names.getLast hne] (List.dropLast_concat_getLast hne).symm hn
      (by simp)
    rw [enters, Bool.and_eq_true] at hen
    exact hen.2

/-! ## From the root to the walk -/

/-- Between its deepest root and a file that is let in, every directory is let in. -/
theorem admitsDirectory_of_isDeepest (hs : (root, stage) ∈ (ofPolicy policy mounts).stages)
    {ms ns : List (List UInt8)} (hms : ∀ n ∈ ms, Path.IsName n) (hns : ∀ n ∈ ns, Path.IsName n)
    (hm : ms ≠ []) (hn : ns ≠ [])
    (hd : IsDeepest (ofPolicy policy mounts) root (root.path.extend (ms ++ ns)))
    (ha : stage.admitsFile (root.path.extend (ms ++ ns)) = true) :
    stage.admitsDirectory (root.path.extend ms) = true := by
  have hroot := normal_of_mem_stages hs
  obtain ⟨hr, hc⟩ := Reachable.made.of_mem_stages hs
  have hdir := Path.normal_extend hroot hms
  rw [← Bool.not_eq_false]
  intro hno
  suffices hf : stage.admitsFile (root.path.extend (ms ++ ns)) = false by
    rw [hf] at ha
    cases ha
  cases ho : stage.isOtherRoot (root.path.extend ms) with
  | false => exact admits_below hr hc hms hm hn hno ho false
  | true =>
    rcases isOtherRoot_cases hs (handedOut_ofPolicy policy mounts) ho with ⟨r, hr', hl⟩ | ⟨hk, hsup⟩
    · -- A deeper root takes over, so the current one is not the deepest.
      have he : r.path = root.path.extend ms := Path.eq_of_same (normal_of_mem_roots hr') hdir
        (Path.location_eq_location_iff.1 hl)
      have hu : (root.path.extend (ms ++ ns)).isUnder r.path = true := by
        rw [he, Path.extend_append]
        exact Path.isUnder_extend hdir hns
      have hback := hd.2 r hr' hu
      rw [he, ← Path.extend_nil root.path] at hback
      have := Path.prefix_of_isUnder hroot (by simp) hms hback
      exact absurd (List.prefix_nil.1 this) hm
    · refine admits_below_suppressed hr hc hms hm hn hk ?_ false
      rwa [isSuppressed, (stage_inherits hs).1, ← isSuppressed]

theorem mem_visited_of_reaches (hp : tree.IsProper)
    (hs : (root, stage) ∈ (ofPolicy policy mounts).stages)
    (hd : IsDeepest (ofPolicy policy mounts) root f) (h : Reaches stage tree root f) :
    f ∈ (stage.walkRoot tree root.path).visited := by
  obtain ⟨node, names, content, he, hb, rfl, hn⟩ := h
  have hnode := FileTree.isProper_entered? hp he
  have hnames := hnode.of_below? hb
  rw [mem_visited_walkRoot hnode he]
  refine ⟨names, content, hb, rfl, hn.imp_right fun ⟨hfit, ha⟩ => ⟨ha, ?_⟩⟩
  rintro ms ns rfl hm hns
  rw [enters, Bool.and_eq_true]
  constructor
  · exact admitsDirectory_of_isDeepest hs (fun n h => hnames n (List.mem_append_left _ h))
      (fun n h => hnames n (List.mem_append_right _ h)) hm hns hd ha
  · rw [List.dropLast_append_of_ne_nil hns, Path.extend_append, Path.fits_iff] at hfit
    exact Path.fits_iff.2 (Nat.le_trans (Path.length_le_extend _ _) hfit)

/-! ## All roots -/

theorem visited_walk : (plan.walk tree).2.visited =
    plan.stages.flatMap fun s => (s.2.walkRoot tree s.1.path).visited := by
  have hfold (ts : List Tally) :
      (ts.foldr Tally.append Tally.none).visited = ts.flatMap Tally.visited := by
    induction ts with
    | nil => rfl
    | cons t ts ih =>
      rw [List.foldr_cons, List.flatMap_cons, ← ih]
      rfl
  rw [walk, hfold, walks, List.flatMap_map]

theorem mem_visited_iff : f ∈ (plan.walk tree).2.visited ↔
    ∃ root stage, (root, stage) ∈ plan.stages ∧ f ∈ (stage.walkRoot tree root.path).visited := by
  simp [visited_walk]

theorem normal_of_mem_visited (hp : tree.IsProper) (hs : (root, stage) ∈ plan.stages)
    (hf : f ∈ (stage.walkRoot tree root.path).visited) : f.normal = f := by
  obtain ⟨node, names, content, he, hb, rfl, -⟩ := reaches_of_mem_visited hp hf
  exact Path.normal_extend (normal_of_mem_stages hs)
    ((FileTree.isProper_entered? hp he).of_below? hb)

/-- Two roots that are the deepest above a file are one root. -/
theorem location_eq_of_isDeepest {r : Root} (hr : root ∈ plan.roots) (hr' : r ∈ plan.roots)
    (h : IsDeepest plan root f) (h' : IsDeepest plan r f) :
    root.path.location = r.path.location :=
  Path.location_eq_location_iff.2 (Path.same_of_isUnder (h.2 r hr' h'.1) (h'.2 root hr h.1))

theorem stages_pairwise (plan : Plan) :
    plan.stages.Pairwise fun s t => s.1.path.location ≠ t.1.path.location := by
  have h := roots_nodup plan
  rw [roots, List.map_map] at h
  exact List.pairwise_map.1 h

theorem visited_pairwise (hp : tree.IsProper) (plan : Plan) :
    (plan.walk tree).2.visited.Pairwise fun f g => f.same g = false := by
  have hdiffer {f g : Path} (hf : f.normal = f) (hg : g.normal = g) (hne : f ≠ g) :
      f.same g = false := by
    rw [Bool.eq_false_iff]
    exact fun h => hne (Path.eq_of_same hf hg h)
  rw [visited_walk, List.pairwise_flatMap]
  constructor
  · rintro ⟨root, stage⟩ hs
    have hn {f : Path} := normal_of_mem_visited (f := f) hp hs
    have hnodup : (stage.walkRoot tree root.path).visited.Nodup := by
      cases he : tree.entered? root.path with
      | none =>
        rw [visited_walkRoot, he]
        exact List.nodup_nil
      | some node =>
        exact nodup_visited_walkRoot (FileTree.isProper_entered? hp he) he (normal_of_mem_stages hs)
    exact hnodup.imp_of_mem fun hf hg hne => hdiffer (hn hf) (hn hg) hne
  · refine (stages_pairwise plan).imp_of_mem ?_
    rintro ⟨root, stage⟩ ⟨r, stage'⟩ hs hs' hne f hf g hg
    refine hdiffer (normal_of_mem_visited hp hs hf) (normal_of_mem_visited hp hs' hg) ?_
    rintro rfl
    exact hne (location_eq_of_isDeepest (mem_roots_of_mem_stages hs) (mem_roots_of_mem_stages hs')
      (isDeepest_of_mem_visited hp hs hf) (isDeepest_of_mem_visited hp hs' hg))

/-- No file is visited twice. A file is visited exactly when it has a deepest root that reaches it
at its own stage, whatever other roots there are. -/
theorem deepest_root_decides (policy : Policy) (mounts : List Mount) (hp : tree.IsProper) :
    (((ofPolicy policy mounts).walk tree).2.visited.Pairwise fun f g => f.same g = false) ∧
    ∀ f, f ∈ ((ofPolicy policy mounts).walk tree).2.visited ↔
      ∃ root stage, (root, stage) ∈ (ofPolicy policy mounts).stages ∧
        IsDeepest (ofPolicy policy mounts) root f ∧ Reaches stage tree root f := by
  refine ⟨visited_pairwise hp _, fun f => ?_⟩
  rw [mem_visited_iff]
  constructor
  · rintro ⟨root, stage, hs, hf⟩
    exact ⟨root, stage, hs, isDeepest_of_mem_visited hp hs hf, reaches_of_mem_visited hp hf⟩
  · rintro ⟨root, stage, hs, hd, hr⟩
    exact ⟨root, stage, hs, mem_visited_of_reaches hp hs hd hr⟩

/-- A disc that is mounted below another one. -/
def nestedDiscs : List Mount := [.hardDisc .root, .hardDisc (.ofText "/data".toList)]

/-- A file on each of the two discs. -/
def nestedTree : FileTree :=
  Node.directory [([0x61], .file []), ([0x64, 0x61, 0x74, 0x61], .directory [([0x62], .file [])])]

/-- The file on the inner disc is visited from there, and nothing is visited twice. -/
theorem nested_discs_visited_once : nestedTree.IsProper ∧
    (((ofPolicy { hardDiscs := true } nestedDiscs).walk nestedTree).2.visited.Pairwise
      fun f g => f.same g = false) ∧
    Path.ofText "/data/b".toList ∈
      ((ofPolicy { hardDiscs := true } nestedDiscs).walk nestedTree).2.visited := by
  have hp : nestedTree.IsProper := by decide
  have hdata : Path.ofText "/data".toList = Path.root.extend [[0x64, 0x61, 0x74, 0x61]] := by decide
  have he : nestedTree.entered? (.ofText "/data".toList) =
      some (.directory [([0x62], .file [])]) :=
    FileTree.entered?_of_below? hp rfl hdata rfl (by simp) (by decide) (by decide)
  obtain ⟨hpairs, hiff⟩ := deepest_root_decides { hardDiscs := true } nestedDiscs hp
  refine ⟨hp, hpairs, (hiff _).2 ⟨⟨.ofText "/data".toList, .mount⟩,
    (ofPolicy { hardDiscs := true } nestedDiscs).next.2.next.2, by decide +kernel, ?_, ?_⟩⟩
  · exact ⟨by decide +kernel, by decide +kernel⟩
  · exact ⟨.directory [([0x62], .file [])], [[0x62]], [], he, rfl, by decide +kernel,
      .inr ⟨by decide +kernel, by decide +kernel⟩⟩

end Sweep.Plan
