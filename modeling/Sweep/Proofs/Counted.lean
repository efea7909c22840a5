import Mathlib.Data.Set.Card
import Sweep.Proofs.Accounts
import Sweep.Proofs.Deepest
/-!
# What a walk counts

Under each root the visited files strictly increase by their components. The numbers of a walk are
those of the files and directories that it comes to, which are described without the walk: a file
that it comes to is visited or left out and not both, and what is left out or not read is counted
once. The roots are taken in the order in which they are handed out.
-/

namespace Sweep

/-! ## From a root -/

/-- Whether there is nothing at the path, a link that leads nowhere, or a locked directory. -/
def FileTree.IsLost (tree : FileTree) (p : Path) : Prop :=
  tree.find? p false = none ∨
    (∃ target, tree.find? p false = some (.link target)) ∧ tree.find? p true = none ∨
    tree.entered? p = some .locked

theorem Node.fate?_sorted (plan : Plan) (p : Path) (node : Node) :
    plan.fate? p node.sorted = plan.fate? p node := by
  cases node <;> rfl

namespace Plan

variable {stage plan : Plan} {tree : FileTree} {node : Node} {root p q : Path}
  {es : List (List UInt8 × Node)} {o : Fate}

/-- Whether the walk of a root comes to a node: it is what the root leads to, or lies below it in
directories that the walk enters. -/
def Meets (stage : Plan) (tree : FileTree) (root q : Path) (node : Node) : Prop :=
  ∃ found names, tree.entered? root = some found ∧ found.below? names = some node ∧
    q = root.extend names ∧ ∀ ms ns, names = ms ++ ns → ms ≠ [] → ns ≠ [] →
      stage.enters (root.extend ms) = true

/-- The files that the walk of a root comes to. -/
def filesMet (stage : Plan) (tree : FileTree) (root : Path) : Set Path :=
  {f | ∃ content, stage.Meets tree root f (.file content)}

/-- The directories below a root that its walk comes to. -/
def directoriesMet (stage : Plan) (tree : FileTree) (root : Path) : Set Path :=
  {d | d ≠ root ∧
    (stage.Meets tree root d .locked ∨ ∃ es, stage.Meets tree root d (.directory es))}

/-- The files below a root that its walk leaves out. -/
def filesLeftOut (stage : Plan) (tree : FileTree) (root : Path) : Set Path :=
  {f ∈ stage.filesMet tree root | f ≠ root ∧ stage.admitsFile f = false}

/-- The directories below a root that its walk does not let in. -/
def directoriesClosed (stage : Plan) (tree : FileTree) (root : Path) : Set Path :=
  {d ∈ stage.directoriesMet tree root | stage.admitsDirectory d = false}

/-- The directories that cannot be read although they are let in, as they are locked or their paths
are too long, and the root if it is lost. -/
def pathsUnread (stage : Plan) (tree : FileTree) (root : Path) : Set Path :=
  {d ∈ stage.directoriesMet tree root | stage.admitsDirectory d = true ∧
    (stage.Meets tree root d .locked ∨ d.fits = false)} ∪ {p | p = root ∧ tree.IsLost root}

/-- The entries that the walk of a root makes. -/
def accountRoot (stage : Plan) (tree : FileTree) (p : Path) : List (Path × Fate) :=
  match tree.find? p false with
  | none | some .locked => [(p, .unread)]
  | some (.file _) => [(p, .visited)]
  | some (.directory es) => Node.accountEntries stage p (Node.sortedEntries es)
  | some (.link _) =>
    match tree.find? p true with
    | none | some .locked => [(p, .unread)]
    | some (.directory es) => Node.accountEntries stage p (Node.sortedEntries es)
    | some _ => []

theorem walkRoot_eq (stage : Plan) (tree : FileTree) (p : Path) :
    stage.walkRoot tree p = Tally.ofEntries (stage.accountRoot tree p) := by
  unfold walkRoot accountRoot
  cases tree.find? p false with
  | none => exact (Tally.append_none _).symm
  | some found =>
    cases found with
    | file | locked => exact (Tally.append_none _).symm
    | directory es => exact Node.walkEntries_eq stage p _
    | link =>
      dsimp only
      cases tree.find? p true with
      | none => exact (Tally.append_none _).symm
      | some target =>
        cases target with
        | directory es => exact Node.walkEntries_eq stage p _
        | locked => exact (Tally.append_none _).symm
        | file | link => rfl

/-- What the walk does with the root itself. -/
def FateOfRoot (tree : FileTree) (root : Path) : Fate → Prop
  | .visited => ∃ content, tree.entered? root = some (.file content)
  | .unread => tree.IsLost root
  | .leftOut | .closed => False

/-- A root is lost, a file or a directory, or a link that is left alone. -/
theorem accountRoot_cases (stage : Plan) (tree : FileTree) (p : Path) :
    (tree.IsLost p ∧ (tree.entered? p = none ∨ tree.entered? p = some .locked) ∧
      stage.accountRoot tree p = [(p, .unread)]) ∨
    ¬ tree.IsLost p ∧
      ((∃ content, tree.entered? p = some (.file content) ∧
          stage.accountRoot tree p = [(p, .visited)]) ∨
        (∃ es, tree.entered? p = some (.directory es) ∧
          stage.accountRoot tree p = Node.accountEntries stage p (Node.sortedEntries es)) ∨
        tree.entered? p = none ∧ stage.accountRoot tree p = []) := by
  unfold accountRoot FileTree.IsLost FileTree.entered?
  cases tree.find? p false with
  | none => simp
  | some found =>
    cases found with
    | file | directory | locked => simp
    | link =>
      cases tree.find? p true with
      | none => simp
      | some target => cases target <;> simp

/-- The entries below a root are those of the nodes that the walk comes to there. -/
theorem mem_accountEntries_sorted (hes : Node.AreProper es) :
    (q, o) ∈ Node.accountEntries stage p (Node.sortedEntries es) ↔
      ∃ names x, names ≠ [] ∧ (Node.directory es).below? names = some x ∧ q = p.extend names ∧
        (∀ ms ns, names = ms ++ ns → ms ≠ [] → ns ≠ [] → stage.enters (p.extend ms) = true) ∧
        stage.fate? q x = some o := by
  have hsorted := Node.areProper_sortedEntries es hes
  -- In order of the entries the same names lead to the same node with its entries in order.
  have hbelow := Node.below?_sorted (.directory es)
  rw [Node.mem_accountEntries hsorted]
  constructor
  · rintro ⟨name, node, hn, he⟩
    obtain ⟨names, y, hb, rfl, hd, ho⟩ := (Node.mem_account (hsorted.of_named? hn).2 _ _ _).1 he
    have hby : (Node.directory es).sorted.below? (name :: names) = some y := by
      rw [Node.sorted, Node.below?, hn]
      exact hb
    rw [hbelow, Option.map_eq_some_iff] at hby
    obtain ⟨x, hx, rfl⟩ := hby
    rw [Node.fate?_sorted] at ho
    refine ⟨name :: names, x, by simp, hx, rfl, fun ms ns hms hne => ?_, ho⟩
    cases ms with
    | nil => exact absurd rfl hne
    | cons m ms =>
      obtain ⟨rfl, htail⟩ := List.cons.inj hms
      exact goesDown_iff.1 hd ms ns htail
  · rintro ⟨names, x, hne, hx, rfl, hd, ho⟩
    obtain ⟨name, names, rfl⟩ := List.exists_cons_of_ne_nil hne
    have hbx := hbelow (name :: names)
    rw [hx, Node.sorted, Node.below?] at hbx
    obtain ⟨node, hn, hb⟩ := Option.bind_eq_some_iff.1 hbx
    refine ⟨name, node, hn, (Node.mem_account (hsorted.of_named? hn).2 _ _ _).2
      ⟨names, x.sorted, hb, rfl, goesDown_iff.2 fun ms ns hms => ?_, ?_⟩⟩
    · exact hd (name :: ms) ns (by rw [hms]; rfl) (by simp)
    · rw [Node.fate?_sorted]
      exact ho

/-- At a root that has no entries the walk comes to the root alone. -/
theorem meets_of_leaf {leaf : Node} (he : tree.entered? root = some leaf)
    (hl : ∀ name names, leaf.below? (name :: names) = none) :
    stage.Meets tree root q node ↔ q = root ∧ node = leaf := by
  constructor
  · rintro ⟨found, names, hf, hb, rfl, -⟩
    rw [he] at hf
    cases hf
    cases names with
    | nil =>
      cases hb
      exact ⟨rfl, rfl⟩
    | cons name names =>
      rw [hl] at hb
      cases hb
  · rintro ⟨rfl, rfl⟩
    exact ⟨_, [], he, rfl, rfl, by simp⟩

theorem not_meets_of_none (he : tree.entered? root = none) : ¬ stage.Meets tree root q node := by
  rintro ⟨found, names, hf, -⟩
  rw [he] at hf
  cases hf

/-- Below a directory that is a root the walk comes to nodes at some names, which lead away from the
root. -/
theorem meets_of_directory (hp : tree.IsProper) (hroot : root.normal = root)
    (he : tree.entered? root = some (.directory es)) : (q ≠ root ∧ stage.Meets tree root q node) ↔
      ∃ names, names ≠ [] ∧ (Node.directory es).below? names = some node ∧ q = root.extend names ∧
        ∀ ms ns, names = ms ++ ns → ms ≠ [] → ns ≠ [] → stage.enters (root.extend ms) = true := by
  constructor
  · rintro ⟨hne, found, names, hf, hb, rfl, hd⟩
    rw [he] at hf
    cases hf
    exact ⟨names, fun hn => hne (by rw [hn]; rfl), hb, rfl, hd⟩
  · rintro ⟨names, hne, hb, rfl, hd⟩
    refine ⟨fun heq => hne ?_, _, names, he, hb, rfl, hd⟩
    have hnames := (FileTree.isProper_entered? hp he).of_below? hb
    exact Path.extend_inj hroot hnames (by simp) heq

theorem mem_accountRoot (hp : tree.IsProper) (hroot : root.normal = root) :
    (q, o) ∈ stage.accountRoot tree root ↔ (q = root ∧ FateOfRoot tree root o) ∨
      q ≠ root ∧ ∃ x, stage.Meets tree root q x ∧ stage.fate? q x = some o := by
  rcases accountRoot_cases stage tree root with
    ⟨hl, he, ha⟩ | ⟨hl, ⟨content, he, ha⟩ | ⟨es, he, ha⟩ | ⟨he, ha⟩⟩
  · -- Nothing is met elsewhere, whether nothing is there or a locked directory.
    have hm : ¬ (q ≠ root ∧ ∃ x, stage.Meets tree root q x ∧ stage.fate? q x = some o) := by
      rintro ⟨hq, x, hx, -⟩
      rcases he with he | he
      · exact not_meets_of_none he hx
      · exact hq ((meets_of_leaf he fun _ _ => rfl).1 hx).1
    rw [ha, or_iff_left hm]
    rcases he with he | he <;> cases o <;> simp [FateOfRoot, he, hl]
  · rw [ha]
    simp only [meets_of_leaf he fun _ _ => rfl]
    cases o <;> simp +contextual [FateOfRoot, he, hl]
  · rw [ha, mem_accountEntries_sorted (FileTree.isProper_entered? hp he)]
    have hr : ¬ FateOfRoot tree root o := by cases o <;> simp [FateOfRoot, he, hl]
    simp only [hr, and_false, false_or]
    constructor
    · rintro ⟨names, x, hne, hb, hq, hd, ho⟩
      obtain ⟨hqr, hm⟩ := (meets_of_directory hp hroot he).2 ⟨names, hne, hb, hq, hd⟩
      exact ⟨hqr, x, hm, ho⟩
    · rintro ⟨hqr, x, hm, ho⟩
      obtain ⟨names, hne, hb, hq, hd⟩ := (meets_of_directory hp hroot he).1 ⟨hqr, hm⟩
      exact ⟨names, x, hne, hb, hq, hd, ho⟩
  · rw [ha]
    simp only [not_meets_of_none he, false_and, exists_false, and_false, or_false]
    cases o <;> simp [FateOfRoot, he, hl]

theorem fate?_eq_some_iff : plan.fate? q node = some o ↔
    match o with
    | .visited => (∃ content, node = .file content) ∧ plan.admitsFile q = true
    | .leftOut => (∃ content, node = .file content) ∧ plan.admitsFile q = false
    | .closed => (node = .locked ∨ ∃ es, node = .directory es) ∧ plan.admitsDirectory q = false
    | .unread => (node = .locked ∨ (∃ es, node = .directory es) ∧ q.fits = false) ∧
        plan.admitsDirectory q = true := by
  cases node with
  | locked => cases ha : plan.admitsDirectory q <;> cases o <;> simp [fate?, ha]
  | file content => cases ha : plan.admitsFile q <;> cases o <;> simp [fate?, ha]
  | link target => cases o <;> simp [fate?]
  | directory es =>
    cases ha : plan.admitsDirectory q <;> cases hf : q.fits <;> cases o <;> simp [fate?, ha, hf]

/-- At the root itself the walk comes to what the root leads to. -/
theorem meets_root_iff (hp : tree.IsProper) (hroot : root.normal = root) :
    stage.Meets tree root root node ↔ tree.entered? root = some node := by
  constructor
  · rintro ⟨found, names, he, hb, hr, -⟩
    have hnames := (FileTree.isProper_entered? hp he).of_below? hb
    obtain rfl : [] = names := Path.extend_inj hroot (by simp) hnames hr
    cases hb
    exact he
  · intro he
    exact ⟨node, [], he, rfl, rfl, by simp⟩

/-! ## Numbers of entries -/

section

variable (hp : tree.IsProper) (hroot : root.normal = root)
include hp hroot

theorem visited_entry_iff : (q, .visited) ∈ stage.accountRoot tree root ↔
    q ∈ stage.filesMet tree root ∧ (q = root ∨ stage.admitsFile q = true) := by
  have hmeets (node : Node) : stage.Meets tree root root node ↔ tree.entered? root = some node :=
    meets_root_iff hp hroot
  rw [mem_accountRoot hp hroot]
  simp only [fate?_eq_some_iff, FateOfRoot, filesMet, Set.mem_ofPred_eq, ← hmeets]
  by_cases hq : q = root
  · subst hq
    simp
  · simp only [hq, false_and, false_or, ne_eq, not_false_eq_true, true_and]
    grind

theorem leftOut_entry_iff : (q, .leftOut) ∈ stage.accountRoot tree root ↔
    q ∈ stage.filesLeftOut tree root := by
  rw [mem_accountRoot hp hroot]
  simp only [fate?_eq_some_iff, FateOfRoot, filesLeftOut, filesMet, Set.mem_ofPred_eq]
  grind

theorem closed_entry_iff : (q, .closed) ∈ stage.accountRoot tree root ↔
    q ∈ stage.directoriesClosed tree root := by
  rw [mem_accountRoot hp hroot]
  simp only [fate?_eq_some_iff, FateOfRoot, directoriesClosed, directoriesMet, Set.mem_ofPred_eq]
  grind

theorem unread_entry_iff : (q, .unread) ∈ stage.accountRoot tree root ↔
    q ∈ stage.pathsUnread tree root := by
  rw [mem_accountRoot hp hroot]
  simp only [fate?_eq_some_iff, FateOfRoot, pathsUnread, directoriesMet, Set.mem_ofPred_eq,
    Set.mem_union]
  grind

end

theorem isIncreasing_accountRoot (hp : tree.IsProper) (hroot : root.normal = root) :
    Node.IsIncreasing (stage.accountRoot tree root) := by
  rcases accountRoot_cases stage tree root with
    ⟨-, -, ha⟩ | ⟨-, ⟨-, -, ha⟩ | ⟨es, he, ha⟩ | ⟨-, ha⟩⟩ <;> rw [ha]
  · exact List.pairwise_singleton _ _
  · exact List.pairwise_singleton _ _
  · have hes : Node.AreProper es := FileTree.isProper_entered? hp he
    exact Node.isIncreasing_accountEntries _ (Node.areProper_sortedEntries es hes)
      (Node.areOrdered_sortedEntries es hes) hroot
  · exact .nil

end Plan

namespace Tally

variable {es : List (Path × Fate)}

theorem mem_withFate {q : Path} {o : Fate} : q ∈ withFate o es ↔ (q, o) ∈ es := by
  simp [withFate]

theorem pairwise_withFate (h : Node.IsIncreasing es) (o : Fate) :
    (withFate o es).Pairwise fun p q => p.spellings < q.spellings :=
  List.pairwise_map.2 (h.filter _)

variable {o : Fate} {s : Set Path} (hs : ∀ q, (q, o) ∈ es ↔ q ∈ s)
include hs

theorem eq_withFate : s = (withFate o es).toFinset := by
  ext q
  rw [← hs, List.coe_toFinset, Set.mem_ofPred_eq, mem_withFate]

theorem finite_of_entries : s.Finite := by
  rw [eq_withFate hs]
  exact Finset.finite_toSet _

/-- Increasing entries are of different paths, so they are as many as the paths of one fate. -/
theorem length_withFate (h : Node.IsIncreasing es) : (withFate o es).length = s.ncard := by
  have hnodup : (withFate o es).Nodup := (pairwise_withFate h o).imp fun hlt he => by
    rw [he] at hlt
    exact List.lt_irrefl _ hlt
  rw [eq_withFate hs, Set.ncard_coe_finset, List.toFinset_card_of_nodup hnodup]

end Tally

namespace Plan

variable {stage plan : Plan} {tree : FileTree} {root : Path}

/-- A tally that accounts for what the walk of a root comes to. -/
structure AccountsFor (t : Tally) (stage : Plan) (tree : FileTree) (root : Path) : Prop where
  /-- The visited files are in the order of their components, none of them twice. -/
  increasing : t.visited.Pairwise fun f g => f.spellings < g.spellings
  /-- The files that the walk comes to are visited if they are let in; the root always is. -/
  visited : ∀ f, f ∈ t.visited ↔
    f ∈ stage.filesMet tree root ∧ (f = root ∨ stage.admitsFile f = true)
  excluded : t.excluded =
    (stage.filesLeftOut tree root).ncard + (stage.directoriesClosed tree root).ncard
  errors : t.errors = (stage.pathsUnread tree root).ncard
  /-- A file that the walk comes to is visited or left out, and not both. -/
  once : ∀ f ∈ stage.filesMet tree root, (f ∈ t.visited ↔ f ∉ stage.filesLeftOut tree root)
  files : (stage.filesMet tree root).ncard =
    t.visited.length + (stage.filesLeftOut tree root).ncard

/-- Each file that the walk comes to is let in, or left out. -/
theorem filesMet_eq (stage : Plan) (tree : FileTree) (root : Path) : stage.filesMet tree root =
    {f ∈ stage.filesMet tree root | f = root ∨ stage.admitsFile f = true} ∪
      stage.filesLeftOut tree root := by
  ext f
  simp only [filesLeftOut, Set.mem_union, Set.mem_ofPred_eq]
  grind

/-- A file that is let in is not left out. -/
theorem not_mem_filesLeftOut {f : Path} (hf : f = root ∨ stage.admitsFile f = true) :
    f ∉ stage.filesLeftOut tree root := by
  rintro ⟨-, hne, ha⟩
  rcases hf with rfl | hf
  · exact hne rfl
  · rw [ha] at hf
    cases hf

theorem accountsFor_walkRoot (hp : tree.IsProper) (hroot : root.normal = root) (stage : Plan) :
    AccountsFor (stage.walkRoot tree root) stage tree root := by
  have hinc : Node.IsIncreasing (stage.accountRoot tree root) := isIncreasing_accountRoot hp hroot
  have hvisited (q : Path) : (q, .visited) ∈ stage.accountRoot tree root ↔
      q ∈ {f ∈ stage.filesMet tree root | f = root ∨ stage.admitsFile f = true} :=
    visited_entry_iff hp hroot
  have hleftOut (q : Path) : (q, .leftOut) ∈ stage.accountRoot tree root ↔
      q ∈ stage.filesLeftOut tree root := leftOut_entry_iff hp hroot
  obtain ⟨hv, hx, he⟩ := Tally.counts_ofEntries (stage.accountRoot tree root)
  rw [← walkRoot_eq] at hv hx he
  have hmem (f : Path) : f ∈ (stage.walkRoot tree root).visited ↔
      f ∈ stage.filesMet tree root ∧ (f = root ∨ stage.admitsFile f = true) := by
    rw [hv, Tally.mem_withFate, hvisited, Set.mem_ofPred_eq]
  have hcount : (stage.walkRoot tree root).visited.length =
      {f ∈ stage.filesMet tree root | f = root ∨ stage.admitsFile f = true}.ncard := by
    rw [hv]
    exact Tally.length_withFate hvisited hinc
  constructor
  case increasing =>
    rw [hv]
    exact Tally.pairwise_withFate hinc .visited
  case visited => exact hmem
  case excluded =>
    rw [hx, Tally.length_withFate hleftOut hinc,
      Tally.length_withFate (fun q => closed_entry_iff hp hroot) hinc]
  case errors => rw [he, Tally.length_withFate (fun q => unread_entry_iff hp hroot) hinc]
  case once =>
    intro f hf
    rw [hmem]
    constructor
    · exact fun hv => not_mem_filesLeftOut hv.2
    · intro hl
      rw [filesMet_eq] at hf
      exact hf.resolve_right hl
  case files =>
    have hdisjoint :
        Disjoint {f ∈ stage.filesMet tree root | f = root ∨ stage.admitsFile f = true}
          (stage.filesLeftOut tree root) :=
      Set.disjoint_left.2 fun f hv => not_mem_filesLeftOut hv.2
    rw [hcount, ← Set.ncard_union_eq hdisjoint
      (Tally.finite_of_entries hvisited) (Tally.finite_of_entries hleftOut), ← filesMet_eq]

/-! ## All roots -/

theorem walk_of_some {plan' : Plan} {root : Root} (h : plan.next = (some root, plan')) :
    plan.walk tree =
      ((plan'.walk tree).1 + 1, plan'.walkRoot tree root.path ++ (plan'.walk tree).2) := by
  rw [walk, walk, walks, walks, stages_of_some h]
  rfl

theorem walk_of_none {plan' : Plan} (h : plan.next = (none, plan')) :
    plan.walk tree = (0, Tally.none) := by
  rw [walk, walks, stages_of_none h]
  rfl

/-- The numbers of a walk are the sums of those of its roots. -/
theorem walk_sums (tree : FileTree) (plan : Plan) :
    (plan.walk tree).1 = plan.roots.length ∧
    (plan.walk tree).2.excluded =
      (plan.stages.map fun s => (s.2.walkRoot tree s.1.path).excluded).sum ∧
    (plan.walk tree).2.errors =
      (plan.stages.map fun s => (s.2.walkRoot tree s.1.path).errors).sum := by
  induction plan using run_induction with
  | handed plan root plan' hn ih =>
    obtain ⟨hr, hx, he⟩ := ih
    rw [walk_of_some hn, stages_of_some hn, roots_of_some hn]
    refine ⟨by rw [hr, List.length_cons], ?_, ?_⟩
    · rw [List.map_cons, List.sum_cons, ← hx]
      rfl
    · rw [List.map_cons, List.sum_cons, ← he]
      rfl
  | finished plan plan' hn =>
    rw [walk_of_none hn, stages_of_none hn, roots_of_none hn]
    exact ⟨rfl, rfl, rfl⟩

/-- The walk goes through the roots in the order in which they are handed out. Under each of them
the visited files strictly increase by their components, and what is visited, left out and not read
is what the walk comes to there. Its report counts the roots, and the sums over them. -/
theorem walk_accounts (plan : Plan) (hp : tree.IsProper) :
    (∀ root stage, (root, stage) ∈ plan.stages →
      AccountsFor (stage.walkRoot tree root.path) stage tree root.path) ∧
    (plan.walk tree).1 = plan.roots.length ∧
    (plan.walk tree).2.visited =
      plan.stages.flatMap (fun s => (s.2.walkRoot tree s.1.path).visited) ∧
    (plan.walk tree).2.excluded = (plan.stages.map fun s =>
      (s.2.filesLeftOut tree s.1.path).ncard + (s.2.directoriesClosed tree s.1.path).ncard).sum ∧
    (plan.walk tree).2.errors =
      (plan.stages.map fun s => (s.2.pathsUnread tree s.1.path).ncard).sum := by
  have hacc : ∀ root stage, (root, stage) ∈ plan.stages →
      AccountsFor (stage.walkRoot tree root.path) stage tree root.path :=
    fun root stage hs => accountsFor_walkRoot hp (normal_of_mem_stages hs) stage
  obtain ⟨hr, hx, he⟩ := walk_sums tree plan
  refine ⟨hacc, hr, visited_walk, ?_, ?_⟩
  · rw [hx]
    congr 1
    exact List.map_congr_left fun s hs => (hacc s.1 s.2 hs).excluded
  · rw [he]
    congr 1
    exact List.map_congr_left fun s hs => (hacc s.1 s.2 hs).errors

/-- A directory with a file, a file whose name goes on where that of the directory ends, another
directory and a locked one. -/
def dottedTree : FileTree :=
  Node.directory [([0x61, 0x2E, 0x62], .file []), ([0x61], .directory [([0x78], .file [])]),
    ([0x63], .directory []), ([0x64], .locked)]

/-- A plan for one disc without the directories of one name. -/
def dottedPlan : Plan := ofPolicy { hardDiscs := true, excludes := ["c/".toList] } [.hardDisc .root]

/-- The file in the directory comes first, although a dot comes before a separator in texts. The
other directory and the locked one are counted. -/
theorem dotted_names_in_order : dottedTree.IsProper ∧
    AccountsFor (dottedPlan.next.2.walkRoot dottedTree .root) dottedPlan.next.2 dottedTree .root ∧
    (dottedPlan.next.2.walkRoot dottedTree .root).visited =
      [.ofText "/a/x".toList, .ofText "/a.b".toList] ∧
    (dottedPlan.next.2.walkRoot dottedTree .root).excluded = 1 ∧
    (dottedPlan.next.2.walkRoot dottedTree .root).errors = 1 ∧
    (dottedPlan.walk dottedTree).1 = 1 := by
  have hp : dottedTree.IsProper := by decide
  have hf : dottedTree.find? .root false = some dottedTree.top := FileTree.find?_root rfl false
  have hs : (⟨.root, .mount⟩, dottedPlan.next.2) ∈ dottedPlan.stages := by decide +kernel
  have hw : dottedPlan.next.2.walkRoot dottedTree .root =
      Node.walkEntries dottedPlan.next.2 .root (Node.sortedEntries
        [([0x61, 0x2E, 0x62], .file []), ([0x61], .directory [([0x78], .file [])]),
          ([0x63], .directory []), ([0x64], .locked)]) := by
    rw [walkRoot, hf]
    rfl
  obtain ⟨hacc, hr, -⟩ := walk_accounts dottedPlan hp
  refine ⟨hp, hacc _ _ hs, ?_, ?_, ?_, ?_⟩
  · rw [hw]
    decide +kernel
  · rw [hw]
    decide +kernel
  · rw [hw]
    decide +kernel
  · rw [hr]
    decide +kernel

end Plan

end Sweep
