import Sweep.Proofs.Lexicographic
import Sweep.Proofs.Visits
/-!
# The account of a walk

A walk below a directory makes an entry in its account for each file that it meets, for each
directory that it does not enter, and for no other node. The tally of the walk is that of the
entries, and they stand in the order of their components, each compared by the bytes of its name.
-/

namespace Sweep

/-- What a path is compared by: the spellings of its components. -/
def Path.spellings (p : Path) : List (List UInt8) := p.components.map Component.spelling

theorem Path.spellings_extend {p : Path} (hp : p.normal = p) {ns : List (List UInt8)}
    (hn : ∀ n ∈ ns, IsName n) : (p.extend ns).spellings = p.spellings ++ ns := by
  rw [spellings, components_extend hp hn, List.map_append, map_spelling_name, spellings]

/-! ## Entries of an account -/

/-- What a walk does with a file that it meets or a directory that it does not enter. -/
inductive Fate where
  /-- The file is visited. -/
  | visited
  /-- The file is left out. -/
  | leftOut
  /-- The directory is not let in. -/
  | closed
  /-- The directory is let in, but cannot be read. -/
  | unread
  deriving DecidableEq

/-- What an entry adds to a tally. -/
def Fate.tally (p : Path) : Fate → Tally
  | .visited => Tally.visit p
  | .leftOut | .closed => Tally.exclude
  | .unread => Tally.fail p

namespace Tally

/-- The tally of some entries. -/
def ofEntries : List (Path × Fate) → Tally
  | [] => Tally.none
  | (p, o) :: es => o.tally p ++ ofEntries es

/-- The paths of the entries with one fate. -/
def withFate (o : Fate) (es : List (Path × Fate)) : List Path :=
  (es.filter fun e => e.2 = o).map Prod.fst

theorem none_append (t : Tally) : Tally.none ++ t = t := by
  change Tally.append Tally.none t = t
  simp [append, none]

theorem append_none (t : Tally) : t ++ Tally.none = t := by
  change Tally.append t Tally.none = t
  simp [append, none]

theorem append_assoc (a b c : Tally) : a ++ b ++ c = a ++ (b ++ c) := by
  change Tally.append (Tally.append a b) c = Tally.append a (Tally.append b c)
  simp [append, Nat.add_assoc]

theorem ofEntries_append (es fs : List (Path × Fate)) :
    ofEntries (es ++ fs) = ofEntries es ++ ofEntries fs := by
  induction es with
  | nil => exact (none_append _).symm
  | cons e es ih => rw [List.cons_append, ofEntries, ofEntries, ih, append_assoc]

/-- The numbers of a tally are those of the entries. -/
theorem counts_ofEntries (es : List (Path × Fate)) :
    (ofEntries es).visited = withFate .visited es ∧
    (ofEntries es).excluded =
      (withFate .leftOut es).length + (withFate .closed es).length ∧
    (ofEntries es).errors = (withFate .unread es).length := by
  induction es with
  | nil => exact ⟨rfl, rfl, rfl⟩
  | cons e es ih =>
    obtain ⟨p, o⟩ := e
    obtain ⟨hv, hx, he⟩ := ih
    change (Fate.tally p o).visited ++ (ofEntries es).visited = _ ∧
      (Fate.tally p o).excluded + (ofEntries es).excluded = _ ∧
      (Fate.tally p o).errors + (ofEntries es).errors = _
    rw [hv, hx, he]
    cases o <;> simp [Fate.tally, visit, exclude, fail, withFate] <;> omega

end Tally

namespace Plan

/-- What the walk does with a node, unless it is a link or a directory that the walk enters. -/
def fate? (plan : Plan) (p : Path) : Node → Option Fate
  | .file _ => some (if plan.admitsFile p then .visited else .leftOut)
  | .locked => some (if plan.admitsDirectory p then .unread else .closed)
  | .link _ => none
  | .directory _ =>
    if plan.admitsDirectory p then if p.fits then none else some .unread else some .closed

end Plan

namespace Node

mutual

/-- The entries that the walk of a node makes. -/
def account (plan : Plan) (p : Path) : Node → List (Path × Fate)
  | .file _ => [(p, if plan.admitsFile p then .visited else .leftOut)]
  | .locked => [(p, if plan.admitsDirectory p then .unread else .closed)]
  | .link _ => []
  | .directory es =>
    if plan.admitsDirectory p then
      if p.fits then accountEntries plan p es else [(p, .unread)]
    else [(p, .closed)]

/-- The entries that the walk of the entries of a directory makes. -/
def accountEntries (plan : Plan) (p : Path) : List (List UInt8 × Node) → List (Path × Fate)
  | [] => []
  | (name, node) :: es => node.account plan (p.child name) ++ accountEntries plan p es

end

variable {plan : Plan}

mutual

theorem walk_eq (plan : Plan) (p : Path) : (node : Node) →
    node.walk plan p = Tally.ofEntries (node.account plan p)
  | .file _ | .locked => by
    rw [walk, account]
    split <;> exact (Tally.append_none _).symm
  | .link _ => rfl
  | .directory es => by
    rw [walk, account]
    split
    · split
      · exact walkEntries_eq plan p es
      · exact (Tally.append_none _).symm
    · exact (Tally.append_none _).symm

theorem walkEntries_eq (plan : Plan) (p : Path) : (es : List (List UInt8 × Node)) →
    walkEntries plan p es = Tally.ofEntries (accountEntries plan p es)
  | [] => rfl
  | (name, node) :: es => by
    rw [walkEntries, accountEntries, Tally.ofEntries_append, walk_eq plan _ node,
      walkEntries_eq plan p es]

end

/-! ## Which entries there are -/

theorem mem_accountEntries {es : List (List UInt8 × Node)} (h : AreProper es) {p : Path}
    {e : Path × Fate} : e ∈ accountEntries plan p es ↔
      ∃ name node, named? name es = some node ∧ e ∈ node.account plan (p.child name) := by
  have hmem : e ∈ accountEntries plan p es ↔
      ∃ name node, (name, node) ∈ es ∧ e ∈ node.account plan (p.child name) := by
    clear h
    induction es with
    | nil => simp [accountEntries]
    | cons f es ih =>
      obtain ⟨n, x⟩ := f
      rw [accountEntries, List.mem_append, ih]
      simp only [List.mem_cons, Prod.mk.injEq, or_and_right, exists_or, and_assoc]
      simp
  simp only [hmem, h.mem_iff]

/-- Where the walk does not go further down, it makes at most an entry for the node itself. -/
theorem goesDown_nowhere {node : Node} {p q : Path} {o : Fate} (h : ∀ name names x,
    node.below? (name :: names) = some x → plan.goesDown p (name :: names) = false) :
    (∃ names x, node.below? names = some x ∧ q = p.extend names ∧
      plan.goesDown p names = true ∧ plan.fate? q x = some o) ↔
        q = p ∧ plan.fate? p node = some o := by
  constructor
  · rintro ⟨names, x, hb, rfl, hd, ho⟩
    cases names with
    | nil =>
      cases hb
      exact ⟨rfl, ho⟩
    | cons name names =>
      rw [h name names x hb] at hd
      cases hd
  · rintro ⟨rfl, ho⟩
    exact ⟨[], node, rfl, rfl, rfl, ho⟩

/-- The walk makes an entry for each node to which it goes down, unless it is a link or the walk
enters it. -/
theorem mem_account {node : Node} (h : node.IsProper) : ∀ (p q : Path) (o : Fate),
    (q, o) ∈ node.account plan p ↔ ∃ names x, node.below? names = some x ∧ q = p.extend names ∧
      plan.goesDown p names = true ∧ plan.fate? q x = some o := by
  refine IsProper.induction ?file ?locked ?link ?directory node h
  case file =>
    intro content p q o
    rw [goesDown_nowhere (by simp [below?]), account, List.mem_singleton, Prod.mk.injEq, Plan.fate?,
      Option.some.injEq, eq_comm (a := o)]
  case locked =>
    intro p q o
    rw [goesDown_nowhere (by simp [below?]), account, List.mem_singleton, Prod.mk.injEq, Plan.fate?,
      Option.some.injEq, eq_comm (a := o)]
  case link =>
    intro target p q o
    rw [goesDown_nowhere (by simp [below?]), account, Plan.fate?]
    simp
  case directory =>
    intro es hes ih p q o
    cases hp : plan.enters p with
    | false =>
      rw [goesDown_nowhere fun name names x _ => by rw [Plan.goesDown, hp, Bool.false_and], account,
        Plan.fate?]
      rw [Plan.enters] at hp
      split
      · next ha =>
        have hf : p.fits = false := by simpa [ha] using hp
        simp [hf, eq_comm]
      · simp [eq_comm]
    | true =>
      obtain ⟨ha, hf⟩ := Bool.and_eq_true_iff.1 hp
      rw [account, if_pos ha, if_pos hf, mem_accountEntries hes]
      constructor
      · rintro ⟨name, node, hn, he⟩
        obtain ⟨names, x, hb, rfl, hd, ho⟩ := (ih name node hn _ _ _).1 he
        refine ⟨name :: names, x, ?_, rfl, ?_, ho⟩
        · rw [below?, hn]
          exact hb
        · rw [Plan.goesDown, hp, hd]
          rfl
      · rintro ⟨names, x, hb, rfl, hd, ho⟩
        cases names with
        | nil =>
          cases hb
          simp [Plan.fate?, ha, hf] at ho
        | cons name names =>
          obtain ⟨node, hn, hb⟩ := Option.bind_eq_some_iff.1 hb
          rw [Plan.goesDown, Bool.and_eq_true] at hd
          exact ⟨name, node, hn, (ih name node hn _ _ _).2 ⟨names, x, hb, rfl, hd.2, ho⟩⟩

/-! ## The order of entries -/

mutual

/-- Whether the names in all directories are in order. -/
def IsOrdered : Node → Prop
  | .file _ => True
  | .locked => True
  | .link _ => True
  | .directory es => AreOrdered es

/-- Whether the names of the entries are strictly in order, and the entries ordered themselves. -/
def AreOrdered : List (List UInt8 × Node) → Prop
  | [] => True
  | (name, node) :: es => (∀ e ∈ es, name < e.1) ∧ node.IsOrdered ∧ AreOrdered es

end

theorem mem_insertEntry {e f : List UInt8 × Node} {es : List (List UInt8 × Node)} :
    f ∈ insertEntry e es ↔ f = e ∨ f ∈ es := by
  induction es with
  | nil => simp [insertEntry]
  | cons g es ih =>
    rw [insertEntry]
    split
    · exact List.mem_cons
    · rw [List.mem_cons, ih, List.mem_cons, or_left_comm]

theorem areOrdered_insertEntry {name : List UInt8} {node : Node} {es : List (List UInt8 × Node)}
    (hn : node.IsOrdered) (hes : AreOrdered es) (hnew : ∀ e ∈ es, e.1 ≠ name) :
    AreOrdered (insertEntry (name, node) es) := by
  induction es with
  | nil => exact ⟨by simp, hn, trivial⟩
  | cons f es ih =>
    obtain ⟨n, x⟩ := f
    obtain ⟨hlt, hx, hes'⟩ := hes
    obtain ⟨hne, hnew⟩ := List.forall_mem_cons.1 hnew
    rw [insertEntry]
    split
    · next hle =>
      have hlt' : name < n := (nameLE_iff.1 hle).resolve_right (Ne.symm hne)
      refine ⟨List.forall_mem_cons.2 ⟨hlt', fun e he => ?_⟩, hn, hlt, hx, hes'⟩
      exact List.lt_trans hlt' (hlt e he)
    · next hle =>
      refine ⟨fun e he => ?_, hx, ih hes' hnew⟩
      rcases mem_insertEntry.1 he with rfl | he
      · exact lt_of_not_nameLE hle
      · exact hlt e he

theorem named?_eq_none_iff {name : List UInt8} {es : List (List UInt8 × Node)} :
    named? name es = none ↔ ∀ e ∈ es, e.1 ≠ name := by
  induction es with
  | nil => simp [named?]
  | cons e es ih =>
    rw [named?_cons, List.forall_mem_cons, ← ih]
    split
    · next he => simp [he]
    · next he => simp [he]

mutual

theorem isOrdered_sorted : (node : Node) → node.IsProper → node.sorted.IsOrdered
  | .file _, _ => trivial
  | .locked, _ => trivial
  | .link _, _ => trivial
  | .directory es, h => areOrdered_sortedEntries es h

theorem areOrdered_sortedEntries :
    (es : List (List UInt8 × Node)) → AreProper es → AreOrdered (sortedEntries es)
  | [], _ => trivial
  | (_, node) :: es, ⟨_, h2, h3, h4⟩ =>
    areOrdered_insertEntry (isOrdered_sorted node h3) (areOrdered_sortedEntries es h4)
      (named?_eq_none_iff.1 (by rw [named?_sortedEntries, h2]; rfl))

end

/-- Whether the paths of the entries are strictly in order. -/
def IsIncreasing (es : List (Path × Fate)) : Prop :=
  es.Pairwise fun e f => e.1.spellings < f.1.spellings

/-- The entries below a name come before those below a later one. -/
theorem spellings_lt_of_names {p q r : Path} (hp : p.normal = p) {n m : List UInt8}
    {ns ms : List (List UInt8)} (hns : ∀ k ∈ n :: ns, Path.IsName k)
    (hms : ∀ k ∈ m :: ms, Path.IsName k) (hq : q = p.extend (n :: ns))
    (hr : r = p.extend (m :: ms)) (h : n < m) : q.spellings < r.spellings := by
  rw [hq, hr, Path.spellings_extend hp hns, Path.spellings_extend hp hms]
  exact List.append_left_lt (List.cons_lt_cons_iff.2 (.inl h))

mutual

theorem isIncreasing_account : (node : Node) → node.IsProper → node.IsOrdered → {p : Path} →
    p.normal = p → IsIncreasing (node.account plan p)
  | .file _, _, _, p, _ | .locked, _, _, p, _ => List.pairwise_singleton _ _
  | .link _, _, _, p, _ => .nil
  | .directory es, h, ho, p, hp => by
    rw [account]
    split
    · split
      · exact isIncreasing_accountEntries es h ho hp
      · exact List.pairwise_singleton _ _
    · exact List.pairwise_singleton _ _

theorem isIncreasing_accountEntries : (es : List (List UInt8 × Node)) → AreProper es →
    AreOrdered es → {p : Path} → p.normal = p → IsIncreasing (accountEntries plan p es)
  | [], _, _, p, _ => .nil
  | (n, x) :: es, ⟨hn, _, hx, hes⟩, ⟨hlt, hox, hoes⟩, p, hp => by
    rw [accountEntries, IsIncreasing, List.pairwise_append]
    refine ⟨isIncreasing_account x hx hox (Path.normal_child hp hn),
      isIncreasing_accountEntries es hes hoes hp, ?_⟩
    rintro ⟨q, o⟩ hq ⟨r, o'⟩ hr
    obtain ⟨ns, _, hb, hqe, -⟩ := (mem_account hx _ _ _).1 hq
    obtain ⟨m, y, hm, hr⟩ := (mem_accountEntries hes).1 hr
    obtain ⟨hmn, hy⟩ := hes.of_named? hm
    obtain ⟨ms, _, hb', hre, -⟩ := (mem_account hy _ _ _).1 hr
    exact spellings_lt_of_names hp (List.forall_mem_cons.2 ⟨hn, hx.of_below? hb⟩)
      (List.forall_mem_cons.2 ⟨hmn, hy.of_below? hb'⟩) hqe hre (hlt (m, y) (hes.mem_iff.2 hm))

end

end Node

end Sweep
