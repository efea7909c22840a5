import Sweep.RuleSet
import Sweep.Mount
/-!
# Plans of a scan

A plan hands out the roots of a scan one after the other: first the mounts that were asked for, then
the include paths. It knows which texts of paths are set aside (stems, exact paths, rules), which
mounts are barred because their kind was not asked for, and which roots were handed out. If nothing
is selected, the root of the file tree is scanned.
-/

namespace Sweep

/-- Why a root is scanned. -/
inductive RootKind where
  /-- A mount of a kind that was asked for. -/
  | mount
  /-- A path that the policy includes. -/
  | explicit
  deriving DecidableEq, Repr

/-- A directory or file where the scan starts. -/
structure Root where
  path : Path
  kind : RootKind
  deriving DecidableEq, Repr

/-- Whether the root is an include path. -/
def Root.isExplicit (r : Root) : Bool := r.kind == .explicit

/-- The state of a planned scan. -/
structure Plan where
  /-- Every include path, and the root of the file tree if it stands in for them. -/
  includes : List Location := []
  pendingMounts : List Location := []
  pendingIncludes : List Location := []
  barredMounts : List Location := []
  exactExclusions : List Text := []
  stemExclusions : List Text := []
  rules : RuleSet := {}
  current : Option Root := none
  handedOut : List Location := []
  deriving DecidableEq, Repr

namespace Plan

/-! ## Making a plan -/

/-- What is told about an include path: it counts only if it starts at the root. -/
def includeNotice (p : Path) : Notice :=
  if p.isAbsolute then .decided (.includeDirectory p.normal) else .relativeInclude p

/-- What is told about the text of an exclusion. -/
def exclusionNotices (t : Text) : List Notice :=
  match Rule.parse t with
  | .error e => [.droppedRule e]
  | .ok r => if r.isValid then [.decided (.excludeDirectory t)] else []

/-- What is told about an extension. -/
def extensionNotices (token : Text) : List Notice :=
  let r := Rule.ofExtension token
  if r.isValid then [.decided (.excludeDirectory r.pattern.key)] else []

/-- The path that the text of an exclusion names exactly. -/
def exactOf? (t : Text) : Option Text :=
  match Rule.parse t with
  | .ok ⟨_, .exact full⟩ => some full
  | _ => none

/-- The stem that the text of an exclusion gives. -/
def stemOf? (t : Text) : Option Text :=
  match Rule.parse t with
  | .ok r => r.pattern.stem?
  | .error _ => none

/-- The rule of the text of an exclusion, unless it goes to the stems. -/
def ruleOf? (t : Text) : Option Rule :=
  match Rule.parse t with
  | .ok r => if r.pattern.stem?.isNone then some r else none
  | .error _ => none

/-- The plan of a policy before it knows of mounts. -/
def ofPaths (policy : Policy) : Plan :=
  let includes := (policy.includes.filter Path.isAbsolute).map Path.location
  { includes
    pendingIncludes := includes
    exactExclusions := policy.excludes.filterMap exactOf?
    stemExclusions := policy.excludes.filterMap stemOf?
    rules := RuleSet.ofList
      (policy.excludes.filterMap ruleOf? ++ policy.extensions.map Rule.ofExtension) }

/-- Adds a mount. A special one is set aside as a stem; one below a stem so far is passed over; one
of a kind asked for becomes a root; any other is barred if kinds are asked for at all. -/
def addMount (policy : Policy) (plan : Plan) (m : Mount) : Plan × List Notice :=
  let point := m.point.location
  if m.is .special then
    ({ plan with stemExclusions := plan.stemExclusions ++ [m.stem] },
      [.decided (.excludeMount point.path)])
  else if plan.stemExclusions.any (·.isPrefixOf m.stem) then (plan, [])
  else if m.isRequested policy then
    ({ plan with pendingMounts := plan.pendingMounts ++ [point] },
      [.decided (.includeMount point.path)])
  else if policy.requestsDevices then
    ({ plan with barredMounts := plan.barredMounts ++ [point] },
      [.decided (.excludeMount point.path)])
  else (plan, [])

/-- Adds the mounts in their order. -/
def addMounts (policy : Policy) (plan : Plan) : List Mount → Plan × List Notice
  | [] => (plan, [])
  | m :: ms =>
    let (plan, told) := plan.addMount policy m
    let (plan, toldAfter) := plan.addMounts policy ms
    (plan, told ++ toldAfter)

/-- Puts the root of the file tree in if nothing is selected. -/
def orEverything (plan : Plan) : Plan × List Notice :=
  if plan.pendingIncludes.isEmpty && plan.pendingMounts.isEmpty then
    ({ plan with
        includes := plan.includes ++ [Path.root.location]
        pendingIncludes := [Path.root.location] },
      [.decided (.includeDirectory Path.root)])
  else (plan, [])

/-- The plan of a policy with these mounts, and what is told while it is made. -/
def make (policy : Policy) (mounts : List Mount) : Plan × List Notice :=
  let plan := ofPaths policy
  let told := policy.includes.map includeNotice ++ policy.excludes.flatMap exclusionNotices ++
    policy.extensions.flatMap extensionNotices ++ plan.rules.notices
  let (plan, aboutMounts) := plan.addMounts policy mounts
  let (plan, aboutEverything) := plan.orEverything
  (plan, told ++ aboutMounts ++ aboutEverything)

/-- The plan of a policy with these mounts. -/
def ofPolicy (policy : Policy) (mounts : List Mount) : Plan := (make policy mounts).1

/-! ## Handing out roots -/

/-- Whether the stem is the path with a separator at its end. -/
def isStemOf : Text → Text → Bool
  | [c], [] => c == '/'
  | c :: stem, d :: path => c == d && isStemOf stem path
  | _, _ => false

theorem isStemOf_iff {stem path : Text} : isStemOf stem path = true ↔ stem = path ++ ['/'] := by
  fun_induction isStemOf stem path with
  | case1 => simp
  | case2 c stem d path ih => simp [ih]
  | case3 stem path h1 h2 =>
    cases stem with
    | nil => simp
    | cons c stem =>
      cases path with
      | nil => cases stem <;> simp_all
      | cons d path => exact absurd rfl (h2 c stem d path rfl)

/-- Whether a stem excludes the path; a directory is excluded by the stem that it names, too. -/
def stemCovers (stem path : Text) (isDirectory : Bool) : Bool :=
  stem.isPrefixOf path || (isDirectory && isStemOf stem path)

/-- Whether there was a root at the location. -/
def wasHandedOut (plan : Plan) (l : Location) : Bool := plan.handedOut.contains l

/-- Whether a mount is not handed out: a stem covers it, or it was handed out before. -/
def passesOver (plan : Plan) (point : Location) : Bool :=
  plan.stemExclusions.any (stemCovers · point.path.text true) || plan.wasHandedOut point

/-- The plan with a root that is scanned from now on. -/
def enter (plan : Plan) (root : Root) : Plan :=
  { plan with current := some root, handedOut := plan.handedOut ++ [root.path.location] }

/-- The next root, if one is left, and the plan in which it is scanned. -/
def next (plan : Plan) : Option Root × Plan :=
  match plan.pendingMounts.dropWhile plan.passesOver with
  | point :: rest =>
    let root : Root := ⟨point.path, .mount⟩
    (some root, { plan with pendingMounts := rest }.enter root)
  | [] =>
    match plan.pendingIncludes.dropWhile plan.wasHandedOut with
    | start :: rest =>
      let root : Root := ⟨start.path, .explicit⟩
      (some root, { plan with pendingMounts := [], pendingIncludes := rest }.enter root)
    | [] =>
      -- Nothing is left: no root is current any more.
      (none, { plan with pendingMounts := [], pendingIncludes := [], current := none })

/-- Number of paths that may still be handed out. -/
def remaining (plan : Plan) : Nat := plan.pendingMounts.length + plan.pendingIncludes.length

theorem length_dropWhile_le {α : Type} (f : α → Bool) (l : List α) :
    (l.dropWhile f).length ≤ l.length :=
  (List.dropWhile_sublist f).length_le

/-- A root that is handed out is no longer pending. -/
theorem remaining_next_lt {plan plan' : Plan} {root : Root} (h : plan.next = (some root, plan')) :
    plan'.remaining < plan.remaining := by
  unfold next at h
  split at h
  next point rest hm =>
    have hl := length_dropWhile_le plan.passesOver plan.pendingMounts
    simp only [Prod.mk.injEq] at h
    rw [hm] at hl
    obtain ⟨-, rfl⟩ := h
    simp only [remaining, enter, List.length_cons] at hl ⊢
    omega
  next hm =>
    split at h
    next start rest hi =>
      have hl := length_dropWhile_le plan.wasHandedOut plan.pendingIncludes
      simp only [Prod.mk.injEq] at h
      rw [hi] at hl
      obtain ⟨-, rfl⟩ := h
      simp only [remaining, enter, List.length_cons, List.length_nil] at hl ⊢
      omega
    next hi => simp at h

/-- All roots that are still to be handed out, each with the plan in which it is scanned. -/
def stages (plan : Plan) : List (Root × Plan) :=
  match h : plan.next with
  | (some root, plan') =>
    have := remaining_next_lt h
    (root, plan') :: stages plan'
  | (none, _) => []
termination_by plan.remaining

/-- All roots that are still to be handed out. -/
def roots (plan : Plan) : List Root := plan.stages.map Prod.fst

end Plan

end Sweep
