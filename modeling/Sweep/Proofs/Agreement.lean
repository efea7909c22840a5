import Sweep.Proofs.Language
import Sweep.Proofs.Origins
import Sweep.Proofs.Pruning
import Sweep.Proofs.Union
/-!
# Rules on opened files and on scans

The rules of a policy are used in two ways: as one set that judges a file when it is opened, and
split over the parts of a plan that judge the files met on a scan. While the current root is no
include path and no mount is special, what the set excludes the plan keeps out. The plan's rules
keep out no more than the set does, but for what lies below a path that an exact rule or an absolute
wildcard rule stands for.
-/

namespace Sweep

/-! ## Patterns of a policy -/

namespace Pattern

/-- The paths that an exact pattern or an absolute wildcard pattern stands for. -/
def StandsFor : Pattern → Text → Prop
  | .exact full, q => full = q
  | .glob g, q => g.matchesWhole q = true
  | _, _ => False

/-- Split over a plan, a pattern keeps out the paths that it excludes as concrete files, and those
below a path that it stands for. -/
theorem split_iff {p : Pattern} (hp : p.IsPlaced) (t : Text) :
    (p.stem? = none ∧ p.applies (.ofText t) false false = true ∨ p = .exact t ∨
        ∃ stem, p.stem? = some stem ∧ stem <+: t) ↔
      p.applies (.ofText t) false true = true ∨
        ∃ q rest, t = q ++ '/' :: rest ∧ p.StandsFor q := by
  cases p with
  | exact full =>
    simp only [stem?, applies, Candidate.ofText, beq_iff_eq, StandsFor, exact.injEq,
      Option.some.injEq, reduceCtorEq, false_and, false_or]
    refine or_congr eq_comm ⟨?_, ?_⟩
    · rintro ⟨stem, rfl, rest, rfl⟩
      exact ⟨full, rest, by simp, rfl⟩
    · rintro ⟨q, rest, rfl, rfl⟩
      exact ⟨full ++ ['/'], rfl, prefix_below full rest⟩
  | stem dir => simp [stem?, applies, StandsFor, Candidate.ofText]
  | glob g =>
    have hg : g.isAnchored = true := hp
    simp [stem?, applies, StandsFor, Candidate.ofText, Glob.applies, Glob.matchesTree_iff_below, hg]
  | relativeGlob g =>
    have hg : g.isAnchored = false := hp
    simp [stem?, applies, StandsFor, Candidate.ofText, Glob.applies, Glob.matchesTree_iff_below, hg]
  | fileName | ending | relativePath | relativeStem | void => simp [stem?, applies, StandsFor]

end Pattern

/-- The paths that an exact rule or an absolute wildcard rule of the policy stands for. -/
def Policy.Names (policy : Policy) (q : Text) : Prop :=
  ∃ t ∈ policy.excludes, ∃ r, Rule.parse t = .ok r ∧ r.pattern.StandsFor q

theorem Rule.pattern_ofExtension (e : Text) :
    (ofExtension e).pattern = .void ∨ ∃ tail, (ofExtension e).pattern = .ending tail := by
  simp only [ofExtension]
  repeat' split
  all_goals simp

namespace RuleSet

theorem mem_patterns_parseAll {ts : List Text} {p : Pattern} :
    p ∈ (parseAll ts).map Rule.pattern ↔ ∃ t ∈ ts, ∃ r, Rule.parse t = .ok r ∧ r.pattern = p := by
  simp only [parseAll, List.mem_map, List.mem_filterMap]
  constructor
  · rintro ⟨r, ⟨t, ht, hr⟩, rfl⟩
    exact ⟨t, ht, r, by cases hp : Rule.parse t <;> simp_all [Except.toOption], rfl⟩
  · rintro ⟨t, ht, r, hr, rfl⟩
    exact ⟨r, ⟨t, ht, by rw [hr]; rfl⟩, rfl⟩

theorem mem_patterns_ofPolicy {policy : Policy} {p : Pattern} :
    p ∈ (ofPolicy policy).members.map Rule.pattern ↔
      ((∃ t ∈ policy.excludes, ∃ r, Rule.parse t = .ok r ∧ r.pattern = p) ∨
        ∃ e ∈ policy.extensions, (Rule.ofExtension e).pattern = p) ∧ p ≠ .void := by
  rw [ofPolicy, mem_patterns_ofList, List.map_append, List.mem_append, ofTexts,
    mem_patterns_ofList, mem_patterns_parseAll, List.map_map]
  by_cases hv : p = .void <;> simp [hv]

theorem isPlaced_of_mem {policy : Policy} {p : Pattern}
    (h : p ∈ (ofPolicy policy).members.map Rule.pattern) : p.IsPlaced := by
  obtain ⟨⟨t, -, r, hr, rfl⟩ | ⟨e, -, rfl⟩, -⟩ := mem_patterns_ofPolicy.1 h
  · rw [Rule.pattern_of_parse hr]
    exact Pattern.isPlaced_ofText t
  · rcases Rule.pattern_ofExtension e with he | ⟨tail, he⟩ <;> rw [he] <;> trivial

/-- What a pattern of the policy stands for, a rule of its texts does: extensions stand for no
path. -/
theorem names_iff {policy : Policy} {q : Text} : policy.Names q ↔
    ∃ p ∈ (ofPolicy policy).members.map Rule.pattern, p.StandsFor q := by
  constructor
  · rintro ⟨t, ht, r, hr, hq⟩
    refine ⟨r.pattern, mem_patterns_ofPolicy.2 ⟨.inl ⟨t, ht, r, hr, rfl⟩, fun hv => ?_⟩, hq⟩
    rw [hv] at hq
    exact hq
  · rintro ⟨p, hp, hq⟩
    obtain ⟨⟨t, ht, r, hr, rfl⟩ | ⟨e, -, rfl⟩, -⟩ := mem_patterns_ofPolicy.1 hp
    · exact ⟨t, ht, r, hr, hq⟩
    · rcases Rule.pattern_ofExtension e with he | ⟨tail, he⟩ <;> rw [he] at hq <;> exact hq.elim

end RuleSet

/-! ## The rules of a policy, split over a plan -/

namespace Plan

variable {policy : Policy} {mounts : List Mount} {plan : Plan} {p : Pattern} {t : Text}

theorem exactOf?_eq_some_iff {e : Text} :
    exactOf? e = some t ↔ ∃ r, Rule.parse e = .ok r ∧ r.pattern = .exact t := by
  unfold exactOf?
  split
  · next hp => simp [hp]
  · next hne =>
    simp only [reduceCtorEq, false_iff, not_exists, not_and]
    rintro ⟨w, _⟩ hr rfl
    exact hne w t hr

theorem stemOf?_eq_some_iff {e : Text} :
    stemOf? e = some t ↔ ∃ r, Rule.parse e = .ok r ∧ r.pattern.stem? = some t := by
  cases hp : Rule.parse e <;> simp [stemOf?, hp]

theorem ruleOf?_eq_some_iff {e : Text} {r : Rule} :
    ruleOf? e = some r ↔ Rule.parse e = .ok r ∧ r.pattern.stem? = none := by
  cases hp : Rule.parse e with
  | error => simp [ruleOf?, hp]
  | ok s =>
    simp only [ruleOf?, hp, Option.isNone_iff_eq_none, Except.ok.injEq]
    grind

theorem stem?_ofExtension (e : Text) : (Rule.ofExtension e).pattern.stem? = none := by
  rcases Rule.pattern_ofExtension e with he | ⟨tail, he⟩ <;> rw [he] <;> rfl

theorem mem_exactExclusions_iff (hr : Reachable policy mounts plan) :
    t ∈ plan.exactExclusions ↔ .exact t ∈ (RuleSet.ofPolicy policy).members.map Rule.pattern := by
  have hext (e : Text) : (Rule.ofExtension e).pattern ≠ .exact t := by
    intro h
    have := stem?_ofExtension e
    rw [h] at this
    cases this
  simp [hr.exactExclusions, RuleSet.mem_patterns_ofPolicy, exactOf?_eq_some_iff, hext]

theorem mem_stemExclusions_iff (hm : ∀ m ∈ mounts, m.is .special = false)
    (hr : Reachable policy mounts plan) :
    t ∈ plan.stemExclusions ↔
      ∃ p ∈ (RuleSet.ofPolicy policy).members.map Rule.pattern, p.stem? = some t := by
  have hnone : Mount.specialStems mounts = [] := by
    rw [Mount.specialStems, List.map_eq_nil_iff, List.filter_eq_nil_iff]
    simpa using hm
  rw [hr.stemExclusions, hnone, List.append_nil, policyStems, List.mem_filterMap]
  simp only [stemOf?_eq_some_iff, RuleSet.mem_patterns_ofPolicy]
  constructor
  · rintro ⟨e, he, r, hr, ht⟩
    exact ⟨r.pattern, ⟨.inl ⟨e, he, r, hr, rfl⟩, fun hv => by rw [hv] at ht; cases ht⟩, ht⟩
  · rintro ⟨p, ⟨⟨e, he, r, hr, rfl⟩ | ⟨e, -, rfl⟩, -⟩, ht⟩
    · exact ⟨e, he, r, hr, ht⟩
    · rw [stem?_ofExtension] at ht
      cases ht

theorem mem_rules_iff (hr : Reachable policy mounts plan) :
    p ∈ plan.rules.members.map Rule.pattern ↔
      p ∈ (RuleSet.ofPolicy policy).members.map Rule.pattern ∧ p.stem? = none := by
  rw [hr.unchanged Plan.rules fun _ => rfl, rules_ofPolicy, RuleSet.mem_patterns_ofList,
    RuleSet.mem_patterns_ofPolicy, and_right_comm]
  refine and_congr_left fun _ => ?_
  simp only [List.map_append, List.mem_append, List.mem_map, List.mem_filterMap,
    ruleOf?_eq_some_iff, or_and_right]
  refine or_congr ?_ ?_
  · constructor
    · rintro ⟨r, ⟨e, he, hr, hs⟩, rfl⟩
      exact ⟨⟨e, he, r, hr, rfl⟩, hs⟩
    · rintro ⟨⟨e, he, r, hr, rfl⟩, hs⟩
      exact ⟨r, ⟨e, he, hr, hs⟩, rfl⟩
  · constructor
    · rintro ⟨r, ⟨e, he, rfl⟩, rfl⟩
      exact ⟨⟨e, he, rfl⟩, stem?_ofExtension e⟩
    · rintro ⟨⟨e, he, rfl⟩, -⟩
      exact ⟨_, ⟨e, he, rfl⟩, rfl⟩

/-- Whether the rules of the plan keep out a file: a pattern, an exact path or a stem. -/
def KeepsOut (plan : Plan) (t : Text) : Prop :=
  plan.rulesExclude t false = true ∨ t ∈ plan.exactExclusions ∨ plan.stemsExclude t false = true

theorem admitsFile_of_keepsOut {f : Path} (h : plan.KeepsOut f.text) :
    plan.admitsFile f = false := by
  rw [admitsFile, admits_eq_false_iff]
  exact h.imp_right fun h => h.imp_right .inl

/-- While no root is explicit, the plan keeps out what a pattern of the policy does. -/
theorem keepsOut_iff (hm : ∀ m ∈ mounts, m.is .special = false)
    (hr : Reachable policy mounts plan) (hx : plan.rootIsExplicit = false) :
    plan.KeepsOut t ↔ ∃ p ∈ (RuleSet.ofPolicy policy).members.map Rule.pattern,
      p.stem? = none ∧ p.applies (.ofText t) false false = true ∨ p = .exact t ∨
        ∃ stem, p.stem? = some stem ∧ stem <+: t := by
  have hrules : plan.rulesExclude t false = true ↔
      ∃ p ∈ (RuleSet.ofPolicy policy).members.map Rule.pattern,
        p.stem? = none ∧ p.applies (.ofText t) false false = true := by
    rw [rulesExclude, if_neg (by simp), RuleSet.applies_iff]
    simp only [mem_rules_iff hr, and_assoc]
  have hstems : plan.stemsExclude t false = true ↔
      ∃ p ∈ (RuleSet.ofPolicy policy).members.map Rule.pattern,
        ∃ stem, p.stem? = some stem ∧ stem <+: t := by
    rw [stemsExclude_iff]
    simp only [mem_stemExclusions_iff hm hr, stemCovers, stemCounts, hx, Bool.not_false,
      Bool.true_or, Bool.false_and, Bool.or_false, List.isPrefixOf_iff_prefix, and_true]
    grind
  rw [KeepsOut, hrules, hstems, mem_exactExclusions_iff hr]
  simp only [and_or_left, exists_or, exists_eq_right]

/-- While the current root is no include path and no mount is special, the plan keeps out every file
that the rules of the policy exclude when it is opened. The rules of the plan keep out, besides,
what lies below a path that an exact rule or an absolute wildcard rule stands for, and no more. -/
theorem rules_agree (hm : ∀ m ∈ mounts, m.is .special = false)
    (hr : Reachable policy mounts plan) (hx : plan.rootIsExplicit = false) (f : Path) :
    ((RuleSet.ofPolicy policy).applies f.text false true = true → plan.admitsFile f = false) ∧
    (plan.KeepsOut f.text ↔ (RuleSet.ofPolicy policy).applies f.text false true = true ∨
      ∃ q rest, f.text = q ++ '/' :: rest ∧ policy.Names q) := by
  have hsplit : plan.KeepsOut f.text ↔
      (RuleSet.ofPolicy policy).applies f.text false true = true ∨
        ∃ q rest, f.text = q ++ '/' :: rest ∧ policy.Names q := by
    rw [keepsOut_iff hm hr hx, RuleSet.applies_iff]
    simp only [RuleSet.names_iff]
    constructor
    · rintro ⟨p, hp, h⟩
      rcases (Pattern.split_iff (RuleSet.isPlaced_of_mem hp) f.text).1 h with h | ⟨q, rest, he, hq⟩
      · exact .inl ⟨p, hp, h⟩
      · exact .inr ⟨q, rest, he, p, hp, hq⟩
    · rintro (⟨p, hp, h⟩ | ⟨q, rest, he, p, hp, hq⟩)
      · exact ⟨p, hp, (Pattern.split_iff (RuleSet.isPlaced_of_mem hp) f.text).2 (.inl h)⟩
      · exact ⟨p, hp,
          (Pattern.split_iff (RuleSet.isPlaced_of_mem hp) f.text).2 (.inr ⟨q, rest, he, hq⟩)⟩
  exact ⟨fun h => admitsFile_of_keepsOut (hsplit.2 (.inl h)), hsplit⟩

/-- Asks for hard discs, without copies. -/
def withoutCopies : Policy := { hardDiscs := true, excludes := ["/tmp/a*b".toList] }

/-- On a hard disc a copy is kept out as when it is opened. What lies below a copy is kept out on
the scan alone. -/
theorem copies_kept_out :
    ((∀ m ∈ [Mount.hardDisc Path.root], m.is .special = false) ∧
      Reachable withoutCopies [.hardDisc Path.root]
        (ofPolicy withoutCopies [.hardDisc Path.root]).next.2 ∧
      (ofPolicy withoutCopies [.hardDisc Path.root]).next.2.rootIsExplicit = false) ∧
    (ofPolicy withoutCopies [.hardDisc Path.root]).next.2.admitsFile
      (.ofText "/tmp/a1b".toList) = false ∧
    (RuleSet.ofPolicy withoutCopies).applies (Path.ofText "/tmp/a1b/f".toList).text false true =
      false ∧
    (ofPolicy withoutCopies [.hardDisc Path.root]).next.2.KeepsOut
      (Path.ofText "/tmp/a1b/f".toList).text := by
  have hm : ∀ m ∈ [Mount.hardDisc Path.root], m.is .special = false := by decide
  have hr : Reachable withoutCopies [.hardDisc Path.root]
      (ofPolicy withoutCopies [.hardDisc Path.root]).next.2 := Reachable.made.next
  have hx : (ofPolicy withoutCopies [.hardDisc Path.root]).next.2.rootIsExplicit = false := by
    decide +kernel
  have hcopy : withoutCopies.Names "/tmp/a1b".toList := by
    refine ⟨"/tmp/a*b".toList, by decide, ⟨"/tmp/a*b".toList, .glob ⟨"/tmp/a*b".toList⟩⟩, rfl, ?_⟩
    show Glob.matchesWhole ⟨"/tmp/a*b".toList⟩ "/tmp/a1b".toList = true
    decide +kernel
  refine ⟨⟨hm, hr, hx⟩, (rules_agree hm hr hx _).1 (by decide +kernel), by decide +kernel, ?_⟩
  exact (rules_agree hm hr hx _).2.2 (.inr ⟨"/tmp/a1b".toList, ['f'], by decide +kernel, hcopy⟩)

end Plan

end Sweep
