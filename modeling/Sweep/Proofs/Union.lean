import Sweep.Proofs.Covering
/-!
# Sets of rules as unions

A set drops rules that match nothing, sorts the others, keeps each pattern once and matches its
wildcard patterns in one when they are small enough. None of this changes what is excluded: a set
excludes and covers exactly what a rule of its list does.
-/

namespace Sweep.RuleSet

/-! ## Members of a set -/

theorem mem_patterns_dropRepeats {rs : List Rule} {p : Pattern} :
    p ∈ (dropRepeats rs).map Rule.pattern ↔ p ∈ rs.map Rule.pattern := by
  fun_induction dropRepeats rs with
  | case1 => rfl
  | case2 r rs hd ih =>
    rw [hd] at ih
    simp [← ih]
  | case3 r rs s kept hd hs ih =>
    have he : r.pattern = s.pattern := by simpa [Rule.same] using hs
    rw [hd] at ih
    simp only [List.map_cons, List.mem_cons, ← ih, he, or_self_left]
  | case4 r rs s kept hd hs ih =>
    rw [hd] at ih
    simp only [List.map_cons, List.mem_cons, ← ih]

/-- The set of a list holds the patterns of its valid rules. -/
theorem mem_patterns_ofList {rs : List Rule} {p : Pattern} :
    p ∈ (ofList rs).members.map Rule.pattern ↔ p ∈ rs.map Rule.pattern ∧ p ≠ .void := by
  rw [ofList, mem_patterns_dropRepeats]
  simp only [List.mem_map, List.mem_mergeSort, List.mem_filter, Rule.isValid, bne_iff_ne]
  constructor
  · rintro ⟨r, ⟨hr, hv⟩, rfl⟩
    exact ⟨⟨r, hr, rfl⟩, hv⟩
  · rintro ⟨⟨r, hr, rfl⟩, hv⟩
    exact ⟨r, ⟨hr, hv⟩, rfl⟩

/-- A test that no void pattern passes is passed by a member exactly if it is by a rule of the
list. -/
theorem any_ofList_iff (test : Pattern → Bool) (ht : test .void = false) (rs : List Rule) :
    ((ofList rs).members.any fun r => test r.pattern) = true ↔ ∃ r ∈ rs, test r.pattern = true := by
  have hmap (l : List Rule) : (∃ r ∈ l, test r.pattern = true) ↔
      ∃ p ∈ l.map Rule.pattern, test p = true := by
    simp only [List.mem_map]
    grind
  rw [List.any_eq_true, hmap, hmap]
  simp only [mem_patterns_ofList, and_assoc]
  refine exists_congr fun p => and_congr_right fun _ => and_iff_right_of_imp fun hp => ?_
  rintro rfl
  rw [ht] at hp
  cases hp

/-- A set excludes what one of its patterns excludes. -/
theorem applies_iff {s : RuleSet} {path : Text} {isDirectory concrete : Bool} :
    s.applies path isDirectory concrete = true ↔
      ∃ p ∈ s.members.map Rule.pattern, p.applies (.ofText path) isDirectory concrete = true := by
  rw [applies_eq_any, ← List.any_eq_true, List.any_map]
  rfl

/-! ## The union -/

/-- A set excludes what a rule of its list excludes, and covers what a rule of its list covers. It
excludes the same whether its wildcard patterns are matched in one, which they are if there are
several and they keep to a limit, or one by one. -/
theorem ofList_is_union (rs : List Rule) (path : Text) (isDirectory concrete : Bool) :
    ((ofList rs).applies path isDirectory concrete = true ↔
      ∃ r ∈ rs, r.applies path isDirectory concrete = true) ∧
    (∀ limit,
      ((Rule.combined? limit (ofList rs).members).isSome = true ↔
        2 ≤ (Rule.globs (ofList rs).members).length ∧
          Wildcard.sizeTogether ((Rule.globs (ofList rs).members).map Glob.parts) ≤ limit) ∧
      (Rule.excludeWith (Rule.combined? limit (ofList rs).members) (ofList rs).members path
          isDirectory concrete = true ↔
        ∃ r ∈ rs, r.applies path isDirectory concrete = true)) ∧
    ((ofList rs).covers path = true ↔ ∃ r ∈ rs, r.covers path = true) := by
  have hmembers : ((ofList rs).members.any
      fun r => r.pattern.applies (.ofText path) isDirectory concrete) = true ↔
        ∃ r ∈ rs, r.applies path isDirectory concrete = true :=
    any_ofList_iff (·.applies (.ofText path) isDirectory concrete) rfl rs
  refine ⟨?_, fun limit => ⟨Rule.isSome_combined?_iff, ?_⟩, ?_⟩
  · rwa [applies_eq_any]
  · rwa [Rule.excludeWith_combined?]
  · exact any_ofList_iff (·.covers (.ofText path)) rfl rs

/-- The rule of an absolute pattern that goes on with as many runs. -/
def manyRuns (c : Char) (n : Nat) : Rule := ⟨[], .glob ⟨'/' :: c :: List.replicate n '*'⟩⟩

/-- Both ways of matching occur: two patterns may each be small enough, and too large together. -/
example :
    (Rule.combined? Wildcard.sizeLimit [manyRuns 'a' 5, manyRuns 'b' 5]).isSome = true ∧
    (manyRuns 'a' 600).pattern.glob?.all (·.size ≤ Wildcard.sizeLimit) = true ∧
    (Rule.combined? Wildcard.sizeLimit [manyRuns 'a' 600, manyRuns 'b' 600]).isSome = false := by
  decide +kernel

end Sweep.RuleSet
