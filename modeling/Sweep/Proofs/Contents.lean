import Sweep.Proofs.Language
/-!
# What a covered directory holds

A rule that covers a directory excludes every path in it and covers every directory in it, so a walk
loses nothing if it does not look into the directory. Conversely, a rule covers each directory
whose contents it excludes, whatever they are called; only a wildcard pattern that names no
directories may fail to.
-/

namespace Sweep

/-- Rules are made of texts and of extension tokens. -/
def Rule.IsMade (r : Rule) : Prop :=
  (∃ t, Rule.parse t = .ok r) ∨ ∃ token, r = .ofExtension token

/-! ## Rules compare paths with some text -/

theorem Pattern.key_ofText_ne_nil {t : Text} (h : ofText t ≠ .void) : (ofText t).key ≠ [] := by
  revert h
  unfold ofText
  dsimp only
  repeat' split
  all_goals simp_all [key]

theorem Rule.IsMade.key_ne_nil {r : Rule} (hr : r.IsMade) (hv : r.pattern ≠ .void) :
    r.pattern.key ≠ [] := by
  rcases hr with ⟨t, ht⟩ | ⟨token, rfl⟩
  · rw [pattern_of_parse ht] at hv ⊢
    exact Pattern.key_ofText_ne_nil hv
  · unfold ofExtension at hv ⊢
    dsimp only at hv ⊢
    generalize (if token.head? = some '.' then token.tail else token) = bare at hv ⊢
    by_cases hb : bare = []
    · exact absurd (if_pos hb) hv
    · rw [if_neg hb]
      exact List.cons_ne_nil _ _

/-! ## From the contents to the directory -/

/-- Only the empty text ends whatever a directory holds. -/
theorem eq_nil_of_ends_contents {tail dir : Text} (h : ∀ child, tail <:+ dir ++ '/' :: child) :
    tail = [] := by
  refine Decidable.byContradiction fun hne => ?_
  have hslash : tail.getLast hne = '/' := by
    rw [(h []).getLast hne]
    simp
  have hletter : tail.getLast hne = 'a' := by
    rw [(h ['a']).getLast hne]
    simp
  rw [hslash] at hletter
  exact absurd hletter (by decide)

/-- A pattern that names directories matches whole what it matches on the way down. -/
theorem Glob.matchesWhole_of_matchesTree {g : Glob} {path : Text} (hd : g.namesDirectory = true)
    (h : g.matchesTree path = true) : g.matchesWhole path = true := by
  rcases matchesTree_iff_below.1 h with h | ⟨-, q, rest, rfl, hq⟩
  · exact h
  · exact matchesWhole_append hd hq ('/' :: rest)

namespace Pattern

/-- A pattern that excludes whatever a directory holds covers it, unless it is a wildcard pattern
that names no directories. -/
theorem covers_of_contents {p : Pattern} {dir : Text} (hk : p ≠ .void → p.key ≠ [])
    (hd : ∀ g, p.glob? = some g → g.namesDirectory = true)
    (h : ∀ child, p.applies (.ofText (dir ++ '/' :: child)) false false = true) :
    p.covers (.ofText dir) = true := by
  -- For stems and wildcard patterns the empty child is enough: its path is the directory with a
  -- separator at its end. No other pattern excludes every child.
  cases p with
  | stem s => exact covers_stem_iff.2 (applies_stem_iff.1 (h []))
  | relativeStem s => exact covers_relativeStem_iff.2 (applies_relativeStem_iff.1 (h []))
  | glob g | relativeGlob g =>
    have hclosed : g.namesDirectory = true := hd g rfl
    exact Glob.covers_iff.2 (.inr ⟨hclosed, Glob.matchesWhole_of_matchesTree hclosed (h [])⟩)
  | exact path =>
    have he : ∀ child, dir ++ '/' :: child = path := fun child => beq_iff_eq.1 (h child)
    exact absurd ((he []).trans (he ['a']).symm) (by simp)
  | fileName tail | relativePath tail =>
    have ht : tail = [] := eq_nil_of_ends_contents fun child => Candidate.endsWith_iff.1 (h child)
    exact absurd ht (hk (by simp))
  | ending tail =>
    have ht : tail = [] := eq_nil_of_ends_contents fun child =>
      Candidate.endsWith_iff.1 (Bool.and_eq_true_iff.1 (h child)).1
    exact absurd ht (hk (by simp))
  | void => exact absurd (h []) (by simp [applies])

end Pattern

/-! ## Covering and excluding -/

namespace Rule

/-- A rule that covers a directory excludes every path in it and covers every directory in it. A
rule that excludes whatever a directory holds covers it, unless it is a wildcard rule that names no
directories. -/
theorem covered_contents_excluded {r : Rule} (hr : r.IsMade) (dir : Text) :
    (r.covers dir = true → ∀ child, r.applies (dir ++ '/' :: child) false false = true ∧
      r.covers (dir ++ '/' :: child) = true) ∧
    ((∀ g, r.pattern.glob? = some g → g.namesDirectory = true) →
      (∀ child, r.applies (dir ++ '/' :: child) false false = true) → r.covers dir = true) :=
  ⟨fun h child => Pattern.covers_child h child,
    fun hd h => Pattern.covers_of_contents hr.key_ne_nil hd h⟩

/-- The rule `cache*/`, which names directories at any depth. -/
def inCaches : Rule := ⟨"cache*/".toList, .relativeGlob ⟨"*/cache*/".toList⟩⟩

/-- The rule covers a cache that it does not exclude as a path, and excludes what is in it. -/
theorem cache_contents_excluded :
    (inCaches.IsMade ∧ inCaches.covers "/home/cache1".toList = true ∧
      inCaches.applies "/home/cache1".toList false false = false) ∧
    inCaches.applies "/home/cache1/a/b".toList false false = true ∧
      inCaches.covers "/home/cache1/a/b".toList = true := by
  have hm : inCaches.IsMade := .inl ⟨"cache*/".toList, rfl⟩
  have hc : inCaches.covers "/home/cache1".toList = true := by decide +kernel
  exact ⟨⟨hm, hc, by decide +kernel⟩,
    (covered_contents_excluded hm "/home/cache1".toList).1 hc "a/b".toList⟩

/-- A wildcard rule that names no directories may exclude what is in a directory that it does not
cover. -/
example : (Rule.parse "/tmp/*".toList).toOption.any (fun r =>
    !r.covers "/tmp".toList && r.applies "/tmp/a".toList false false) = true := by
  decide +kernel

end Rule

end Sweep
