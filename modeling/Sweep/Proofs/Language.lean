import Sweep.Proofs.Covering
/-!
# The language of wildcard rules

A wildcard rule excludes a concrete file exactly if its pattern describes the whole path, where a
pattern that ends with a separator may be followed by anything. On the way down a pattern from the
root also excludes what lies below a path that it describes, and one at any depth excludes no more.
-/

namespace Sweep

/-- A pattern describes the texts that it stands for, and, if it ends with a separator, all that
begin with one of them. -/
def Wildcard.Describes (pattern path : Text) : Prop :=
  ∃ u v, path = u ++ v ∧ Accepts (marks pattern) u ∧ (v ≠ [] → pattern.getLast? = some '/')

namespace Glob

open Wildcard

theorem matchesWhole_iff_describes {g : Glob} {path : Text} :
    g.matchesWhole path = true ↔ Describes g.full path := by
  rw [matchesWhole_iff, marks, accepts_append_iff]
  refine exists_congr fun u => exists_congr fun v => and_congr_right fun _ =>
    and_congr_right fun _ => ?_
  by_cases hd : g.namesDirectory = true
  · have he : g.full.getLast? = some '/' := by simpa [namesDirectory] using hd
    rw [ending, if_pos hd]
    exact iff_of_true (accepts_run_iff.2 ⟨v, [], by simp, .nil⟩) fun _ => he
  · have he : g.full.getLast? ≠ some '/' := by simpa [namesDirectory] using hd
    rw [ending, if_neg hd]
    constructor
    · intro h
      cases h
      exact fun hv => absurd rfl hv
    · intro h
      obtain rfl : v = [] := Decidable.byContradiction fun hv => he (h hv)
      exact .nil

/-- A pattern from the root matches on the way down what it matches whole, and what lies below. -/
theorem matchesTree_iff_below {g : Glob} {path : Text} : g.matchesTree path = true ↔
    g.matchesWhole path = true ∨
      g.isAnchored = true ∧ ∃ q rest, path = q ++ '/' :: rest ∧ g.matchesWhole q = true := by
  rw [matchesTree_iff, matchesWhole_iff]
  refine or_congr_right (and_congr_right fun _ => ?_)
  simp only [matchesWhole_iff]
  constructor
  · intro h
    obtain ⟨q, v, rfl, hq, hv⟩ := accepts_append_iff.1 h
    obtain ⟨c, rest, rfl, hc, -⟩ := (accepts_cons_iff (by simp)).1 hv
    obtain rfl : '/' = c := by simpa [Mark.takes] using hc
    exact ⟨q, rest, rfl, hq⟩
  · rintro ⟨q, rest, rfl, hq⟩
    exact accepts_below rest hq

end Glob

namespace Pattern

/-- Absolute wildcard patterns start at the root, and no others do. -/
def IsPlaced : Pattern → Prop
  | .glob g => g.isAnchored = true
  | .relativeGlob g => g.isAnchored = false
  | _ => True

theorem isPlaced_ofText (t : Text) : (ofText t).IsPlaced := by
  unfold ofText
  dsimp only
  repeat' split
  all_goals simp_all [IsPlaced, Glob.isAnchored]

/-- A wildcard pattern is the text it was written as, or this text at any depth. -/
theorem key_ofText {t : Text} (h : (ofText t).glob?.isSome = true) :
    (ofText t).key = if t.head? = some '/' then t else '*' :: '/' :: t := by
  revert h
  unfold ofText
  dsimp only
  repeat' split
  all_goals simp_all [glob?, key]

theorem key_of_glob? {p : Pattern} {g : Glob} (h : p.glob? = some g) : p.key = g.full := by
  cases p <;> cases h <;> rfl

end Pattern

namespace Rule

theorem pattern_of_parse {t : Text} {r : Rule} (h : Rule.parse t = .ok r) :
    r.pattern = Pattern.ofText t := by
  unfold Rule.parse at h
  dsimp only at h
  split at h
  · split at h
    · cases h
      rfl
    · cases h
  · cases h
    rfl

theorem applies_glob {r : Rule} {g : Glob} (h : r.pattern.glob? = some g) (path : Text)
    (isDirectory concrete : Bool) : r.applies path isDirectory concrete = g.applies path concrete := by
  unfold applies
  cases hp : r.pattern <;> rw [hp] at h <;> cases h <;> rfl

/-- A wildcard rule excludes the concrete files whose whole path its pattern describes, which is the
rule's text from the root or at any depth. On the way down it excludes the same paths if it may stand
at any depth; if it starts at the root, it excludes these paths and what lies below them. -/
theorem wildcard_applies_iff {t : Text} {r : Rule} (hr : Rule.parse t = .ok r)
    (hw : r.pattern.glob?.isSome = true) (path : Text) (isDirectory : Bool) :
    r.pattern.key = (if t.head? = some '/' then t else '*' :: '/' :: t) ∧
    (r.applies path isDirectory true = true ↔ Wildcard.Describes r.pattern.key path) ∧
    (∀ g, r.pattern = .relativeGlob g →
      r.applies path isDirectory false = r.applies path isDirectory true) ∧
    (∀ g, r.pattern = .glob g →
      (r.applies path isDirectory false = true ↔ r.applies path isDirectory true = true ∨
        ∃ q rest, path = q ++ '/' :: rest ∧ r.applies q isDirectory true = true)) := by
  obtain ⟨g, hg⟩ := Option.isSome_iff_exists.1 hw
  have hplaced : r.pattern.IsPlaced := by
    rw [pattern_of_parse hr]
    exact Pattern.isPlaced_ofText t
  have hwhole : ∀ q, r.applies q isDirectory true = g.matchesWhole q :=
    fun q => applies_glob hg q isDirectory true
  have htree : r.applies path isDirectory false = g.matchesTree path := applies_glob hg _ _ _
  have hkey : r.pattern.key = if t.head? = some '/' then t else '*' :: '/' :: t := by
    rw [pattern_of_parse hr] at hw ⊢
    exact Pattern.key_ofText hw
  simp only [hwhole, htree]
  refine ⟨hkey, ?_, fun g' hp => ?_, fun g' hp => ?_⟩
  · rw [Pattern.key_of_glob? hg]
    exact Glob.matchesWhole_iff_describes
  · rw [hp] at hg hplaced
    cases hg
    have ha : g.isAnchored = false := hplaced
    rw [Bool.eq_iff_iff, Glob.matchesTree_iff_below]
    simp [ha]
  · rw [hp] at hg hplaced
    cases hg
    have ha : g.isAnchored = true := hplaced
    rw [Glob.matchesTree_iff_below]
    exact or_congr_right (and_iff_right ha)

/-- A pattern that names directories, at any depth. -/
def cacheRule : Text := "c?che*/".toList

/-- A file in a directory that the pattern names is described with what comes before and behind, also
when a name on the way holds a line break. -/
theorem cache_described : (∃ r, Rule.parse cacheRule = .ok r ∧ r.pattern.glob?.isSome = true) ∧
    Wildcard.Describes "*/c?che*/".toList "/home/\n/cache1/f".toList := by
  have hr : Rule.parse cacheRule = .ok ⟨cacheRule, .relativeGlob ⟨"*/c?che*/".toList⟩⟩ := rfl
  exact ⟨⟨_, hr, rfl⟩,
    (wildcard_applies_iff hr rfl "/home/\n/cache1/f".toList false).2.1.1 (by decide +kernel)⟩

end Rule

end Sweep
