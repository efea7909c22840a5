import Mathlib.Data.List.TakeWhile
import Sweep.Proofs.Language
/-!
# Rules for endings

A rule `*tail` whose tail has no further wildcards is not compiled: it compares the end of a path,
which must start behind the first separator. It excludes what the pattern `*/*tail` excludes, on the
way down as for concrete files, and an extension token makes the same rule as `*.` in front of it.
-/

namespace Sweep

open Wildcard

/-- A text that a rule can compare the end of a path with: a run in front of it is the only
wildcard, and it names no directory. -/
structure Text.IsEnding (t : Text) : Prop where
  ne_nil : t ≠ []
  literal : occursIn t = false
  isOpen : t.getLast? ≠ some '/'

/-- What starts with the first separator. -/
def Text.fromSlash (t : Text) : Text := t.dropWhile (· ≠ '/')

/-! ## What a run and a literal stand for -/

namespace Wildcard

theorem occursIn_cons (c : Char) (t : Text) :
    occursIn (c :: t) = (c == '*' || c == '?' || occursIn t) := rfl

/-- A text without wildcards stands for itself only. -/
theorem accepts_literal_iff {t u : Text} (h : occursIn t = false) :
    Accepts (marks t) u ↔ u = t := by
  induction t generalizing u with
  | nil =>
    constructor
    · intro ha
      cases ha
      rfl
    · rintro rfl
      exact .nil
  | cons c t ih =>
    simp only [occursIn_cons, Bool.or_eq_false_iff, beq_eq_false_iff_ne] at h
    obtain ⟨⟨hs, hq⟩, ht⟩ := h
    have hc : marks (c :: t) = .char c :: marks t := by simp [marks, Mark.ofChar, hs, hq]
    rw [hc, accepts_cons_iff (by simp)]
    constructor
    · rintro ⟨d, v, rfl, hd, hv⟩
      obtain rfl : c = d := by simpa [Mark.takes] using hd
      rw [(ih ht).1 hv]
    · rintro rfl
      exact ⟨c, t, rfl, by simp [Mark.takes], (ih ht).2 rfl⟩

/-- The pattern stands for the texts that end with the tail, a separator somewhere before it. -/
theorem accepts_ending_iff {tail path : Text} (h : occursIn tail = false) :
    Accepts (marks ('*' :: '/' :: '*' :: tail)) path ↔
      ∃ before, path = before ++ tail ∧ '/' ∈ before := by
  change Accepts (.run :: .char '/' :: .run :: marks tail) path ↔ _
  simp only [accepts_run_iff, accepts_cons_iff (m := .char '/') (by simp), accepts_literal_iff h]
  constructor
  · rintro ⟨u, _, rfl, c, _, rfl, hc, v, _, rfl, rfl⟩
    obtain rfl : '/' = c := by simpa [Mark.takes] using hc
    exact ⟨u ++ '/' :: v, by simp, by simp⟩
  · rintro ⟨before, rfl, hb⟩
    obtain ⟨u, v, rfl⟩ := List.append_of_mem hb
    exact ⟨u, '/' :: v ++ tail, by simp, '/', v ++ tail, rfl, rfl, v, tail, rfl, rfl⟩

end Wildcard

/-! ## Comparing the end of a path -/

namespace Candidate

theorem endsAfterSlash_iff {c : Candidate} {tail : Text} : c.endsAfterSlash tail = true ↔
    ∃ before, c.text = before ++ tail ∧ '/' ∈ before := by
  -- Behind the tail, the backward text goes on with the text before it.
  have hdrop {before : Text} (h : c.text = before ++ tail) :
      c.backward.drop tail.length = before.reverse := by
    rw [c.backward_eq, h, List.reverse_append, ← List.length_reverse, List.drop_left]
  rw [endsAfterSlash, Bool.and_eq_true, endsWith_iff, List.contains_iff_mem]
  constructor
  · rintro ⟨⟨before, h⟩, hm⟩
    rw [hdrop h.symm, List.mem_reverse] at hm
    exact ⟨before, h.symm, hm⟩
  · rintro ⟨before, h, hm⟩
    rw [hdrop h, List.mem_reverse]
    exact ⟨⟨before, h.symm⟩, hm⟩

/-- The tail starts behind the first separator exactly if what starts there is longer, in bytes. -/
theorem endsAfterSlash_iff_longer {c : Candidate} {tail : Text} : c.endsAfterSlash tail = true ↔
    tail <:+ c.text ∧ tail.byteLength < (Text.fromSlash c.text).byteLength := by
  rw [endsAfterSlash_iff]
  constructor
  · rintro ⟨before, h, hm⟩
    refine ⟨⟨before, h.symm⟩, ?_⟩
    have hne : before.dropWhile (· ≠ '/') ≠ [] := by
      rw [ne_eq, List.dropWhile_eq_nil_iff]
      exact fun hall => by simpa using hall _ hm
    obtain ⟨d, rest, hd⟩ := List.exists_cons_of_ne_nil hne
    rw [h, Text.fromSlash, List.dropWhile_append, hd, if_neg (by simp), Text.byteLength_append,
      Text.byteLength]
    have := d.utf8Size_pos
    omega
  · rintro ⟨⟨before, h⟩, hlt⟩
    refine ⟨before, h.symm, Decidable.byContradiction fun hm => ?_⟩
    have hnil : before.dropWhile (· ≠ '/') = [] :=
      List.dropWhile_eq_nil_iff.2 fun d hd => decide_eq_true fun he => hm (he ▸ hd)
    -- Without a separator before the tail, what starts with the first one is an end of the tail.
    obtain ⟨skipped, hs⟩ := List.dropWhile_suffix (l := tail) (· ≠ '/')
    have hle := congrArg Text.byteLength hs
    rw [Text.byteLength_append] at hle
    rw [← h, Text.fromSlash, List.dropWhile_append, hnil, if_pos (by simp)] at hlt
    omega

end Candidate

/-! ## The rule and the pattern that it replaces -/

section

variable {tail : Text} (h : tail.IsEnding)
include h

theorem Rule.parse_ending : Rule.parse ('*' :: tail) = .ok ⟨'*' :: tail, .ending tail⟩ := by
  have hlast : ('*' :: tail).getLast? = tail.getLast? := by
    obtain ⟨c, t, rfl⟩ := List.exists_cons_of_ne_nil h.ne_nil
    rfl
  have hp : Pattern.ofText ('*' :: tail) = .ending tail := by
    simp [Pattern.ofText, occursIn_cons, hlast, h.ne_nil, h.literal, h.isOpen]
  rw [Rule.parse, hp]
  rfl

/-- The pattern neither starts at the root nor names directories. -/
theorem Glob.isAnchored_ending : (Glob.mk ('*' :: '/' :: '*' :: tail)).isAnchored = false ∧
    (Glob.mk ('*' :: '/' :: '*' :: tail)).namesDirectory = false := by
  obtain ⟨c, t, rfl⟩ := List.exists_cons_of_ne_nil h.ne_nil
  exact ⟨rfl, beq_eq_false_iff_ne.2 h.isOpen⟩

theorem Glob.applies_ending (path : Text) (concrete : Bool) :
    (Glob.mk ('*' :: '/' :: '*' :: tail)).applies path concrete =
      (Candidate.ofText path).endsAfterSlash tail := by
  obtain ⟨ha, hd⟩ := isAnchored_ending h
  have hwhole : (Glob.mk ('*' :: '/' :: '*' :: tail)).matchesWhole path =
      (Candidate.ofText path).endsAfterSlash tail := by
    rw [Bool.eq_iff_iff, matchesWhole_iff, Candidate.endsAfterSlash_iff, marks, ending, hd,
      if_neg (by simp), List.append_nil]
    exact accepts_ending_iff h.literal
  cases concrete with
  | true => exact hwhole
  | false =>
    rw [applies, if_neg (by simp), Bool.eq_iff_iff, matchesTree_iff_below, ha, hwhole]
    simp

theorem Glob.covers_ending (dir : Text) :
    (Glob.mk ('*' :: '/' :: '*' :: tail)).covers dir = false := by
  obtain ⟨ha, hd⟩ := isAnchored_ending h
  simp [covers, ha, hd]

end

/-- With or without a dot in front, a token makes the rule for the ending after a dot. -/
theorem Rule.pattern_ofExtension_of_ne {token : Text} (hne : token ≠ [])
    (hdot : token.head? ≠ some '.') :
    ∀ e ∈ [token, '.' :: token], (ofExtension e).pattern = .ending ('.' :: token) := by
  simp [ofExtension, hne, hdot]

theorem Text.IsEnding.dot {t : Text} (h : t.IsEnding) : IsEnding ('.' :: t) := by
  refine ⟨by simp, by simpa [occursIn_cons] using h.literal, ?_⟩
  obtain ⟨c, t, rfl⟩ := List.exists_cons_of_ne_nil h.ne_nil
  exact h.isOpen

namespace Rule

/-- A rule `*tail` without further wildcards answers for every path what the pattern `*/*tail`
answers, whatever is known about the path: it compares the end of the path and two lengths. The rule
of an extension token equals the rule `*.token` and answers the same, and so does the token with a
dot in front. -/
theorem ending_eq_wildcard {tail : Text} (h : tail.IsEnding) :
    (∃ r, Rule.parse ('*' :: tail) = .ok r ∧ r.pattern = .ending tail ∧
      (∀ path isDirectory concrete,
        r.applies path isDirectory concrete =
          (Pattern.relativeGlob ⟨'*' :: '/' :: '*' :: tail⟩).applies (.ofText path) isDirectory
            concrete ∧
        (r.applies path isDirectory concrete = true ↔
          tail <:+ path ∧ tail.byteLength < (Text.fromSlash path).byteLength)) ∧
      ∀ dir, r.covers dir =
        (Pattern.relativeGlob ⟨'*' :: '/' :: '*' :: tail⟩).covers (.ofText dir)) ∧
    (tail.head? ≠ some '.' →
      ∃ r, Rule.parse ('*' :: '.' :: tail) = .ok r ∧
        ∀ token ∈ [tail, '.' :: tail], (ofExtension token).same r = true ∧
          (∀ path isDirectory concrete, (ofExtension token).applies path isDirectory concrete =
            r.applies path isDirectory concrete) ∧
          ∀ dir, (ofExtension token).covers dir = r.covers dir) := by
  refine ⟨⟨_, parse_ending h, rfl, fun path isDirectory concrete => ⟨?_, ?_⟩, fun dir => ?_⟩,
    fun hdot => ⟨_, parse_ending h.dot, fun token htoken => ?_⟩⟩
  · exact (Glob.applies_ending h path concrete).symm
  · exact Candidate.endsAfterSlash_iff_longer
  · exact (Glob.covers_ending h dir).symm
  · have hp := pattern_ofExtension_of_ne h.ne_nil hdot token htoken
    exact ⟨by simp [same, hp], fun path isDirectory concrete => by simp [applies, hp],
      fun dir => by simp [covers, hp]⟩

/-- An ending with a separator and a character of two bytes: it must start behind the first separator
of the path, and the first separator may be its own. -/
theorem umlaut_ending : (Text.IsEnding "ü/tar.gz".toList ∧ "ü/tar.gz".toList.head? ≠ some '.') ∧
    (∃ r, Rule.parse "*ü/tar.gz".toList = .ok r ∧
      r.applies "/home/ü/tar.gz".toList false true = true ∧
      r.applies "home ü/tar.gz".toList false false = false) ∧
    ∃ r, Rule.parse "*.ü/tar.gz".toList = .ok r ∧
      (ofExtension "ü/tar.gz".toList).same r = true ∧
      (ofExtension ".ü/tar.gz".toList).same r = true := by
  have h : Text.IsEnding "ü/tar.gz".toList := ⟨by decide, by decide, by decide⟩
  have hdot : "ü/tar.gz".toList.head? ≠ some '.' := by decide
  obtain ⟨⟨r, hr, -, ha, -⟩, hext⟩ := ending_eq_wildcard h
  obtain ⟨s, hs, he⟩ := hext hdot
  refine ⟨⟨h, hdot⟩, ⟨r, hr, ?_, ?_⟩, s, hs, (he _ (by simp)).1, (he _ (by simp)).1⟩
  · exact (ha _ _ _).1.trans (by decide +kernel)
  · exact (ha _ _ _).1.trans (by decide +kernel)

end Rule

end Sweep
