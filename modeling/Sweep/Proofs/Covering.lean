import Sweep.Proofs.Combined
/-!
# Rules that cover a directory

A rule covers a directory when the walk need not look into it. We prove that this is right: what is
covered excludes every path below the directory and covers every directory below it, for each shape
of a rule and for sets of rules.
-/

namespace Sweep

open Wildcard

/-! ## Wildcard patterns -/

namespace Wildcard

theorem accepts_below {ms : List Mark} {dir : Text} (child : Text) (h : Accepts ms dir) :
    Accepts (ms ++ [.char '/', .run]) (dir ++ '/' :: child) :=
  accepts_append_iff.2 ⟨dir, '/' :: child, rfl, h,
    .char (accepts_run_iff.2 ⟨child, [], by simp, .nil⟩)⟩

end Wildcard

namespace Glob

theorem marks_of_namesDirectory {g : Glob} (h : g.namesDirectory = true) :
    g.marks = Wildcard.marks g.full ++ [.run] := by
  simp [marks, ending, h]

/-- Below a match from the root there is a match. -/
theorem matchesTree_child {g : Glob} {dir : Text} (ha : g.isAnchored = true)
    (h : g.matchesTree dir = true) (child : Text) : g.matchesTree (dir ++ '/' :: child) = true := by
  rw [matchesTree_iff] at h ⊢
  refine .inr ⟨ha, ?_⟩
  rcases h with h | ⟨-, h⟩
  · exact accepts_below child h
  · rw [show g.marks ++ [.char '/', .run] = (g.marks ++ [.char '/']) ++ [.run] by simp] at h ⊢
    exact accepts_append_of_run _ h

theorem matchesWhole_append {g : Glob} {path : Text} (hd : g.namesDirectory = true)
    (h : g.matchesWhole path = true) (more : Text) : g.matchesWhole (path ++ more) = true := by
  rw [matchesWhole_iff, marks_of_namesDirectory hd] at h ⊢
  exact accepts_append_of_run more h

theorem matchesTree_of_matchesWhole {g : Glob} {path : Text} (h : g.matchesWhole path = true) :
    g.matchesTree path = true :=
  matchesTree_iff.2 (.inl (matchesWhole_iff.1 h))

theorem covers_iff {g : Glob} {dir : Text} :
    g.covers dir = true ↔ (g.isAnchored = true ∧ g.matchesTree dir = true) ∨
      (g.namesDirectory = true ∧ g.matchesWhole (dir ++ ['/']) = true) := by
  simp [covers]

theorem covers_child {g : Glob} {dir : Text} (h : g.covers dir = true) (child : Text) :
    g.matchesTree (dir ++ '/' :: child) = true ∧ g.covers (dir ++ '/' :: child) = true := by
  rw [covers_iff] at h
  rcases h with ⟨ha, h⟩ | ⟨hd, h⟩
  · have hc := matchesTree_child ha h child
    exact ⟨hc, covers_iff.2 (.inl ⟨ha, hc⟩)⟩
  · have hc := matchesWhole_append hd h child
    rw [List.append_assoc, List.singleton_append] at hc
    exact ⟨matchesTree_of_matchesWhole hc, covers_iff.2 (.inr ⟨hd, matchesWhole_append hd hc _⟩)⟩

end Glob

/-! ## Stems -/

/-- What lies below a directory begins with the directory and a separator. -/
theorem prefix_below (dir rest : Text) : dir ++ ['/'] <+: dir ++ '/' :: rest :=
  ⟨rest, by simp⟩

namespace Pattern

theorem withoutSlash_concat (dir : Text) : withoutSlash (dir ++ ['/']) = dir := by
  simp [withoutSlash]

/-- A stem without its separator is the directory, or the stem had none. -/
theorem withoutSlash_cases (stem : Text) :
    stem = withoutSlash stem ++ ['/'] ∨ stem = withoutSlash stem := by
  unfold withoutSlash
  split
  · next h =>
    obtain ⟨t, rfl⟩ := List.getLast?_eq_some_iff.1 h
    simp
  · exact .inr rfl

/-- A stem covers the directories that, with a separator behind them, begin with it. -/
theorem covers_stem_iff {s dir : Text} :
    (stem s).covers (.ofText dir) = true ↔ s <+: dir ++ ['/'] := by
  simp only [covers, applies, Candidate.ofText, Bool.true_and, Bool.or_eq_true,
    List.isPrefixOf_iff_prefix, beq_iff_eq, List.prefix_concat_iff]
  constructor
  · rintro (h | rfl)
    · exact .inr h
    · rcases withoutSlash_cases s with hs | hs
      · exact .inl hs
      · exact .inr (hs ▸ List.prefix_rfl)
  · rintro (rfl | h)
    · exact .inr (withoutSlash_concat dir).symm
    · exact .inl h

/-- A stem at any depth covers the directories in which, with a separator behind them, it occurs. -/
theorem covers_relativeStem_iff {s dir : Text} :
    (relativeStem s).covers (.ofText dir) = true ↔ s <:+: dir ++ ['/'] := by
  simp only [covers, applies, Candidate.endsWith_iff, Candidate.ofText, Bool.true_and,
    Bool.or_eq_true, Text.isWithin_iff, List.infix_concat_iff, List.suffix_concat_iff]
  constructor
  · rintro (h | h)
    · rcases withoutSlash_cases s with hs | hs
      · exact .inl (.inr ⟨_, hs, h⟩)
      · exact .inr (hs ▸ h.isInfix)
    · exact .inr h
  · rintro ((rfl | ⟨t, rfl, h⟩) | h)
    · exact .inr List.nil_infix
    · exact .inl (by rwa [withoutSlash_concat])
    · exact .inr h

theorem applies_stem_iff {s path : Text} {concrete : Bool} :
    (stem s).applies (.ofText path) false concrete = true ↔ s <+: path := by
  simp [applies, Candidate.ofText, List.isPrefixOf_iff_prefix]

theorem applies_relativeStem_iff {s path : Text} {concrete : Bool} :
    (relativeStem s).applies (.ofText path) false concrete = true ↔ s <:+: path := by
  simp [applies, Candidate.ofText, Text.isWithin_iff]

/-- A pattern that covers a directory excludes and covers what is below it. -/
theorem covers_child {p : Pattern} {dir : Text} (h : p.covers (.ofText dir) = true) (child : Text) :
    p.applies (.ofText (dir ++ '/' :: child)) false false = true ∧
      p.covers (.ofText (dir ++ '/' :: child)) = true := by
  cases p with
  | exact | fileName | ending | relativePath | void => simp [covers] at h
  | glob g | relativeGlob g => exact Glob.covers_child h child
  | stem s =>
    have hs : s <+: dir ++ '/' :: child := (covers_stem_iff.1 h).trans (prefix_below dir child)
    exact ⟨applies_stem_iff.2 hs, covers_stem_iff.2 (hs.trans (List.prefix_append _ _))⟩
  | relativeStem s =>
    have hs : s <:+: dir ++ '/' :: child :=
      (covers_relativeStem_iff.1 h).trans (prefix_below dir child).isInfix
    exact ⟨applies_relativeStem_iff.2 hs,
      covers_relativeStem_iff.2 (hs.trans (List.prefix_append _ _).isInfix)⟩

end Pattern

/-! ## Sets of rules -/

namespace RuleSet

theorem applies_eq_any (s : RuleSet) (path : Text) (isDirectory concrete : Bool) :
    s.applies path isDirectory concrete =
      s.members.any (·.pattern.applies (.ofText path) isDirectory concrete) := by
  rw [applies, s.combined_eq, Rule.excludeWith_combined?]

/-- A set that covers a directory excludes and covers what is below it. -/
theorem covers_child {s : RuleSet} {dir : Text} (h : s.covers dir = true) (child : Text) :
    s.applies (dir ++ '/' :: child) false false = true ∧
      s.covers (dir ++ '/' :: child) = true := by
  obtain ⟨r, hr, hc⟩ := List.any_eq_true.1 h
  obtain ⟨ha, hc⟩ := Pattern.covers_child hc child
  rw [applies_eq_any]
  exact ⟨List.any_eq_true.2 ⟨r, hr, ha⟩, List.any_eq_true.2 ⟨r, hr, hc⟩⟩

end RuleSet

end Sweep
