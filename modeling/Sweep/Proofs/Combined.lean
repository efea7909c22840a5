import Sweep.RuleSet
import Sweep.Proofs.Wildcard
/-!
# Patterns that are matched together

Several wildcard patterns are put together to one expression, its ways to one trie, and the trie is
followed through the text. The invariant is that each mark of the trie shows whether the marks down
to it stand for what has been read (`Trie.Shows`). So the matcher accepts what the expression stands
for, and that is what one of the patterns matches.
-/

namespace Sweep

namespace Wildcard

/-! ## One more character, one more mark -/

theorem accepts_concat_run_iff {ms : List Mark} {t : Text} {c : Char} :
    Accepts (ms ++ [.run]) (t ++ [c]) ↔ Accepts (ms ++ [.run]) t ∨ Accepts ms (t ++ [c]) := by
  constructor
  · intro h
    obtain ⟨u, v, he, hu, -⟩ := accepts_append_iff.1 h
    rcases List.eq_nil_or_concat v with rfl | ⟨w, d, rfl⟩
    · rw [List.append_nil] at he
      exact .inr (he ▸ hu)
    · rw [List.concat_eq_append, ← List.append_assoc] at he
      obtain ⟨rfl, -⟩ := List.append_inj' he rfl
      exact .inl (accepts_append_iff.2 ⟨u, w, rfl, hu, accepts_run_iff.2 ⟨w, [], by simp, .nil⟩⟩)
  · rintro (h | h)
    · exact accepts_append_of_run [c] h
    · exact accepts_append_iff.2 ⟨_, [], by simp, h, .run [] .nil⟩

theorem accepts_concat_iff {ms : List Mark} {m : Mark} {t : Text} {c : Char} (hm : m ≠ .run) :
    Accepts (ms ++ [m]) (t ++ [c]) ↔ Accepts ms t ∧ m.takes c = true := by
  constructor
  · intro h
    obtain ⟨u, v, he, hu, hv⟩ := accepts_append_iff.1 h
    obtain ⟨d, w, rfl, hd, hw⟩ := (accepts_cons_iff hm).1 hv
    cases hw
    obtain ⟨rfl, he⟩ := List.append_inj' he rfl
    obtain rfl : c = d := by simpa using he
    exact ⟨hu, hd⟩
  · rintro ⟨h, hc⟩
    exact accepts_append_iff.2 ⟨t, [c], rfl, h, (accepts_cons_iff hm).2 ⟨c, [], rfl, hc, .nil⟩⟩

theorem accepts_concat_nil_iff {ms : List Mark} {m : Mark} :
    Accepts (ms ++ [m]) [] ↔ Accepts ms [] ∧ m = .run := by
  constructor
  · intro h
    obtain ⟨u, v, he, hu, hv⟩ := accepts_append_iff.1 h
    obtain ⟨rfl, rfl⟩ := List.append_eq_nil_iff.1 he.symm
    refine ⟨hu, Decidable.byContradiction fun hm => ?_⟩
    obtain ⟨c, w, hc, -⟩ := (accepts_cons_iff hm).1 hv
    cases hc
  · rintro ⟨h, rfl⟩
    exact accepts_append_iff.2 ⟨[], [], rfl, h, .run [] .nil⟩

/-! ## Expressions and their ways -/

namespace Expression

/-- An expression stands for what one of its ways stands for. -/
theorem matches_iff_ways {e : Expression} {t : Text} :
    e.Matches t ↔ ∃ way ∈ e.ways, Accepts way t := by
  have hnil (t : Text) : Accepts [] t ↔ t = [] := by
    constructor
    · intro h
      cases h
      rfl
    · rintro rfl
      exact .nil
  induction e generalizing t with
  | empty => simp [Matches, ways, hnil]
  | mark m => simp [Matches, ways]
  | andThen e f ihe ihf =>
    simp only [Matches, ways, ihe, ihf, List.mem_flatMap, List.mem_map]
    constructor
    · rintro ⟨u, v, rfl, ⟨w, hw, hu⟩, x, hx, hv⟩
      exact ⟨w ++ x, ⟨w, hw, x, hx, rfl⟩, accepts_append_iff.2 ⟨u, v, rfl, hu, hv⟩⟩
    · rintro ⟨_, ⟨w, hw, x, hx, rfl⟩, h⟩
      obtain ⟨u, v, rfl, hu, hv⟩ := accepts_append_iff.1 h
      exact ⟨u, v, rfl, ⟨w, hw, hu⟩, x, hx, hv⟩
  | either e f ihe ihf =>
    simp only [Matches, ways, ihe, ihf, List.mem_append, or_and_right, exists_or]
  | optional e ih => simp [Matches, ways, ih, hnil]

theorem ofMarks_matches {ms : List Mark} {t : Text} : (ofMarks ms).Matches t ↔ Accepts ms t := by
  have h : (ofMarks ms).ways = [ms] := by
    induction ms with
    | nil => rfl
    | cons m ms ih => simp [ofMarks, ways, ih]
  simp [matches_iff_ways, h]

/-- Alternatives stand for what one of them stands for. -/
theorem oneOf_matches {α : Type} (f : α → Expression) {a : α} {as : List α} {t : Text} :
    (oneOf (f a) (as.map f)).Matches t ↔ ∃ b ∈ a :: as, (f b).Matches t := by
  induction as generalizing a with
  | nil => simp [oneOf]
  | cons b as ih => simp [oneOf, Matches, ih]

end Expression

/-! ## Tries -/

namespace Trie

/-- The lists of marks that the trie holds. -/
def lists : Trie → List (List Mark)
  | nil => []
  | done beside => [] :: beside.lists
  | mark m _ _ below beside => below.lists.map (m :: ·) ++ beside.lists

theorem mem_lists_add {ms ns : List Mark} {tr : Trie} :
    ns ∈ (tr.add ms).lists ↔ ns = ms ∨ ns ∈ tr.lists := by
  fun_induction add ms tr generalizing ns with
  | case1 => simp [lists]
  | case2 beside => simp [lists]
  | case3 m reached alive below beside ih => simp [lists, ih, or_left_comm]
  | case4 m ms ih => simp [lists, ih, eq_comm]
  | case5 m ms beside ih => simp [lists, ih, or_left_comm]
  | case6 ms n reached alive below beside ih =>
    simp only [lists, List.mem_append, List.mem_map, ih, or_and_right, exists_or, exists_eq_left,
      or_assoc, eq_comm (a := ns)]
  | case7 m ms n reached alive below beside hn ih => simp [lists, ih, or_left_comm]

theorem mem_lists_ofLists {ms : List Mark} {ways : List (List Mark)} :
    ms ∈ (ofLists ways).lists ↔ ms ∈ ways := by
  induction ways with
  | nil => simp [ofLists, lists]
  | cons way ways ih => rw [ofLists, mem_lists_add, ih, List.mem_cons]

theorem lists_start (above : Bool) (tr : Trie) : (tr.start above).lists = tr.lists := by
  induction tr generalizing above with
  | nil => rfl
  | done beside ih => simp [start, lists, ih]
  | mark m reached alive below beside ihb ih => simp [start, lists, ihb, ih]

theorem lists_step (c : Char) (was now : Bool) (tr : Trie) :
    (tr.step c was now).lists = tr.lists := by
  induction tr generalizing was now with
  | nil => rfl
  | done beside ih => simp [step, lists, ih]
  | mark m reached alive below beside ihb ih =>
    rw [step, lists]
    generalize (if m = .run then reached || now else was && m.takes c) = next
    split <;> simp [lists, ihb, ih]

/-- The trie, below the marks `above`, shows how far its lists stand for what has been read. -/
def Shows (above : List Mark) (read : Text) : Trie → Prop
  | nil => True
  | done beside => beside.Shows above read
  | mark m reached alive below beside =>
    (reached = true ↔ Accepts (above ++ [m]) read) ∧ alive = below.isAlive ∧
      below.Shows (above ++ [m]) read ∧ beside.Shows above read

theorem shows_start {above : List Mark} {reached : Bool} (h : reached = true ↔ Accepts above [])
    (tr : Trie) : (tr.start reached).Shows above [] := by
  induction tr generalizing above reached with
  | nil => trivial
  | done beside ih => exact ih h
  | mark m _ _ below beside ihb ih =>
    have hm : (reached && m == .run) = true ↔ Accepts (above ++ [m]) [] := by
      rw [accepts_concat_nil_iff, ← h, Bool.and_eq_true, beq_iff_eq]
    exact ⟨hm, rfl, ihb hm, ih h⟩

/-- Whether a mark is reached after one more character. -/
theorem next_iff {above : List Mark} {m : Mark} {read : Text} {c : Char} {reached : Bool}
    (was now : Bool) (hwas : was = true ↔ Accepts above read)
    (hnow : now = true ↔ Accepts above (read ++ [c]))
    (h : reached = true ↔ Accepts (above ++ [m]) read) :
    (if m = .run then reached || now else was && m.takes c) = true ↔
      Accepts (above ++ [m]) (read ++ [c]) := by
  split
  · next hm =>
    subst hm
    rw [accepts_concat_run_iff, Bool.or_eq_true, h, hnow]
  · next hm => rw [accepts_concat_iff hm, Bool.and_eq_true, hwas]

/-- Where nothing is reached, and the mark above is not, one more character changes nothing. -/
theorem shows_idle {above : List Mark} {read : Text} {c : Char} {tr : Trie}
    (h : tr.Shows above read) (hi : tr.isAlive = false) (hwas : ¬Accepts above read)
    (hnow : ¬Accepts above (read ++ [c])) : tr.Shows above (read ++ [c]) := by
  induction tr generalizing above with
  | nil => trivial
  | done beside ih => exact ih h hi hwas hnow
  | mark m reached alive below beside ihb ih =>
    obtain ⟨hm, ha, hb, hs⟩ := h
    simp only [isAlive, Bool.or_eq_false_iff] at hi
    obtain ⟨⟨rfl, rfl⟩, hi⟩ := hi
    have hwas' : ¬Accepts (above ++ [m]) read := fun h => absurd (hm.2 h) (by simp)
    have hnow' : ¬Accepts (above ++ [m]) (read ++ [c]) := by
      rw [← next_iff false false (by simpa) (by simpa) hm]
      split <;> simp
    exact ⟨by simpa, ha, ihb hb ha.symm hwas' hnow', ih hs hi hwas hnow⟩

theorem shows_step {above : List Mark} {read : Text} {c : Char} {was now : Bool} {tr : Trie}
    (h : tr.Shows above read) (hwas : was = true ↔ Accepts above read)
    (hnow : now = true ↔ Accepts above (read ++ [c])) :
    (tr.step c was now).Shows above (read ++ [c]) := by
  induction tr generalizing above was now with
  | nil => trivial
  | done beside ih => exact ih h hwas hnow
  | mark m reached alive below beside ihb ih =>
    obtain ⟨hm, ha, hb, hs⟩ := h
    have hn := next_iff was now hwas hnow hm
    have hs := ih hs hwas hnow
    rw [step]
    generalize (if m = .run then reached || now else was && m.takes c) = next at hn
    split
    · exact ⟨hn, rfl, ihb hb hm hn, hs⟩
    · next hi =>
      simp only [Bool.or_eq_true, not_or, Bool.not_eq_true] at hi
      obtain ⟨⟨rfl, rfl⟩, rfl⟩ := hi
      refine ⟨hn, ha, shows_idle hb ha.symm ?_ ?_, hs⟩
      · exact fun h => absurd (hm.2 h) (by simp)
      · exact fun h => absurd (hn.2 h) (by simp)

/-- At the end of the text the lists that are reached are those that stand for it. -/
theorem isDone_iff {above : List Mark} {read : Text} {reached : Bool} {tr : Trie}
    (h : tr.Shows above read) (hr : reached = true ↔ Accepts above read) :
    tr.isDone reached = true ↔ ∃ ms ∈ tr.lists, Accepts (above ++ ms) read := by
  induction tr generalizing above reached with
  | nil => simp [isDone, lists]
  | done beside ih => simp [isDone, lists, ih h hr, hr]
  | mark m _ _ below beside ihb ih =>
    obtain ⟨hm, -, hb, hs⟩ := h
    simp only [isDone, lists, Bool.or_eq_true, ihb hb hm, ih hs hr, List.mem_append, List.mem_map,
      or_and_right, exists_or]
    refine or_congr_left ⟨?_, ?_⟩
    · rintro ⟨ms, h, ha⟩
      exact ⟨m :: ms, ⟨ms, h, rfl⟩, by simpa using ha⟩
    · rintro ⟨_, ⟨ms, h, rfl⟩, ha⟩
      exact ⟨ms, h, by simpa using ha⟩

/-- Reading on, the trie accepts what one of its lists stands for. -/
theorem accepts_iff_lists {read rest : Text} {tr : Trie} {above : Bool} (h : tr.Shows [] read)
    (ha : above = true ↔ Accepts [] read) :
    tr.accepts above rest = true ↔ ∃ ms ∈ tr.lists, Accepts ms (read ++ rest) := by
  induction rest generalizing read tr above with
  | nil => simpa [accepts] using isDone_iff h ha
  | cons c rest ih =>
    have hn : (false = true) ↔ Accepts [] (read ++ [c]) := by
      refine iff_of_false (by simp) fun h => ?_
      generalize he : read ++ [c] = t at h
      cases h
      simp at he
    rw [accepts, ih (shows_step h ha hn) hn, lists_step, List.append_assoc, List.singleton_append]

end Trie

/-- The matcher of an expression accepts what the expression stands for. -/
theorem Matcher.accepts_ofExpression {e : Expression} {t : Text} :
    (ofExpression e).accepts t = true ↔ e.Matches t := by
  have hnil : true = true ↔ Accepts [] [] := iff_of_true rfl .nil
  rw [accepts, ofExpression, Trie.accepts_iff_lists (Trie.shows_start hnil _) hnil,
    Trie.lists_start, Expression.matches_iff_ways]
  simp only [Trie.mem_lists_ofLists, List.nil_append]

end Wildcard

open Wildcard

/-! ## Wildcard rules -/

namespace Glob

theorem body_matches {g : Glob} {path : Text} :
    g.body.Matches path ↔ g.matchesWhole path = true := by
  rw [body, Expression.ofMarks_matches, matchesWhole_iff]

theorem treeBody_matches {g : Glob} {path : Text} :
    g.treeBody.Matches path ↔ g.matchesTree path = true := by
  rw [treeBody, matchesTree_iff]
  split
  · next ha =>
    simp only [Expression.Matches, body, Expression.ofMarks_matches, ha, true_and,
      accepts_append_iff]
    constructor
    · rintro ⟨u, v, rfl, hu, rfl | hv⟩
      · rw [List.append_nil]
        exact .inl hu
      · exact .inr ⟨u, v, rfl, hu, hv⟩
    · rintro (h | ⟨u, v, rfl, hu, hv⟩)
      · exact ⟨path, [], by simp, h, .inl rfl⟩
      · exact ⟨u, v, rfl, hu, .inr hv⟩
  · next ha => simp [body, Expression.ofMarks_matches, ha]

end Glob

/-- The patterns in one exclude what one of them excludes. -/
theorem Combined.applies_ofGlobs (g : Glob) (gs : List Glob) (path : Text) (concrete : Bool) :
    (ofGlobs g gs).applies path concrete = (g :: gs).any (·.applies path concrete) := by
  rw [Bool.eq_iff_iff, applies, List.any_eq_true]
  cases concrete with
  | true =>
    rw [if_pos rfl, ofGlobs, Matcher.accepts_ofExpression, Expression.oneOf_matches]
    simp only [Glob.body_matches, Glob.applies, if_true]
  | false =>
    rw [if_neg (by simp), ofGlobs, Matcher.accepts_ofExpression, Expression.oneOf_matches]
    simp only [Glob.treeBody_matches, Glob.applies, Bool.false_eq_true, if_false]

namespace Rule

/-- The wildcard patterns are matched in one if there are several and they keep to the limit. -/
theorem isSome_combined?_iff {limit : Nat} {rs : List Rule} :
    (combined? limit rs).isSome = true ↔
      2 ≤ (globs rs).length ∧ sizeTogether ((globs rs).map Glob.parts) ≤ limit := by
  unfold combined?
  split
  · next g h gs hg =>
    rw [hg]
    split <;> simp_all
  · next hg =>
    match h : globs rs with
    | [] | [_] => simp
    | g :: h' :: gs => exact absurd h (hg g h' gs)

/-- The patterns in one are all wildcard patterns of the rules. -/
theorem eq_ofGlobs_of_combined? {limit : Nat} {rs : List Rule} {m : Combined}
    (h : combined? limit rs = some m) : ∃ g gs, globs rs = g :: gs ∧ m = .ofGlobs g gs := by
  unfold combined? at h
  split at h
  · next g g' gs hg =>
    split at h
    · exact ⟨g, g' :: gs, hg, (Option.some.inj h).symm⟩
    · cases h
  · cases h

/-- Rules exclude the same with their wildcard patterns in one, whatever the limit, and one by
one. -/
theorem excludeWith_combined? (limit : Nat) (rs : List Rule) (path : Text)
    (isDirectory concrete : Bool) :
    excludeWith (combined? limit rs) rs path isDirectory concrete =
      rs.any (·.pattern.applies (.ofText path) isDirectory concrete) := by
  have hglobs : ((globs rs).any (·.applies path concrete) || rs.any fun r =>
      r.pattern.glob?.isNone && r.pattern.applies (.ofText path) isDirectory concrete) =
        rs.any (·.pattern.applies (.ofText path) isDirectory concrete) := by
    rw [globs, List.any_filterMap, Bool.eq_iff_iff, Bool.or_eq_true]
    simp only [List.any_eq_true, ← exists_or, ← and_or_left]
    refine exists_congr fun r => and_congr_right fun _ => ?_
    cases hp : r.pattern <;> simp [Pattern.glob?, Pattern.applies, Candidate.ofText]
  unfold excludeWith
  split
  · next m hm =>
    obtain ⟨g, gs, hg, rfl⟩ := eq_ofGlobs_of_combined? hm
    rw [Combined.applies_ofGlobs, ← hg, hglobs]
  · rfl

end Rule

end Sweep
