import Mathlib.Data.Finset.Card
import Mathlib.Data.List.Sort
import Sweep.Proofs.Agreement
import Sweep.Proofs.Freshness
import Sweep.Proofs.Lexicographic
/-!
# Sets of rules in their one form

A set of rules depends on the shapes and texts of its valid rules and on nothing else: their members
are strictly increasing, so two sets with the same shapes and texts are the same. Different texts
make different rules. So a memo takes rules for new ones exactly if a shape or a text came or went,
and else it keeps what it has.
-/

namespace Sweep

namespace Pattern

/-! ## The order of patterns -/

/-- What patterns are told apart by: the shape and the text. -/
def tag (p : Pattern) : Nat × Text := (p.rank, p.key)

/-- Whether the shape comes first, or the text does under the same shape. -/
def IsBefore (p q : Pattern) : Prop := p.rank < q.rank ∨ p.rank = q.rank ∧ p.key < q.key

/-- The pattern of a shape and a text. -/
def ofTag : Nat × Text → Pattern
  | (0, t) => .exact t
  | (1, t) => .stem t
  | (2, t) => .fileName t
  | (3, t) => .ending t
  | (4, t) => .relativePath t
  | (5, t) => .relativeStem t
  | (6, t) => .glob ⟨t⟩
  | (7, t) => .relativeGlob ⟨t⟩
  | _ => .void

theorem ofTag_tag (p : Pattern) : ofTag p.tag = p := by
  cases p <;> rfl

theorem tag_injective : Function.Injective tag :=
  Function.LeftInverse.injective ofTag_tag

theorem order_eq_lt_iff {p q : Pattern} : p.order q = .lt ↔ p.IsBefore q := by
  rw [order, Ordering.then_eq_lt, Nat.compare_eq_lt, Nat.compare_eq_eq, Text.compare_eq_lt_iff,
    IsBefore]

theorem order_eq_eq_iff {p q : Pattern} : p.order q = .eq ↔ p = q := by
  rw [order, Ordering.then_eq_eq, Nat.compare_eq_eq, Std.LawfulEqOrd.compare_eq_iff_eq,
    ← tag_injective.eq_iff, tag, tag, Prod.mk.injEq]

instance : Std.TransCmp order :=
  inferInstanceAs (Std.TransCmp (compareLex (compareOn rank) (compareOn key)))

theorem IsBefore.trans {p q r : Pattern} (h : p.IsBefore q) (h' : q.IsBefore r) : p.IsBefore r := by
  rw [← order_eq_lt_iff] at *
  exact Std.TransCmp.lt_trans h h'

instance : Std.Irrefl IsBefore where
  irrefl p h := by
    rw [← order_eq_lt_iff, order_eq_eq_iff.2 rfl] at h
    cases h

instance : Std.Antisymm IsBefore where
  antisymm p _ h h' := absurd (h.trans h') (Std.Irrefl.irrefl p)

end Pattern

namespace RuleSet

/-! ## Sorting and dropping repeats -/

theorem inOrder_iff {r s : Rule} :
    inOrder r s = true ↔ r.pattern.IsBefore s.pattern ∨ r.pattern = s.pattern := by
  rw [inOrder, Ordering.isLE_iff_eq_lt_or_eq_eq, Pattern.order_eq_lt_iff, Pattern.order_eq_eq_iff]

theorem pairwise_inOrder (rs : List Rule) :
    (rs.mergeSort inOrder).Pairwise fun r s => inOrder r s = true := by
  refine List.pairwise_mergeSort (fun r s t hrs hst => ?_) (fun r s => ?_) rs
  · exact Std.TransCmp.isLE_trans hrs hst
  · have hswap : s.pattern.order r.pattern = (r.pattern.order s.pattern).swap :=
      Std.OrientedCmp.eq_swap
    rw [inOrder, inOrder, hswap]
    cases r.pattern.order s.pattern <;> rfl

/-- Of rules in order, those that are left are strictly in order. -/
theorem pairwise_dropRepeats {rs : List Rule} (h : rs.Pairwise fun r s => inOrder r s = true) :
    ((dropRepeats rs).map Rule.pattern).Pairwise Pattern.IsBefore := by
  fun_induction dropRepeats rs with
  | case1 => exact .nil
  | case2 r rs hd ih => simp
  | case3 r rs s kept hd hs ih =>
    have he : r.pattern = s.pattern := by simpa [Rule.same] using hs
    rw [hd] at ih
    simpa [he] using ih h.of_cons
  | case4 r rs s kept hd hs ih =>
    have hne : r.pattern ≠ s.pattern := by simpa [Rule.same] using hs
    have hkept := ih h.of_cons
    -- The first pattern that is left behind `r` is one behind it, so it does not come before `r`.
    have hmem : s.pattern ∈ rs.map Rule.pattern := by
      rw [← mem_patterns_dropRepeats, hd]
      simp
    obtain ⟨t, ht, he⟩ := List.mem_map.1 hmem
    have hrs : r.pattern.IsBefore s.pattern := by
      rw [← he] at hne ⊢
      exact (inOrder_iff.1 (List.rel_of_pairwise_cons h ht)).resolve_right hne
    rw [hd, List.map_cons] at hkept
    rw [List.map_cons, List.map_cons, List.pairwise_cons]
    refine ⟨fun p hp => ?_, hkept⟩
    rcases List.mem_cons.1 hp with rfl | hp
    · exact hrs
    · exact hrs.trans (List.rel_of_pairwise_cons hkept hp)

/-- The members of a set are strictly increasing. -/
theorem pairwise_members (rs : List Rule) :
    ((ofList rs).members.map Rule.pattern).Pairwise Pattern.IsBefore :=
  pairwise_dropRepeats (pairwise_inOrder _)

/-! ## What a set depends on -/

/-- The shapes and texts of the valid rules of a list. -/
def tags (rs : List Rule) : Finset (Nat × Text) :=
  ((rs.filter Rule.isValid).map (·.pattern.tag)).toFinset

theorem mem_tags {rs : List Rule} {x : Nat × Text} :
    x ∈ tags rs ↔ ∃ p ∈ rs.map Rule.pattern, p ≠ .void ∧ p.tag = x := by
  simp only [tags, List.mem_toFinset, List.mem_map, List.mem_filter, Rule.isValid, bne_iff_ne]
  constructor
  · rintro ⟨r, ⟨hr, hv⟩, rfl⟩
    exact ⟨r.pattern, ⟨r, hr, rfl⟩, hv, rfl⟩
  · rintro ⟨-, ⟨r, hr, rfl⟩, hv, rfl⟩
    exact ⟨r, ⟨hr, hv⟩, rfl⟩

theorem tag_mem_tags_iff {rs : List Rule} {p : Pattern} :
    p.tag ∈ tags rs ↔ p ∈ (ofList rs).members.map Rule.pattern := by
  rw [mem_tags, mem_patterns_ofList]
  constructor
  · rintro ⟨q, hq, hv, he⟩
    cases Pattern.tag_injective he
    exact ⟨hq, hv⟩
  · rintro ⟨hp, hv⟩
    exact ⟨p, hp, hv, rfl⟩

theorem tags_eq (rs : List Rule) :
    tags rs = (((ofList rs).members.map Rule.pattern).map Pattern.tag).toFinset := by
  ext x
  rw [mem_tags, List.mem_toFinset, List.mem_map]
  simp only [mem_patterns_ofList, and_assoc]

theorem same_ofList_iff {rs ss : List Rule} :
    (ofList rs).same (ofList ss) = true ↔ tags rs = tags ss := by
  rw [same, beq_iff_eq]
  constructor
  · intro h
    rw [tags_eq, tags_eq, h]
  · intro h
    refine (pairwise_members rs).eq_of_mem_iff (pairwise_members ss) fun p => ?_
    rw [← tag_mem_tags_iff, ← tag_mem_tags_iff, h]

/-- A set has as many members as there are shapes and texts. -/
theorem size_ofList (rs : List Rule) : (ofList rs).size = (tags rs).card := by
  have hn : (((ofList rs).members.map Rule.pattern).map Pattern.tag).Nodup :=
    ((pairwise_members rs).nodup).map Pattern.tag_injective
  rw [tags_eq, List.toFinset_card_of_nodup hn, List.length_map, List.length_map, size]

end RuleSet

/-! ## Different texts, different rules -/

/-- The text that a pattern is read from. -/
def Pattern.source : Pattern → Text
  | .exact t | .stem t => t
  | .fileName t | .relativePath t | .relativeStem t => t.tail
  | .ending t => '*' :: t
  | .glob g => g.full
  | .relativeGlob g => g.full.drop 2
  | .void => []

theorem Pattern.source_ofText (t : Text) : (ofText t).source = t := by
  unfold ofText
  dsimp only
  split
  · next h => rw [h, source]
  · split
    · split
      · rfl
      · split
        · next h =>
          -- The run that the text starts with is put back in front of its ending.
          cases t <;> simp_all [source]
        · rfl
    · repeat' split
      all_goals rfl

theorem Pattern.ofText_injective : Function.Injective ofText := fun t u h => by
  rw [← source_ofText t, h, source_ofText]

theorem Pattern.ofText_eq_void_iff {t : Text} : ofText t = .void ↔ t = [] := by
  constructor
  · intro h
    rw [← source_ofText t, h, source]
  · rintro rfl
    rfl

theorem Rule.eq_of_same {t u : Text} {r s : Rule} (hr : Rule.parse t = .ok r)
    (hs : Rule.parse u = .ok s) (h : r.same s = true) : t = u := by
  rw [same, beq_iff_eq, pattern_of_parse hr, pattern_of_parse hs] at h
  exact Pattern.ofText_injective h

namespace RuleSet

/-- The texts, but for the empty one, that are no wildcard pattern that is too large. -/
def accepted (ts : List Text) : Finset Text :=
  (ts.filter fun t => t ≠ [] && (Rule.parse t).isOk).toFinset

theorem tags_parseAll (ts : List Text) :
    tags (parseAll ts) = (accepted ts).image fun t => (Pattern.ofText t).tag := by
  ext x
  simp only [mem_tags, mem_patterns_parseAll, accepted, Finset.mem_image, List.mem_toFinset,
    List.mem_filter, Bool.and_eq_true, decide_eq_true_eq]
  constructor
  · rintro ⟨-, ⟨t, ht, r, hr, rfl⟩, hv, rfl⟩
    rw [Rule.pattern_of_parse hr, ne_eq, Pattern.ofText_eq_void_iff] at hv
    exact ⟨t, ⟨ht, hv, by rw [hr]; rfl⟩, by rw [Rule.pattern_of_parse hr]⟩
  · rintro ⟨t, ⟨ht, hne, hok⟩, rfl⟩
    cases hr : Rule.parse t with
    | error => simp [hr, Except.isOk, Except.toBool] at hok
    | ok r =>
      have hp := Rule.pattern_of_parse hr
      rw [← hp]
      exact ⟨r.pattern, ⟨t, ht, r, hr, rfl⟩, by rwa [hp, ne_eq, Pattern.ofText_eq_void_iff], rfl⟩

theorem size_ofTexts (ts : List Text) : (ofTexts ts).size = (accepted ts).card := by
  rw [ofTexts, size_ofList, tags_parseAll, Finset.card_image_of_injective]
  exact Pattern.tag_injective.comp Pattern.ofText_injective

/-! ## Sets of rules and memos that hold them -/

theorem same_of_same {s t u : RuleSet} (h : s.same t = true) : s.same u = t.same u := by
  rw [same, beq_iff_eq] at h
  rw [same, same, h]

/-- Two sets are the same exactly if their lists have valid rules of the same shapes and texts, and
the members of a set are strictly increasing by shape and text. Different texts make different rules,
so the set of some texts has a member for each text, other than the empty one, that makes a rule. A
memo that has come in any way to hold a set takes another one for new exactly if a shape or a text
differs, and else stays as it is, with all its verdicts and the time of the last drop. -/
theorem ofList_is_canonical (rs ss : List Rule) :
    ((ofList rs).same (ofList ss) = true ↔ tags rs = tags ss) ∧
    ((ofList rs).members.Pairwise fun r s => r.pattern.IsBefore s.pattern) ∧
    (∀ t u r s, Rule.parse t = .ok r → Rule.parse u = .ok s → r.same s = true → t = u) ∧
    (∀ ts, (ofTexts ts).size = (accepted ts).card) ∧
    ∀ (lifetime : Duration) (start now : Nat) (calls : List Memo.Call) (m : Memo),
      m = (Memo.new lifetime start).after calls → m.rules.same (ofList rs) = true →
      ((m.setRules now (ofList ss)).1 = true ↔ tags rs ≠ tags ss) ∧
      ((m.setRules now (ofList ss)).1 = false → (m.setRules now (ofList ss)).2 = m) := by
  refine ⟨same_ofList_iff, List.pairwise_map.1 (pairwise_members rs), fun t u r s => Rule.eq_of_same,
    size_ofTexts, fun lifetime start now calls m _ hm => ⟨?_, Memo.setRules_of_keeps⟩⟩
  rw [Memo.setRules_fst, same_of_same hm, Bool.not_eq_true', ← Bool.not_eq_true, same_ofList_iff]

/-- Only the text `*.log` makes the rule of the extension `log`. The empty text and a text that comes
twice are no change for a memo, which keeps its verdict; a text without its separator is. -/
theorem repeats_are_no_change :
    (∀ t r, Rule.parse t = .ok r → r.same (Rule.ofExtension "log".toList) = true →
      t = "*.log".toList) ∧
    ∃ m, m = (Memo.new (.ofSeconds 60) 0).after Memo.oneCheck ∧
      m.rules.same (ofTexts ["/x/".toList]) = true ∧ m.size = 1 ∧
      (m.setRules 7 (ofTexts ["/x/".toList, [], "/x/".toList])).2 = m ∧
      (m.setRules 7 (ofTexts ["/x".toList])).1 = true := by
  have hm : ((Memo.new (.ofSeconds 60) 0).after Memo.oneCheck).rules.same
      (ofTexts ["/x/".toList]) = true := by decide +kernel
  refine ⟨fun t r hr hs => ?_, _, rfl, hm, by decide +kernel, ?_, ?_⟩
  · obtain ⟨-, -, hinj, -⟩ := ofList_is_canonical [] []
    exact hinj t _ r ⟨"*.log".toList, .ending ".log".toList⟩ hr rfl hs
  · obtain ⟨-, -, -, -, hset⟩ := ofList_is_canonical (parseAll ["/x/".toList])
      (parseAll ["/x/".toList, [], "/x/".toList])
    obtain ⟨hiff, hkeeps⟩ := hset _ 0 7 _ _ rfl hm
    exact hkeeps (Bool.eq_false_iff.2 fun h => hiff.1 h (by decide +kernel))
  · obtain ⟨-, -, -, -, hset⟩ := ofList_is_canonical (parseAll ["/x/".toList])
      (parseAll ["/x".toList])
    exact (hset _ 0 7 _ _ rfl hm).1.2 (by decide +kernel)

end RuleSet

end Sweep
