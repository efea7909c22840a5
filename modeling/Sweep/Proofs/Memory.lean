import Sweep.Memo
import Sweep.Proofs.Covering
import Sweep.Proofs.Path
/-!
# What a memo answers

A memo answers as the rules do for the first spelling of the path that was asked about since the
verdicts were last dropped. So it is as good as the rules alone when all paths are asked about in
their shortest spelling, and may not be when spellings are mixed.
-/

namespace Sweep.Memo

/-- The paths that verdicts are remembered for at a time: none if the verdicts are too old. -/
def live (m : Memo) (now : Nat) (ps : List Path) : List Path := if m.isExpired now then [] else ps

/-- A memo that was made and used in some way, and the paths that were asked about since its
verdicts were last dropped. The times of the calls are in no order. -/
inductive Asked : Memo → List Path → Prop where
  | new (lifetime : Duration) (now : Nat) : Asked (new lifetime now) []
  | setRules {m : Memo} {ps : List Path} (now : Nat) (rules : RuleSet) :
    Asked m ps → Asked (m.setRules now rules).2 (if m.rules.same rules then ps else [])
  | check {m : Memo} {ps : List Path} (now : Nat) (p : Path) : Asked m ps →
    Asked (m.check now p).2 (if m.rules.isEmpty then ps else m.live now ps ++ [p])

/-- The verdict of the rules on a file. -/
def verdict (m : Memo) (p : Path) : Bool := m.rules.applies p.text false true

/-- Whether the memo remembers the verdicts on the first spellings of these paths, and no others. -/
def Recalls (m : Memo) (ps : List Path) : Prop :=
  ∀ p, m.remembered? p = (ps.find? (·.same p)).map m.verdict

variable {m : Memo} {ps : List Path} {p : Path} {now : Nat}

theorem live_subset (m : Memo) (now : Nat) (ps : List Path) : m.live now ps ⊆ ps := by
  unfold live
  split
  · exact List.nil_subset ps
  · exact List.Subset.refl ps

theorem recalls_nil (h : m.verdicts = []) : m.Recalls [] := by
  intro p
  rw [remembered?, h]
  rfl

theorem Recalls.refresh (h : m.Recalls ps) (now : Nat) :
    (m.refresh now).Recalls (m.live now ps) := by
  unfold Memo.refresh live
  split
  · exact recalls_nil rfl
  · exact h

/-- A path whose location is known adds nothing to what is found. -/
theorem find?_append_known {q : Path} (h : (ps.find? (·.same p)).isSome = true) :
    (ps ++ [p]).find? (·.same q) = ps.find? (·.same q) := by
  obtain ⟨r, hr, hrp⟩ := List.find?_isSome.1 h
  rw [List.find?_append]
  cases hq : ps.find? (·.same q) with
  | some _ => rfl
  | none =>
    have hrq := List.find?_eq_none.1 hq r hr
    rw [Path.same_iff] at hrp
    simp only [Path.same_iff, hrp] at hrq
    simp [Path.same_iff, hrq]

theorem remembered?_append {q : Path} {v : Bool} :
    remembered? { m with verdicts := m.verdicts ++ [(p.location, v)] } q =
      (m.remembered? q).or (if p.same q then some v else none) := by
  simp only [remembered?, List.find?_append, Option.map_or, List.find?_singleton, beq_iff_eq,
    Path.location_eq_location_iff]
  split <;> rfl

theorem check_of_some {v : Bool} (hr : m.rules.isEmpty = false)
    (hv : (m.refresh now).remembered? p = some v) : m.check now p = (v, m.refresh now) := by
  simp [check, hr, hv]

theorem check_of_none (hr : m.rules.isEmpty = false)
    (hv : (m.refresh now).remembered? p = none) :
    m.check now p = ((m.refresh now).verdict p, { m.refresh now with
      verdicts := (m.refresh now).verdicts ++ [(p.location, (m.refresh now).verdict p)] }) := by
  simp [check, hr, hv, verdict]

/-- What a check answers and what is recalled after it, once old verdicts are dropped. -/
theorem check_spec (hr : m.rules.isEmpty = false) (h : (m.refresh now).Recalls ps) :
    (m.check now p).1 = (m.refresh now).verdict ((ps.find? (·.same p)).getD p) ∧
      (m.check now p).2.Recalls (ps ++ [p]) := by
  have hp := h p
  cases hf : ps.find? (·.same p) with
  | some q =>
    rw [hf] at hp
    rw [check_of_some hr hp]
    refine ⟨rfl, fun r => ?_⟩
    rw [find?_append_known (by rw [hf]; rfl)]
    exact h r
  | none =>
    rw [hf] at hp
    rw [check_of_none hr hp]
    refine ⟨rfl, fun r => ?_⟩
    rw [remembered?_append, h r, List.find?_append, Option.map_or, List.find?_singleton]
    split <;> rfl

theorem Asked.recalls (h : Asked m ps) : m.Recalls ps := by
  induction h with
  | new lifetime now => exact recalls_nil rfl
  | @setRules m ps now rules _ ih =>
    unfold Memo.setRules
    split
    · exact ih
    · exact recalls_nil rfl
  | @check m ps now p _ ih =>
    cases hr : m.rules.isEmpty with
    | true => simpa [Memo.check, hr] using ih
    | false => exact (check_spec hr (ih.refresh now)).2

theorem verdict_of_isEmpty (hr : m.rules.isEmpty = true) (q : Path) : m.verdict q = false := by
  rw [RuleSet.isEmpty, List.isEmpty_iff] at hr
  rw [verdict, RuleSet.applies_eq_any, hr]
  rfl

theorem verdict_refresh (m : Memo) (now : Nat) : (m.refresh now).verdict = m.verdict := by
  unfold refresh
  split <;> rfl

theorem check_eq (h : Asked m ps) (now : Nat) (p : Path) : (m.check now p).1 =
    m.verdict (((m.live now ps).find? (·.same p)).getD p) := by
  cases hr : m.rules.isEmpty with
  | true =>
    rw [verdict_of_isEmpty hr]
    simp [check, hr]
  | false => rw [(check_spec hr (h.recalls.refresh now)).1, verdict_refresh]

/-- A check answers with the verdict on the first spelling that was asked about since verdicts were
dropped. It is that on the path itself exactly if the two agree, and so it is if all paths came in
their shortest spelling. -/
theorem answer_of_first_spelling (h : Asked m ps) (now : Nat) (p : Path) :
    (m.check now p).1 = m.rules.applies
      (((m.live now ps).find? (·.same p)).getD p).text false true ∧
    ((m.check now p).1 = m.rules.applies p.text false true ↔
      ∀ q, (m.live now ps).find? (·.same p) = some q →
        m.rules.applies q.text false true = m.rules.applies p.text false true) ∧
    (p.normal = p → (∀ q ∈ ps, q.normal = q) →
      (m.check now p).1 = m.rules.applies p.text false true) := by
  have hfirst := check_eq h now p
  have hexact : (m.check now p).1 = m.rules.applies p.text false true ↔
      ∀ q, (m.live now ps).find? (·.same p) = some q →
        m.rules.applies q.text false true = m.rules.applies p.text false true := by
    rw [hfirst, verdict]
    cases (m.live now ps).find? (·.same p) <;> simp
  refine ⟨hfirst, hexact, fun hp hps => hexact.2 fun q hf => ?_⟩
  have hq : q ∈ ps := live_subset m now ps (List.mem_of_find?_eq_some hf)
  have hs : q.same p = true := by simpa using List.find?_some hf
  rw [Path.eq_of_same (hps q hq) hp hs]

/-- A memo with one rule. -/
def withRule : Memo := ((new (.ofSeconds 60) 0).setRules 0 (.ofTexts ["/x/".toList])).2

theorem asked_withRule : Asked withRule [] := by
  have h := Asked.setRules 0 (.ofTexts ["/x/".toList]) (.new (.ofSeconds 60) 0)
  rwa [ite_self] at h

/-- The memo answers as its rule does for a path in its shortest spelling. -/
theorem answer_withRule : Asked withRule [] ∧
    (Path.ofText "/x/f".toList).normal = Path.ofText "/x/f".toList ∧
    (withRule.check 5 (.ofText "/x/f".toList)).1 =
      withRule.rules.applies "/x/f".toList false true := by
  have hp : (Path.ofText "/x/f".toList).normal = Path.ofText "/x/f".toList := by decide +kernel
  have ht : (Path.ofText "/x/f".toList).text = "/x/f".toList := by decide +kernel
  obtain ⟨-, -, h⟩ := answer_of_first_spelling asked_withRule 5 (.ofText "/x/f".toList)
  have h := h hp (by simp)
  rw [ht] at h
  exact ⟨asked_withRule, hp, h⟩

/-- Asked about a spelling with two separators first, the memo then gives the wrong answer. -/
theorem answer_of_other_spelling :
    (withRule.check 0 (.ofText "/x/f".toList)).1 = true ∧
    ((withRule.check 0 (.ofText "//x/f".toList)).2.check 0 (.ofText "/x/f".toList)).1 = false ∧
    withRule.rules.applies (Path.ofText "/x/f".toList).text false true = true := by
  decide +kernel

end Sweep.Memo
