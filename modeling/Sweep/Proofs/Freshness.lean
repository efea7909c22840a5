import Mathlib.Data.List.Dedup
import Sweep.Proofs.Memory
/-!
# How old a remembered verdict is

A verdict that is given from memory was computed by a check of the same path less than a lifetime
ago, and no call has put other rules in place since. There is one verdict for each path, whatever
its spelling, that was checked while there were rules since the verdicts were last dropped, and none
while there are no rules.
-/

namespace Sweep.Memo

/-- A call of a memo, with its time. -/
inductive Call where
  | setRules (now : Nat) (rules : RuleSet)
  | check (now : Nat) (p : Path)

def Call.time : Call → Nat
  | .setRules now _ => now
  | .check now _ => now

/-- The memo after a call. -/
def serve (m : Memo) : Call → Memo
  | .setRules now rules => (m.setRules now rules).2
  | .check now p => (m.check now p).2

/-- The memo after some calls, the latest of them first. -/
def after (m : Memo) : List Call → Memo
  | [] => m
  | call :: earlier => (m.after earlier).serve call

/-- Whether the clock never goes back between the calls, the latest of them first. -/
def InOrder (start : Nat) (calls : List Call) : Prop :=
  (calls.map Call.time ++ [start]).Pairwise (· ≥ ·)

/-- Whether the call puts other rules in place. -/
def changesRules (m : Memo) : Call → Bool
  | .setRules now rules => (m.setRules now rules).1
  | .check _ _ => false

/-- Whether none of the calls, the latest of them first, puts other rules in place. -/
def keepsRules (m : Memo) : List Call → Bool
  | [] => true
  | call :: earlier => !(m.after earlier).changesRules call && m.keepsRules earlier

/-- Whether a check finds its answer among the verdicts. -/
def answersFromMemory (m : Memo) (now : Nat) (p : Path) : Bool :=
  !m.rules.isEmpty && ((m.refresh now).remembered? p).isSome

/-- Whether a check has to ask the rules. -/
def asksRules (m : Memo) (now : Nat) (p : Path) : Bool :=
  !m.rules.isEmpty && ((m.refresh now).remembered? p).isNone

/-- When verdicts were last dropped: when the memo was made, when the rules changed, or when a check
with rules came a lifetime or more after the drop before. -/
def lastDrop (m : Memo) : List Call → Nat
  | [] => m.droppedAt
  | .setRules now rules :: earlier =>
    if (m.after earlier).changesRules (.setRules now rules) then now else m.lastDrop earlier
  | .check now _ :: earlier =>
    if (m.after earlier).rules.isEmpty then m.lastDrop earlier
    else if m.lifetime.nanoseconds ≤ now - m.lastDrop earlier then now
    else m.lastDrop earlier

/-- The paths that were checked with rules since the last drop; the check that makes a drop counts
as made since then. -/
def checked (m : Memo) : List Call → List Path
  | [] => []
  | .setRules now rules :: earlier =>
    if (m.after earlier).changesRules (.setRules now rules) then [] else m.checked earlier
  | .check now p :: earlier =>
    if (m.after earlier).rules.isEmpty then m.checked earlier
    else
      (if m.lifetime.nanoseconds ≤ now - m.lastDrop earlier then [] else m.checked earlier) ++ [p]

variable {m : Memo} {calls : List Call} {call : Call} {now start : Nat} {p : Path}

/-! ## One call -/

theorem check_of_isEmpty (hr : m.rules.isEmpty = true) : m.check now p = (false, m) := by
  rw [check, if_pos hr]

theorem setRules_of_changes {rules : RuleSet} (h : (m.setRules now rules).1 = true) :
    (m.setRules now rules).2 = { m with rules, verdicts := [], droppedAt := now } := by
  unfold setRules at h ⊢
  split at h
  · cases h
  · rw [if_neg (by assumption)]

theorem setRules_of_keeps {rules : RuleSet} (h : (m.setRules now rules).1 = false) :
    (m.setRules now rules).2 = m := by
  unfold setRules at h ⊢
  split at h
  · rw [if_pos (by assumption)]
  · cases h

theorem setRules_fst (m : Memo) (now : Nat) (rules : RuleSet) :
    (m.setRules now rules).1 = !m.rules.same rules := by
  unfold setRules
  split <;> simp_all

theorem mem_of_remembered? {b : Bool} (h : m.remembered? p = some b) :
    ∃ v ∈ m.verdicts, v.1 = p.location ∧ v.2 = b := by
  rw [remembered?, Option.map_eq_some_iff] at h
  obtain ⟨v, hf, hb⟩ := h
  exact ⟨v, List.mem_of_find?_eq_some hf, by simpa using List.find?_some hf, hb⟩

theorem refresh_of_isExpired (h : m.isExpired now = true) :
    m.refresh now = { m with verdicts := [], droppedAt := now } := by
  rw [refresh, if_pos h]

theorem refresh_of_not_isExpired (h : m.isExpired now = false) : m.refresh now = m := by
  rw [refresh, if_neg (by simp [h])]

/-- A check leaves a memo without rules as it is. Else what it leaves is the refreshed memo, with one
more verdict if the rules were asked. -/
theorem check_cases (m : Memo) (now : Nat) (p : Path) :
    (m.rules.isEmpty = true ∧ (m.check now p).2 = m) ∨
    (m.rules.isEmpty = false ∧ (m.check now p).2 = m.refresh now) ∨
    (m.rules.isEmpty = false ∧ (m.refresh now).remembered? p = none ∧
      (m.check now p).2 = { m.refresh now with
        verdicts := (m.refresh now).verdicts ++ [(p.location, (m.check now p).1)] }) := by
  cases hr : m.rules.isEmpty with
  | true => exact .inl ⟨rfl, by rw [check_of_isEmpty hr]⟩
  | false =>
    cases hv : (m.refresh now).remembered? p with
    | some v => exact .inr (.inl ⟨rfl, by rw [check_of_some hr hv]⟩)
    | none => exact .inr (.inr ⟨rfl, rfl, by rw [check_of_none hr hv]⟩)

theorem rules_check (m : Memo) (now : Nat) (p : Path) : (m.check now p).2.rules = m.rules := by
  have hm : (m.refresh now).rules = m.rules := by unfold refresh; split <;> rfl
  rcases check_cases m now p with ⟨-, h⟩ | ⟨-, h⟩ | ⟨-, -, h⟩ <;> rw [h]
  · exact hm
  · exact hm

theorem lifetime_serve (m : Memo) (call : Call) : (m.serve call).lifetime = m.lifetime := by
  have hm (now : Nat) : (m.refresh now).lifetime = m.lifetime := by unfold refresh; split <;> rfl
  cases call with
  | setRules now rules =>
    unfold serve setRules
    dsimp only
    split <;> rfl
  | check now p =>
    rcases check_cases m now p with ⟨-, h⟩ | ⟨-, h⟩ | ⟨-, -, h⟩ <;> rw [serve, h]
    · exact hm now
    · exact hm now

theorem mem_verdicts_refresh {v : Location × Bool} (h : v ∈ (m.refresh now).verdicts) :
    m.isExpired now = false ∧ m.refresh now = m := by
  cases he : m.isExpired now with
  | true =>
    rw [refresh_of_isExpired he] at h
    cases h
  | false => exact ⟨rfl, refresh_of_not_isExpired he⟩

theorem droppedAt_refresh (m : Memo) (now : Nat) :
    (m.refresh now).droppedAt =
      if m.lifetime.nanoseconds ≤ now - m.droppedAt then now else m.droppedAt := by
  unfold refresh isExpired
  simp only [decide_eq_true_eq]
  split <;> rfl

/-- After a call, a verdict is one from before it that nothing has dropped, or the answer that the
call computed. -/
theorem mem_verdicts_serve {v : Location × Bool} (hd : m.droppedAt ≤ call.time)
    (h : v ∈ (m.serve call).verdicts) :
    (v ∈ m.verdicts ∧ (m.serve call).droppedAt = m.droppedAt ∧ m.changesRules call = false) ∨
    ∃ t q, call = .check t q ∧ m.asksRules t q = true ∧ v = (q.location, (m.check t q).1) ∧
      (m.serve call).droppedAt ≤ t := by
  cases call with
  | setRules now rules =>
    cases hc : (m.setRules now rules).1 with
    | true =>
      rw [serve, setRules_of_changes hc] at h
      cases h
    | false =>
      rw [serve, setRules_of_keeps hc] at h ⊢
      exact .inl ⟨h, rfl, hc⟩
  | check now p =>
    rw [serve] at h ⊢
    rcases check_cases m now p with ⟨-, hm⟩ | ⟨-, hm⟩ | ⟨hr, hn, hm⟩ <;> rw [hm] at h ⊢
    · exact .inl ⟨h, rfl, rfl⟩
    · -- A verdict that is left tells that the refreshed memo is the one before.
      have hm := (mem_verdicts_refresh h).2
      rw [hm] at h ⊢
      exact .inl ⟨h, rfl, rfl⟩
    · rcases List.mem_append.1 h with h | h
      · have hm := (mem_verdicts_refresh h).2
        rw [hm] at h ⊢
        exact .inl ⟨h, rfl, rfl⟩
      · refine .inr ⟨now, p, rfl, by simp [asksRules, hr, hn], List.mem_singleton.1 h, ?_⟩
        rw [droppedAt_refresh]
        split
        · exact Nat.le_refl now
        · exact hd

/-! ## A run of calls -/

theorem lifetime_after (m : Memo) (calls : List Call) :
    (m.after calls).lifetime = m.lifetime := by
  induction calls with
  | nil => rfl
  | cons call earlier ih => rw [after, lifetime_serve, ih]

/-- The drops that the calls tell are those that the memo makes. -/
theorem droppedAt_after (m : Memo) (calls : List Call) :
    (m.after calls).droppedAt = m.lastDrop calls := by
  induction calls with
  | nil => rfl
  | cons call earlier ih =>
    cases call with
    | setRules now rules =>
      rw [after, lastDrop, serve, changesRules]
      cases hc : ((m.after earlier).setRules now rules).1 with
      | true => rw [setRules_of_changes hc, if_pos rfl]
      | false => rw [setRules_of_keeps hc, if_neg Bool.false_ne_true, ih]
    | check now p =>
      rw [after, lastDrop, serve]
      have hd := droppedAt_refresh (m.after earlier) now
      rw [lifetime_after, ih] at hd
      rcases check_cases (m.after earlier) now p with ⟨hr, h⟩ | ⟨hr, h⟩ | ⟨hr, -, h⟩ <;> rw [h, hr]
      · rw [if_pos rfl, ih]
      · rw [if_neg Bool.false_ne_true, hd]
      · rw [if_neg Bool.false_ne_true, hd]

/-- A drop happens when the memo is made or called. -/
theorem lastDrop_mem (m : Memo) (calls : List Call) :
    m.lastDrop calls ∈ calls.map Call.time ++ [m.droppedAt] := by
  induction calls with
  | nil => exact List.mem_singleton.2 rfl
  | cons call earlier ih =>
    cases call with
    | setRules now rules =>
      rw [lastDrop]
      split
      · exact List.mem_cons_self
      · exact List.mem_cons_of_mem _ ih
    | check now p =>
      rw [lastDrop]
      split
      · exact List.mem_cons_of_mem _ ih
      · split
        · exact List.mem_cons_self
        · exact List.mem_cons_of_mem _ ih

theorem InOrder.of_cons (h : InOrder start (call :: calls)) : InOrder start calls :=
  List.Pairwise.of_cons h

theorem InOrder.droppedAt_le (h : InOrder m.droppedAt (call :: calls)) :
    (m.after calls).droppedAt ≤ call.time := by
  rw [droppedAt_after]
  exact List.rel_of_pairwise_cons h (lastDrop_mem m calls)

/-- A verdict and the check that computed it: of a path at the same location, since the last drop,
with the rules that are still in place. -/
structure Computed (m : Memo) (calls : List Call) (v : Location × Bool) (later : List Call)
    (t : Nat) (q : Path) (earlier : List Call) : Prop where
  split : calls = later ++ .check t q :: earlier
  location : q.location = v.1
  asks : (m.after earlier).asksRules t q = true
  answer : ((m.after earlier).check t q).1 = v.2
  dropped : (m.after calls).droppedAt ≤ t
  keeps : (m.after (.check t q :: earlier)).keepsRules later = true

theorem after_append (m : Memo) (later earlier : List Call) :
    m.after (later ++ earlier) = (m.after earlier).after later := by
  induction later with
  | nil => rfl
  | cons call later ih => rw [List.cons_append, after, after, ih]

/-- Every verdict that is remembered was computed by one of the calls. -/
theorem computed_of_mem_verdicts (hm : m.verdicts = []) (h : InOrder m.droppedAt calls)
    {v : Location × Bool} (hv : v ∈ (m.after calls).verdicts) :
    ∃ later t q earlier, Computed m calls v later t q earlier := by
  induction calls with
  | nil =>
    rw [after, hm] at hv
    cases hv
  | cons call calls ih =>
    rw [after] at hv
    -- The latest call either keeps the verdict and makes no drop, or computes it.
    rcases mem_verdicts_serve h.droppedAt_le hv with ⟨hv, hd, hc⟩ | ⟨t, q, rfl, ha, rfl, hd⟩
    · obtain ⟨later, t, q, earlier, hk⟩ := ih h.of_cons hv
      refine ⟨call :: later, t, q, earlier, ?_, hk.location, hk.asks, hk.answer, ?_, ?_⟩
      · rw [hk.split, List.cons_append]
      · rw [after, hd]
        exact hk.dropped
      · rw [keepsRules, hk.keeps, ← after_append, ← hk.split, hc]
        rfl
    · exact ⟨[], t, q, calls, rfl, rfl, ha, rfl, hd, rfl⟩

/-! ## How many verdicts there are -/

theorem Asked.verdicts_of_isEmpty {ps : List Path} (h : Asked m ps)
    (hr : m.rules.isEmpty = true) : m.verdicts = [] := by
  induction h with
  | new lifetime now => rfl
  | @setRules m ps now rules _ ih =>
    cases hc : (m.setRules now rules).1 with
    | true => rw [setRules_of_changes hc]
    | false =>
      rw [setRules_of_keeps hc] at hr ⊢
      exact ih hr
  | @check m ps now p _ ih =>
    rw [rules_check] at hr
    rw [check_of_isEmpty hr]
    exact ih hr

theorem mem_locations_iff {ps : List Path} (h : m.Recalls ps) (l : Location) :
    l ∈ m.verdicts.map Prod.fst ↔ l ∈ ps.map Path.location := by
  have hl : (m.remembered? l.path).isSome = (ps.find? (·.same l.path)).isSome := by
    rw [h l.path, Option.isSome_map]
  rw [remembered?, Option.isSome_map, Bool.eq_iff_iff, List.find?_isSome, List.find?_isSome,
    Location.location_path] at hl
  simpa only [List.mem_map, beq_iff_eq, ← Path.location_eq_location_iff,
    Location.location_path] using hl

theorem nodup_locations_refresh (h : (m.verdicts.map Prod.fst).Nodup) (now : Nat) :
    ((m.refresh now).verdicts.map Prod.fst).Nodup := by
  unfold refresh
  split
  · exact List.nodup_nil
  · exact h

theorem Asked.nodup_locations {ps : List Path} (h : Asked m ps) :
    (m.verdicts.map Prod.fst).Nodup := by
  induction h with
  | new lifetime now => exact List.nodup_nil
  | @setRules m ps now rules _ ih =>
    unfold Memo.setRules
    split
    · exact ih
    · exact List.nodup_nil
  | @check m ps now p _ ih =>
    rcases check_cases m now p with ⟨-, h⟩ | ⟨-, h⟩ | ⟨-, hn, h⟩ <;> rw [h]
    · exact ih
    · exact nodup_locations_refresh ih now
    · rw [List.map_append, List.map_singleton, ← List.concat_eq_append]
      refine (nodup_locations_refresh ih now).concat fun hp => ?_
      obtain ⟨v, hv, hl⟩ := List.mem_map.1 hp
      rw [remembered?, Option.map_eq_none_iff, List.find?_eq_none] at hn
      exact hn v hv (beq_iff_eq.2 hl)

/-- The paths that the calls tell are those that the memo was asked about. -/
theorem asked_after (lifetime : Duration) (start : Nat) (calls : List Call) :
    Asked ((new lifetime start).after calls) ((new lifetime start).checked calls) := by
  induction calls with
  | nil => exact .new lifetime start
  | cons call earlier ih =>
    rw [after]
    cases call with
    | setRules now rules =>
      have h := ih.setRules now rules
      cases hs : ((new lifetime start).after earlier).rules.same rules <;>
        simpa [serve, checked, changesRules, setRules_fst, hs] using h
    | check now p =>
      have h := ih.check now p
      rw [live, isExpired, droppedAt_after, lifetime_after] at h
      simpa only [serve, checked, decide_eq_true_eq] using h

theorem size_of_asked {ps : List Path} (h : Asked m ps) :
    m.size = (ps.map Path.components).dedup.length := by
  have hperm : (m.verdicts.map Prod.fst).Perm (ps.map Path.location).dedup := by
    rw [List.perm_ext_iff_of_nodup h.nodup_locations (List.nodup_dedup _)]
    intro l
    rw [mem_locations_iff h.recalls, List.mem_dedup]
  have hinj : Function.Injective fun l : Location => l.path.components := by
    intro l k hc
    rw [← l.location_path, ← k.location_path, Path.location_eq_location_iff, Path.same_iff]
    exact hc
  have hcomp : ps.map Path.components =
      (ps.map Path.location).map fun l => l.path.components := by
    simp [Function.comp_def]
  calc m.size = (m.verdicts.map Prod.fst).length := by rw [size, List.length_map]
    _ = (ps.map Path.location).dedup.length := hperm.length_eq
    _ = (ps.map Path.components).dedup.length := by
      rw [hcomp, List.dedup_map_of_injective hinj, List.length_map]

/-- A verdict that is given from memory was computed by a check of the same path less than a
lifetime ago, after the last change of the rules. The size is the number of different paths that
were checked since the last drop. -/
theorem remembered_is_fresh (lifetime : Duration) (start : Nat) (calls : List Call) :
    (∀ now p, InOrder start (.check now p :: calls) →
      ((new lifetime start).after calls).answersFromMemory now p = true →
      ∃ later t q earlier, calls = later ++ .check t q :: earlier ∧
        q.components = p.components ∧
        now < t + lifetime.nanoseconds ∧
        ((new lifetime start).after (.check t q :: earlier)).keepsRules later = true ∧
        ((new lifetime start).after earlier).asksRules t q = true ∧
        (((new lifetime start).after calls).check now p).1 =
          (((new lifetime start).after earlier).check t q).1) ∧
    ((new lifetime start).after calls).size =
      (((new lifetime start).checked calls).map Path.components).dedup.length ∧
    (((new lifetime start).after calls).rules.isEmpty = true →
      ((new lifetime start).after calls).size = 0) := by
  have hasked := asked_after lifetime start calls
  refine ⟨fun now p ho ha => ?_, size_of_asked hasked, fun hr => ?_⟩
  · rw [answersFromMemory, Bool.and_eq_true, Bool.not_eq_true', Option.isSome_iff_exists] at ha
    obtain ⟨hr, b, hb⟩ := ha
    obtain ⟨v, hv, hl, rfl⟩ := mem_of_remembered? hb
    obtain ⟨he, hm⟩ := mem_verdicts_refresh hv
    rw [hm] at hv
    obtain ⟨later, t, q, earlier, hk⟩ :=
      computed_of_mem_verdicts (m := new lifetime start) rfl ho.of_cons hv
    refine ⟨later, t, q, earlier, hk.split, ?_, ?_, hk.keeps, hk.asks, ?_⟩
    · rw [← Path.same_iff, ← Path.location_eq_location_iff, hk.location, hl]
    · have hd := hk.dropped
      rw [isExpired, lifetime_after, decide_eq_false_iff_not] at he
      change ¬lifetime.nanoseconds ≤ _ at he
      omega
    · rw [check_of_some hr hb, hk.answer]
  · rw [size, hasked.verdicts_of_isEmpty hr]
    rfl

/-- One rule, and a check of a path below what it leaves out. -/
def oneCheck : List Call :=
  [.check 1 (.ofText "/x/f".toList), .setRules 0 (.ofTexts ["/x/".toList])]

/-- A second check in time answers from memory what the first one computed, also if the path is
spelled in another way. -/
theorem second_check_is_fresh :
    InOrder 0 (.check 5 (.ofText "/x//f".toList) :: oneCheck) ∧
    ((new (.ofSeconds 60) 0).after oneCheck).answersFromMemory 5 (.ofText "/x//f".toList) = true ∧
    (∃ later t q earlier, oneCheck = later ++ .check t q :: earlier ∧
      q.components = (Path.ofText "/x//f".toList).components ∧
      5 < t + (Duration.ofSeconds 60).nanoseconds) ∧
    ((new (.ofSeconds 60) 0).after oneCheck).size = 1 := by
  have ho : InOrder 0 (.check 5 (.ofText "/x//f".toList) :: oneCheck) := by
    simp [InOrder, oneCheck, Call.time]
  have ha : ((new (.ofSeconds 60) 0).after oneCheck).answersFromMemory 5
      (.ofText "/x//f".toList) = true := by decide +kernel
  obtain ⟨later, t, q, earlier, he, hq, ht, -⟩ := (remembered_is_fresh _ _ _).1 _ _ ho ha
  exact ⟨ho, ha, ⟨later, t, q, earlier, he, hq, ht⟩, by decide +kernel⟩

end Sweep.Memo
