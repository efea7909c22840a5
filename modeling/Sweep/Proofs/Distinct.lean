import Mathlib.Data.List.Induction
import Sweep.Path.Location
/-!
# The first of each group of paths

Of paths that are the same, `Path.distinct` keeps the one that comes first. `AreFirsts` says so
without an algorithm.
-/

namespace Sweep

/-- Whether a list is what is left of another one when, from the front, each path is passed over
that is the same as one before it. -/
inductive AreFirsts : List Path → List Path → Prop where
  | nil : AreFirsts [] []
  | keep {fs ps : List Path} {p : Path} : AreFirsts fs ps → (∀ q ∈ ps, q.same p = false) →
    AreFirsts (fs ++ [p]) (ps ++ [p])
  | pass {fs ps : List Path} {p q : Path} : AreFirsts fs ps → q ∈ ps → q.same p = true →
    AreFirsts fs (ps ++ [p])

theorem Location.firsts_concat {α : Type} (es : List (Location × α)) (e : Location × α) :
    firsts (es ++ [e]) = if es.any (·.1 == e.1) then firsts es else firsts es ++ [e] := by
  induction es with
  | nil => rfl
  | cons d es ih =>
    rw [List.cons_append, firsts, ih, firsts, List.any_cons]
    cases hes : es.any (·.1 == e.1) with
    | true => simp
    | false =>
      by_cases hd : d.1 = e.1
      · simp [hd]
      · simp [hd, Ne.symm hd]

theorem Path.distinct_concat (ps : List Path) (p : Path) :
    distinct (ps ++ [p]) = if ps.any (·.same p) then distinct ps else distinct ps ++ [p] := by
  have hany : (ps.map fun q => (q.location, q)).any (·.1 == p.location) = ps.any (·.same p) := by
    rw [List.any_map]
    congr 1
    funext q
    rw [Bool.eq_iff_iff, Function.comp, beq_iff_eq, location_eq_location_iff]
  rw [distinct, List.map_append, List.map_singleton, Location.firsts_concat, hany]
  split
  · rfl
  · rw [List.map_append]
    rfl

theorem areFirsts_distinct (ps : List Path) : AreFirsts (Path.distinct ps) ps := by
  induction ps using List.reverseRecOn with
  | nil => exact .nil
  | append_singleton ps p ih =>
    rw [Path.distinct_concat]
    cases h : ps.any (·.same p) with
    | true =>
      obtain ⟨q, hq, hs⟩ := List.any_eq_true.1 h
      exact ih.pass hq hs
    | false =>
      refine ih.keep fun q hq => ?_
      simpa using List.any_eq_false.1 h q hq

end Sweep
