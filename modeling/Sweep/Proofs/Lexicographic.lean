import Sweep.Tree
/-!
# Comparing texts and names

Texts are compared character by character and names byte by byte. Both comparisons are the order
`<` of lists, in which a list comes before those that it begins.
-/

namespace Sweep

/-- Lists are compared as `<` compares them if their elements are. -/
theorem compare_eq_lt_iff_of_elements {α : Type} [Ord α] [LT α] [Std.LawfulEqOrd α]
    (h : ∀ a b : α, compare a b = .lt ↔ a < b) (s t : List α) : compare s t = .lt ↔ s < t := by
  induction s generalizing t with
  | nil => cases t <;> simp [compare, List.compareLex]
  | cons a s ih =>
    cases t with
    | nil => simp [compare, List.compareLex]
    | cons b t =>
      rw [List.compare_cons_cons, Ordering.then_eq_lt, List.cons_lt_cons_iff, h, ih,
        Std.LawfulEqOrd.compare_eq_iff_eq]

theorem Text.compare_eq_lt_iff (s t : Text) : compare s t = .lt ↔ s < t :=
  compare_eq_lt_iff_of_elements (fun _ _ => compareOfLessAndEq_eq_lt) s t

namespace Node

variable {a b : List UInt8}

theorem compare_names_eq_lt_iff (a b : List UInt8) : compare a b = .lt ↔ a < b :=
  compare_eq_lt_iff_of_elements (fun _ _ => compareOfLessAndEq_eq_lt) a b

/-- Of two names one may stand in front of the other, and if both may they are equal. -/
theorem nameLE_iff : nameLE a b = true ↔ a < b ∨ a = b := by
  rw [nameLE, Ordering.isLE_iff_eq_lt_or_eq_eq, compare_names_eq_lt_iff,
    Std.LawfulEqOrd.compare_eq_iff_eq]

theorem lt_of_not_nameLE (h : nameLE a b ≠ true) : b < a := by
  rw [← compare_names_eq_lt_iff, Std.OrientedOrd.eq_swap, Ordering.swap_eq_lt]
  rw [nameLE] at h
  cases hc : compare a b <;> simp_all

end Node

end Sweep
