import Mathlib.Data.List.Sort
/-!
# Lists in the order of places

The parts of a document are written in the order of their places, and parts of one place stay as
they are to each other. A list in this order is fixed by what it has at each place, so sorting goes
with taking each element apart into what stands at its place, and with joining lists of which one
comes before the other.
-/

namespace Sweep

variable {α β : Type} {place : α → Nat} {place' : β → Nat} {l l' : List α}

/-- The elements in the order of their places. -/
def inPlaces (place : α → Nat) (l : List α) : List α := l.mergeSort fun a b => place a ≤ place b

theorem inPlaces_nil (place : α → Nat) : inPlaces place [] = [] := List.mergeSort_nil

theorem inPlaces_singleton (place : α → Nat) (a : α) : inPlaces place [a] = [a] :=
  List.mergeSort_singleton a

theorem inPlaces_perm (place : α → Nat) (l : List α) : (inPlaces place l).Perm l :=
  List.mergeSort_perm _ _

theorem mem_inPlaces {a : α} : a ∈ inPlaces place l ↔ a ∈ l := (inPlaces_perm place l).mem_iff

theorem pairwise_inPlaces (place : α → Nat) (l : List α) :
    (inPlaces place l).Pairwise fun a b => place a ≤ place b := by
  have h : (inPlaces place l).Pairwise fun a b => decide (place a ≤ place b) = true :=
    List.pairwise_mergeSort (fun a b c => by simpa using Nat.le_trans)
      (fun a b => by simpa using Nat.le_total _ _) l
  simpa using h

theorem filter_inPlaces (n : Nat) :
    (inPlaces place l).filter (place · = n) = l.filter (place · = n) := by
  have hall : ∀ a ∈ l.filter (place · = n), place a = n := by simp
  have hsub : (l.filter (place · = n)).Sublist (inPlaces place l) := by
    apply List.sublist_mergeSort (fun a b c => by simpa using Nat.le_trans)
      (fun a b => by simpa using Nat.le_total _ _) _ List.filter_sublist
    exact List.pairwise_of_forall_mem_list fun a ha b hb => by simp [hall a ha, hall b hb]
  have hsub' := hsub.filter (place · = n)
  simp only [List.filter_filter, Bool.and_self] at hsub'
  exact (hsub'.eq_of_length ((inPlaces_perm place l).filter _).length_eq.symm).symm

theorem place_le_of_filter {a b : α} (hl' : (b :: l').Pairwise fun a b => place a ≤ place b)
    (h : (a :: l).filter (place · = place a) = (b :: l').filter (place · = place a)) :
    place b ≤ place a := by
  have hmem : a ∈ (b :: l').filter (place · = place a) := by
    rw [← h]
    simp
  rcases List.mem_cons.1 (List.mem_filter.1 hmem).1 with rfl | hmem
  · exact Nat.le_refl _
  · exact List.rel_of_pairwise_cons hl' hmem

/-- Lists in order with the same elements at each place are the same. -/
theorem eq_of_pairwise_of_filter (hl : l.Pairwise fun a b => place a ≤ place b)
    (hl' : l'.Pairwise fun a b => place a ≤ place b)
    (h : ∀ n, l.filter (place · = n) = l'.filter (place · = n)) : l = l' := by
  induction l generalizing l' with
  | nil =>
    cases l' with
    | nil => rfl
    | cons b l' => simpa using h (place b)
  | cons a l ih =>
    cases l' with
    | nil => simpa using h (place a)
    | cons b l' =>
      have heq : place a = place b :=
        Nat.le_antisymm (place_le_of_filter hl (h (place b)).symm)
          (place_le_of_filter hl' (h (place a)))
      have hcons := h (place a)
      rw [List.filter_cons_of_pos (by simp), List.filter_cons_of_pos (by simp [heq])] at hcons
      obtain ⟨rfl, -⟩ := List.cons.inj hcons
      rw [ih hl.of_cons hl'.of_cons]
      intro n
      have hn := h n
      by_cases hp : place a = n
      · rw [List.filter_cons_of_pos (by simp [hp]), List.filter_cons_of_pos (by simp [hp])] at hn
        exact (List.cons.inj hn).2
      · rwa [List.filter_cons_of_neg (by simp [hp]), List.filter_cons_of_neg (by simp [hp])] at hn

theorem filter_flatMap {g : α → List β} (hg : ∀ a, ∀ b ∈ g a, place' b = place a) (n : Nat) :
    (l.flatMap g).filter (place' · = n) = (l.filter (place · = n)).flatMap g := by
  induction l with
  | nil => rfl
  | cons a l ih =>
    rw [List.flatMap_cons, List.filter_append, ih]
    by_cases hp : place a = n
    · rw [List.filter_cons_of_pos (by simp [hp]), List.flatMap_cons,
        List.filter_eq_self.2 fun b hb => by simp [hg a b hb, hp]]
    · rw [List.filter_cons_of_neg (by simp [hp]),
        List.filter_eq_nil_iff.2 fun b hb => by simp [hg a b hb, hp], List.nil_append]

/-- Sorting goes with taking the elements apart. -/
theorem inPlaces_flatMap {g : α → List β} (hg : ∀ a, ∀ b ∈ g a, place' b = place a)
    (l : List α) : inPlaces place' (l.flatMap g) = (inPlaces place l).flatMap g := by
  refine eq_of_pairwise_of_filter (pairwise_inPlaces place' _) ?_ fun n => ?_
  · rw [List.pairwise_flatMap]
    refine ⟨fun a _ => List.pairwise_of_forall_mem_list fun b hb c hc => ?_,
      (pairwise_inPlaces place l).imp fun {a b} hab c hc d hd => ?_⟩
    · rw [hg a b hb, hg a c hc]
    · rwa [hg a c hc, hg b d hd]
  · rw [filter_inPlaces, filter_flatMap hg, filter_flatMap hg, filter_inPlaces]

theorem inPlaces_filterMap {g : α → Option β} (hg : ∀ a, ∀ b ∈ g a, place' b = place a)
    (l : List α) : inPlaces place' (l.filterMap g) = (inPlaces place l).filterMap g := by
  simp only [List.filterMap_eq_flatMap_toList]
  exact inPlaces_flatMap (fun a b hb => hg a b (Option.mem_toList.1 hb)) l

theorem inPlaces_map {g : α → β} (hg : ∀ a, place' (g a) = place a) (l : List α) :
    inPlaces place' (l.map g) = (inPlaces place l).map g := by
  simp only [List.map_eq_flatMap]
  exact inPlaces_flatMap (fun a b hb => by rw [List.mem_singleton.1 hb, hg]) l

theorem inPlaces_filter (p : α → Bool) (l : List α) :
    inPlaces place (l.filter p) = (inPlaces place l).filter p := by
  rw [← List.filterMap_eq_filter]
  refine inPlaces_filterMap (fun a b hb => ?_) l
  rw [Option.mem_def, Option.guard_eq_some_iff] at hb
  rw [hb.1]

/-- A list that comes before another is sorted before it. -/
theorem inPlaces_append (h : ∀ a ∈ l, ∀ b ∈ l', place a ≤ place b) :
    inPlaces place (l ++ l') = inPlaces place l ++ inPlaces place l' := by
  refine eq_of_pairwise_of_filter (pairwise_inPlaces _ _) ?_ fun n => ?_
  · refine List.pairwise_append.2 ⟨pairwise_inPlaces _ _, pairwise_inPlaces _ _, ?_⟩
    exact fun a ha b hb => h a (mem_inPlaces.1 ha) b (mem_inPlaces.1 hb)
  · rw [filter_inPlaces, List.filter_append, List.filter_append, filter_inPlaces, filter_inPlaces]

/-- One more element goes somewhere between the others. -/
theorem exists_inPlaces_cons (place : α → Nat) (a : α) (l : List α) : ∃ l₁ l₂,
    inPlaces place (a :: l) = l₁ ++ a :: l₂ ∧ inPlaces place l = l₁ ++ l₂ := by
  let le (a b : α) : Bool := place a ≤ place b
  have htrans (a b c : α) : le a b = true → le b c = true → le a c = true := by
    simpa [le] using Nat.le_trans
  have htotal (a b : α) : (le a b || le b a) = true := by simpa [le] using Nat.le_total _ _
  obtain ⟨l₁, l₂, h, h', -⟩ := List.mergeSort_cons htrans htotal a l
  exact ⟨l₁, l₂, h, h'⟩

theorem inPlaces_cons (a : α) (h : ∀ b ∈ l, place a ≤ place b) :
    inPlaces place (a :: l) = a :: inPlaces place l := by
  rw [← List.singleton_append, inPlaces_append (by simpa using h),
    inPlaces_singleton, List.singleton_append]

end Sweep
