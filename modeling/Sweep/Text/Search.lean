import Sweep.Text
/-!
# Finding a text in another

`after?` finds the first place where a text occurs in another one. A window as long as the part
moves along the other text, with the sum of its characters in a base: only where this sum is that of
the part are the two compared, so that a text is read once, however often the part begins in it. The
main statements say that this finds what comparing at every place finds, and that `isWithin` holds
of the parts of a text.
-/

namespace Sweep.Text

/-- The code of a character as a word. -/
def code (c : Char) : UInt64 := c.val.toUInt64

/-- The base of sums. -/
def base : UInt64 := 1000003

/-- The characters of a text as digits in the base. -/
def sum (t : Text) : UInt64 := t.foldl (fun s c => s * base + code c) 0

/-- The base once for each character: what a character in front of the text counts in the sum. -/
def weight : Text → UInt64
  | [] => 1
  | _ :: t => weight t * base

/-- Moves a window of the part's length along a text. `front` is what follows the window, and `back`
starts with it; `here` is the sum of the window, `goal` and `leaving` are sum and weight of the
part. The result is what follows the first window that is the part. -/
def slide (part : Text) (goal leaving here : UInt64) (back : Text) (front : Text) : Option Text :=
  if here == goal && part.isPrefixOf back then some front
  else
    match front, back with
    | c :: front, b :: back =>
      slide part goal leaving (here * base + code c - code b * leaving) back front
    | _, _ => none

/-- What follows the first place where the part occurs. -/
def after? (part t : Text) : Option Text :=
  slide part (sum part) (weight part) (sum (t.take part.length)) t (t.drop part.length)

/-- Whether the part occurs in the text. -/
def isWithin (part t : Text) : Bool := (after? part t).isSome

/-! ## Sums -/

theorem foldl_code (s : UInt64) (t : Text) :
    t.foldl (fun s c => s * base + code c) s = s * weight t + sum t := by
  induction t generalizing s with
  | nil => simp [weight, sum]
  | cons c t ih =>
    simp only [sum, List.foldl_cons, weight]
    rw [ih, ih (0 * base + code c)]
    grind

theorem sum_cons (c : Char) (t : Text) : sum (c :: t) = code c * weight t + sum t := by
  have h := foldl_code (0 * base + code c) t
  simp only [sum, List.foldl_cons] at h ⊢
  rw [h]
  grind

theorem sum_concat (t : Text) (c : Char) : sum (t ++ [c]) = sum t * base + code c := by
  simp [sum]

/-- The sum of the next window: a character comes in at the end, the first one goes out. -/
theorem sum_next (b : Char) (w : Text) (c : Char) :
    sum (w ++ [c]) = sum (b :: w) * base + code c - code b * (weight w * base) := by
  rw [sum_concat, sum_cons]
  grind

theorem weight_eq_of_length_eq {t u : Text} (h : t.length = u.length) : weight t = weight u := by
  induction t generalizing u with
  | nil => cases u <;> simp_all [weight]
  | cons c t ih =>
    cases u with
    | nil => simp at h
    | cons d u => simp only [weight]; rw [ih (by simpa using h)]

/-! ## Windows -/

/-- What follows the first place where the part occurs, found by comparing at every place. -/
def firstAfter? (part : Text) : Text → Option Text
  | [] => if part = [] then some [] else none
  | c :: t =>
    if part.isPrefixOf (c :: t) then some ((c :: t).drop part.length) else firstAfter? part t

/-- A text begins with a part of the window's length only if the window is the part. -/
theorem isPrefixOf_window {part w : Text} (h : w.length = part.length) (front : Text) :
    part.isPrefixOf (w ++ front) = decide (w = part) := by
  rw [Bool.eq_iff_iff, List.isPrefixOf_iff_prefix, decide_eq_true_iff]
  constructor
  · intro hp
    have hw := List.prefix_of_prefix_length_le hp (List.prefix_append w front) (by omega)
    exact (hw.eq_of_length h.symm).symm
  · rintro rfl
    exact List.prefix_append w front

theorem firstAfter?_eq_none {part t : Text} (h : t.length < part.length) :
    firstAfter? part t = none := by
  induction t with
  | nil => cases part <;> simp_all [firstAfter?]
  | cons c t ih =>
    have hp : ¬ part <+: c :: t := fun hp => by
      have := hp.length_le
      omega
    simp only [List.length_cons] at h
    simp [firstAfter?, hp, ih (by omega)]

theorem slide_eq_firstAfter? {part w : Text} (h : w.length = part.length) (front : Text) :
    slide part (sum part) (weight part) (sum w) (w ++ front) front =
      firstAfter? part (w ++ front) := by
  induction front generalizing w with
  | nil =>
    have hp := isPrefixOf_window h []
    unfold slide
    rw [hp]
    by_cases hw : w = part
    · subst hw
      cases w <;> simp [firstAfter?]
    · cases w with
      | nil => cases part <;> simp_all
      | cons b w =>
        have hn : firstAfter? part w = none := firstAfter?_eq_none (by simp [← h])
        simp only [List.append_nil] at hp ⊢
        simp [hw, firstAfter?, hp, hn]
  | cons c front ih =>
    have hp := isPrefixOf_window h (c :: front)
    unfold slide
    rw [hp]
    by_cases hw : w = part
    · subst hw
      cases w with
      | nil => simp [firstAfter?]
      | cons b w =>
        simp only [List.cons_append] at hp ⊢
        simp [firstAfter?, hp]
    · cases w with
      | nil => cases part <;> simp_all
      | cons b w =>
        have hl : (w ++ [c]).length = part.length := by simpa using h
        have hg : weight part = weight w * base := weight_eq_of_length_eq (u := b :: w) h.symm
        have := ih hl
        rw [sum_next b, ← hg] at this
        simp only [List.cons_append, List.append_assoc, List.nil_append] at hp this ⊢
        simp [hw, firstAfter?, hp, this]

/-- Moving a window finds what comparing at every place finds. -/
theorem after?_eq_firstAfter? (part t : Text) : after? part t = firstAfter? part t := by
  by_cases h : part.length ≤ t.length
  · have hw : (t.take part.length).length = part.length := by
      rw [List.length_take]
      omega
    simpa [after?] using slide_eq_firstAfter? hw (t.drop part.length)
  · have hp : ¬ part <+: t := fun hp => h hp.length_le
    have hd : t.drop part.length = [] := List.drop_eq_nil_of_le (by omega)
    rw [firstAfter?_eq_none (by omega), after?, hd]
    simp [slide, hp]

theorem isSome_firstAfter? {part t : Text} : (firstAfter? part t).isSome ↔ part <:+: t := by
  induction t with
  | nil => by_cases h : part = [] <;> simp [firstAfter?, h]
  | cons c t ih =>
    by_cases h : part <+: c :: t <;> simp [firstAfter?, h, ih, List.infix_cons_iff]

theorem isWithin_iff {part t : Text} : isWithin part t = true ↔ part <:+: t := by
  rw [isWithin, after?_eq_firstAfter?, isSome_firstAfter?]

end Sweep.Text
