import Sweep.Text.Search
import Sweep.Wildcard.Mark
/-!
# Finding a piece of a pattern in a text

`seek?` finds the first place in a text where a piece without runs fits. A short piece is tried at
every place. For a long one the text is read once. A long piece of characters that stand for
themselves is searched for as a text. For other long pieces the bits of a number say which
beginnings of the piece fit just in front of the place that is reached, and one character takes all
of them a step further at once. The main statement says that all of these find the same.
-/

namespace Sweep.Wildcard

/-- Numbers for single characters. A character that is not listed has the number zero. -/
abbrev Table := List (Char × Nat)

/-- The number of a character. -/
def Table.get (c : Char) : Table → Nat
  | [] => 0
  | (d, n) :: table => if d = c then n else Table.get c table

/-- The table with a bit set in the number of a character. -/
def Table.set (c : Char) (i : Nat) : Table → Table
  | [] => [(c, 1 <<< i)]
  | (d, n) :: table => if d = c then (d, n ||| 1 <<< i) :: table else (d, n) :: Table.set c i table

/-- Which places of a piece take a character: those that take it alone, and those that take any but
the separator. Bits are counted from the front of the piece. -/
structure Places where
  alone : Table
  others : Nat

namespace Places

/-- The places of a piece that starts at bit `i`, with those in front of it. -/
def add (p : Places) (i : Nat) : List Mark → Places
  | [] => p
  | .char c :: ms => add { p with alone := p.alone.set c i } (i + 1) ms
  | .one :: ms => add { p with others := p.others ||| 1 <<< i } (i + 1) ms
  | .run :: ms => add p (i + 1) ms

/-- The places of a piece. -/
def ofPiece (piece : List Mark) : Places := add ⟨[], 0⟩ 0 piece

/-- The bits of the places that take a character. -/
def taking (p : Places) (c : Char) : Nat := p.alone.get c ||| if c = '/' then 0 else p.others

end Places

/-- Reads on with the beginnings of a piece that fit so far: bit `i` of `begun` stands for that of
`i + 1` marks, and bit `last` for the whole piece. -/
def scan (places : Places) (last begun : Nat) : Text → Option Text
  | [] => none
  | c :: t =>
    let begun := (2 * begun + 1) &&& places.taking c
    if begun.testBit last then some t else scan places last begun t

/-- What follows the first place in the text where the piece fits, found by trying at every
place. -/
def firstFit? (piece : List Mark) (t : Text) : Option Text :=
  match strip? piece t with
  | some rest => some rest
  | none =>
    match t with
    | [] => none
    | _ :: t => firstFit? piece t

/-- The text of a piece in which all marks are characters. -/
def plain? : List Mark → Option Text
  | [] => some []
  | .char c :: ms => (plain? ms).map (c :: ·)
  | _ :: _ => none

/-- How many marks make a piece long. -/
def longPiece : Nat := 4

/-- What follows the first place in the text where the piece fits. -/
def seek? (piece : List Mark) (t : Text) : Option Text :=
  if piece.length < longPiece then firstFit? piece t
  else
    match plain? piece with
    | some part => Text.after? part t
    | none => scan (.ofPiece piece) (piece.length - 1) 0 t

/-! ## A piece of characters is found as a text -/

theorem strip?_of_plain? {piece : List Mark} {part : Text} (h : plain? piece = some part)
    (t : Text) :
    strip? piece t = if part.isPrefixOf t then some (t.drop part.length) else none := by
  fun_induction plain? piece generalizing part t with
  | case1 =>
    obtain rfl : [] = part := by simpa using h
    simp [strip?]
  | case2 c ms ih =>
    obtain ⟨part, hp, rfl⟩ := Option.map_eq_some_iff.1 h
    cases t with
    | nil => simp [strip?]
    | cons d t =>
      by_cases hc : c = d <;> simp [strip?, Mark.takes, hc, ih hp]
  | case3 => simp at h

theorem firstFit?_of_plain? {piece : List Mark} {part : Text} (h : plain? piece = some part)
    (t : Text) : firstFit? piece t = Text.firstAfter? part t := by
  induction t with
  | nil =>
    rw [firstFit?, strip?_of_plain? h]
    cases part <;> simp [Text.firstAfter?]
  | cons c t ih =>
    rw [firstFit?, strip?_of_plain? h, Text.firstAfter?, ih]
    by_cases hp : part <+: c :: t <;> simp [hp]

/-! ## Reading with bits finds the same -/

theorem Table.get_set (c d : Char) (i : Nat) (table : Table) :
    (table.set d i).get c = if d = c then table.get c ||| 1 <<< i else table.get c := by
  induction table with
  | nil => by_cases h : d = c <;> simp [set, get, h]
  | cons e table ih =>
    obtain ⟨e, n⟩ := e
    by_cases hd : e = d
    · subst hd
      by_cases h : e = c <;> simp [set, get, h]
    · by_cases he : e = c
      · subst he
        simp [set, get, hd, Ne.symm hd]
      · simp [set, get, hd, he, ih]

/-- Whether the mark at a place takes the character. -/
def takesAt (piece : List Mark) (i : Nat) (c : Char) : Bool := piece[i]?.any (·.takes c)

theorem testBit_bit (i j : Nat) : (1 <<< i).testBit j = decide (j = i) := by
  rw [Nat.one_shiftLeft, Nat.testBit_two_pow]
  simp [eq_comm]

theorem takesAt_cons (m : Mark) (ms : List Mark) (i j : Nat) (c : Char) :
    (decide (i ≤ j) && takesAt (m :: ms) (j - i) c) =
      ((decide (j = i) && m.takes c) || (decide (i + 1 ≤ j) && takesAt ms (j - (i + 1)) c)) := by
  rcases Nat.lt_trichotomy i j with h | h | h
  · obtain ⟨k, rfl⟩ := Nat.exists_eq_add_of_lt h
    have e1 : i + k + 1 - i = k + 1 := by omega
    have e2 : i + k + 1 - (i + 1) = k := by omega
    have e3 : ¬ i + k + 1 = i := by omega
    simp [takesAt, e1, e2, e3]
    omega
  · subst h
    have h3 : ¬ i + 1 ≤ i := by omega
    simp [takesAt, h3]
  · have h1 : ¬ i ≤ j := by omega
    have h2 : ¬ j = i := by omega
    have h3 : ¬ i + 1 ≤ j := by omega
    simp [h1, h2, h3]

theorem Places.testBit_taking_add (p : Places) (i : Nat) (ms : List Mark) (c : Char) (j : Nat) :
    ((p.add i ms).taking c).testBit j =
      ((p.taking c).testBit j || (decide (i ≤ j) && takesAt ms (j - i) c)) := by
  induction ms generalizing p i with
  | nil => simp [add, takesAt]
  | cons m ms ih =>
    rw [takesAt_cons, ← Bool.or_assoc]
    cases m with
    | char d =>
      rw [add, ih]
      congr 1
      by_cases h : d = c
      · subst h
        simp only [taking, Table.get_set, if_true, Nat.testBit_or, testBit_bit, Mark.takes,
          beq_self_eq_true, Bool.and_true, Bool.or_right_comm]
      · simp [taking, Table.get_set, h, Mark.takes]
    | one =>
      rw [add, ih]
      congr 1
      by_cases h : c = '/'
      · simp [taking, h, Mark.takes]
      · have hc : (c != '/') = true := by simpa using h
        simp only [taking, h, if_false, Nat.testBit_or, testBit_bit, Mark.takes, hc, Bool.and_true,
          Bool.or_assoc]
    | run =>
      rw [add, ih]
      simp [Mark.takes]

theorem Places.testBit_taking_ofPiece (piece : List Mark) (c : Char) (j : Nat) :
    ((ofPiece piece).taking c).testBit j = takesAt piece j c := by
  rw [ofPiece, testBit_taking_add]
  simp [taking, Table.get]

/-- What is left of a piece after each of its beginnings of up to `n` marks that are marked in
`begun`, the longest beginning first. -/
def rests (piece : List Mark) (begun : Nat) : Nat → List (List Mark)
  | 0 => []
  | n + 1 =>
    if begun.testBit n then piece.drop (n + 1) :: rests piece begun n else rests piece begun n

/-- One character takes each beginning a step further; the piece itself begins anew. -/
theorem findSome?_rests (piece : List Mark) (begun : Nat) (c : Char) (t : Text) (n : Nat)
    (h : n + 1 ≤ piece.length) :
    ((rests piece begun n).findSome? (strip? · (c :: t))).or (strip? piece (c :: t)) =
      (rests piece ((2 * begun + 1) &&& (Places.ofPiece piece).taking c) (n + 1)).findSome?
        (strip? · t) := by
  induction n with
  | zero =>
    cases piece with
    | nil => simp at h
    | cons m ms =>
      have hb : ((2 * begun + 1) &&& (Places.ofPiece (m :: ms)).taking c).testBit 0 =
          m.takes c := by
        rw [Nat.testBit_and, Places.testBit_taking_ofPiece]
        simp [takesAt]
      simp only [rests, strip?, hb]
      cases m.takes c <;> simp
  | succ n ih =>
    have ih := ih (by omega)
    have hd : piece.drop (n + 1) = piece[n + 1] :: piece.drop (n + 2) := by simp
    have hb : ((2 * begun + 1) &&& (Places.ofPiece piece).taking c).testBit (n + 1) =
        (begun.testBit n && piece[n + 1].takes c) := by
      rw [Nat.testBit_and, Places.testBit_taking_ofPiece, Nat.testBit_succ]
      have : (2 * begun + 1) / 2 = begun := by omega
      rw [this, takesAt, List.getElem?_eq_getElem (by omega), Option.any_some]
    rw [rests, rests, hb]
    cases begun.testBit n with
    | false => simpa using ih
    | true =>
      rw [if_pos rfl, List.findSome?_cons, hd, strip?]
      cases piece[n + 1].takes c with
      | false => simpa using ih
      | true => cases hs : strip? (piece.drop (n + 2)) t <;> simp [hs, ih]

/-- With the beginnings that fit so far, reading on finds the first of them that goes on, or else
the first place from here on where the piece fits. -/
theorem scan_eq (piece : List Mark) (begun n : Nat) (t : Text) (hn : piece.length = n + 1)
    (h : begun.testBit n = false) :
    scan (.ofPiece piece) n begun t =
      ((rests piece begun (n + 1)).findSome? (strip? · t)).or (firstFit? piece t) := by
  induction t generalizing begun with
  | nil =>
    have he : ∀ k ≤ n, (rests piece begun k).findSome? (strip? · []) = none := by
      intro k hk
      induction k with
      | zero => rfl
      | succ k ih =>
        have hd : piece.drop (k + 1) = piece[k + 1] :: piece.drop (k + 2) := by simp
        rw [rests]
        cases begun.testBit k with
        | false => simpa using ih (by omega)
        | true => rw [if_pos rfl, List.findSome?_cons, hd, strip?, ih (by omega)]
    cases piece with
    | nil => simp at hn
    | cons m ms => simp [scan, rests, h, he n (Nat.le_refl n), firstFit?, strip?]
  | cons c t ih =>
    have hf : firstFit? piece (c :: t) = (strip? piece (c :: t)).or (firstFit? piece t) := by
      rw [firstFit?]
      cases strip? piece (c :: t) <;> rfl
    rw [scan, rests, h, hf, ← Option.or_assoc]
    simp only [Bool.false_eq_true, if_false]
    rw [findSome?_rests piece begun c t n (by omega)]
    generalize (2 * begun + 1) &&& (Places.ofPiece piece).taking c = next
    cases hb : next.testBit n with
    | false => simpa [rests, hb] using ih next hb
    | true =>
      have hd : piece.drop (n + 1) = [] := List.drop_eq_nil_of_le (by omega)
      simp [rests, hb, hd, List.findSome?_cons, strip?]

theorem rests_zero (piece : List Mark) (n : Nat) : rests piece 0 n = [] := by
  induction n <;> simp_all [rests]

/-- A piece is found where trying at every place finds it. -/
theorem seek?_eq_firstFit? (piece : List Mark) (t : Text) : seek? piece t = firstFit? piece t := by
  unfold seek?
  split
  · rfl
  · next h =>
    split
    · next part hp => rw [Text.after?_eq_firstAfter?, firstFit?_of_plain? hp]
    · have hl : piece.length = piece.length - 1 + 1 := by
        simp only [longPiece] at h
        omega
      rw [scan_eq piece 0 (piece.length - 1) t hl (by simp), rests_zero]
      simp

end Sweep.Wildcard
