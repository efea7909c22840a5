import Sweep.Path
/-!
# Lenient readings

A lenient reading may be cut in front of any byte below 0x80, a separator for one, and it is never
shorter in bytes than what is read: a broken piece has at most three bytes, as many as the
replacement character. Lengths of texts can therefore stand in for lengths of paths.
-/

namespace Sweep.Utf8

/-! ## Unfinished characters -/

theorem utf8Size_ofNat {n : Nat} (h : n.isValidChar) :
    (Char.ofNat n).utf8Size =
      if n ≤ 0x7F then 1 else if n ≤ 0x7FF then 2 else if n ≤ 0xFFFF then 3 else 4 := by
  have hv : (Char.ofNat n).val.toNat = n := by
    rw [Char.ofNat, dif_pos h]
    exact UInt32.toNat_ofNatLT
  simp only [Char.utf8Size, UInt32.le_iff_toNat_le, hv]
  rfl

/-- Whatever bytes of the ranges come, the character they end has at least this size. -/
def Completes (size code : Nat) : List (Nat × Nat) → Prop
  | [] => size ≤ (Char.ofNat code).utf8Size
  | (lo, hi) :: awaited => ∀ n, lo ≤ n → n ≤ hi → Completes size (code * 64 + n % 64) awaited

/-- A first byte promises a character as long as the bytes that it asks for. -/
theorem completes_start {n : Nat} (h : awaitedAfter n ≠ []) :
    Completes (1 + (awaitedAfter n).length) (n % Nat.pow 2 (6 - (awaitedAfter n).length))
      (awaitedAfter n) := by
  have size {c k : Nat} (hv : c.isValidChar)
      (hk : k ≤ if c ≤ 0x7F then 1 else if c ≤ 0x7FF then 2 else if c ≤ 0xFFFF then 3 else 4) :
      k ≤ (Char.ofNat c).utf8Size := by rwa [utf8Size_ofNat hv]
  unfold awaitedAfter at h ⊢
  simp only [Nat.isValidChar] at size
  repeat' split
  · simp_all
  all_goals simp only [Completes, List.length_cons, List.length_nil, Nat.pow_eq]; intros
  all_goals apply size <;> (repeat' split) <;> omega

theorem length_awaitedAfter_le (n : Nat) : (awaitedAfter n).length ≤ 3 := by
  unfold awaitedAfter
  repeat' split
  all_goals simp

/-- What holds of the bytes that are held back while a text is read. -/
structure Pending.Sound (p : Pending) : Prop where
  high : ∀ r ∈ p.awaited, 0x80 ≤ r.1
  idle : p.awaited = [] → p.held = []
  short : p.held.length + p.awaited.length ≤ 4
  completes : p.awaited ≠ [] → Completes (p.held.length + p.awaited.length) p.code p.awaited

theorem sound_idle : Pending.idle.Sound := by
  constructor <;> simp [Pending.idle]

theorem sound_start (b : UInt8) : (start b).2.Sound := by
  unfold start
  dsimp only
  split
  · exact sound_idle
  · split
    · exact sound_idle
    · next h =>
      have hl := length_awaitedAfter_le b.toNat
      exact ⟨awaitedAfter_ge _, fun he => absurd he h, by simp; omega, fun _ => completes_start h⟩

theorem sound_step {p : Pending} (h : p.Sound) (b : UInt8) : (step p b).2.Sound := by
  unfold step
  split
  · exact sound_start b
  · next lo hi awaited ha =>
    split
    · next hr =>
      dsimp only
      split
      · exact sound_idle
      · next hn =>
        have hs := h.short
        have hc := h.completes (by simp [ha])
        rw [ha] at hc hs
        refine ⟨fun r hr => h.high r (by simp [ha, hr]), fun he => absurd he hn, ?_, fun _ => ?_⟩
        · simp only [List.length_append, List.length_cons, List.length_nil] at hs ⊢
          omega
        · have := hc b.toNat hr.1 hr.2
          simpa [Nat.add_assoc, Nat.add_comm, Nat.add_left_comm] using this
    · exact sound_start b

/-! ## Cutting a reading -/

theorem piecesFrom_append {p : Pending} (h : p.Sound) (bs : List UInt8) {b : UInt8}
    (hb : b.toNat < 0x80) (cs : List UInt8) :
    piecesFrom p (bs ++ b :: cs) = piecesFrom p bs ++ .char (Char.ofNat b.toNat) :: pieces cs := by
  induction bs generalizing p with
  | nil => simp [piecesFrom, step_of_lt p hb h.high, pieces]
  | cons c bs ih => simp [piecesFrom, ih (sound_step h c)]

/-- A reading goes on anew behind a byte below 0x80. -/
theorem lenient_append (bs : List UInt8) {b : UInt8} (hb : b.toNat < 0x80) (cs : List UInt8) :
    lenient (bs ++ b :: cs) = lenient bs ++ Char.ofNat b.toNat :: lenient cs := by
  simp [lenient, pieces, piecesFrom_append sound_idle bs hb, Piece.shown]

/-! ## Lengths -/

/-- Length in bytes of what some pieces show as. -/
def shownLength (ps : List Piece) : Nat := Text.byteLength (ps.map Piece.shown)

@[simp] theorem shownLength_nil : shownLength [] = 0 := rfl

@[simp] theorem shownLength_cons (q : Piece) (ps : List Piece) :
    shownLength (q :: ps) = q.shown.utf8Size + shownLength ps := rfl

@[simp] theorem shownLength_append (ps qs : List Piece) :
    shownLength (ps ++ qs) = shownLength ps + shownLength qs := by
  simp [shownLength]

theorem utf8Size_replacement : ('\uFFFD' : Char).utf8Size = 3 := by decide

theorem length_le_start (b : UInt8) :
    1 ≤ shownLength (start b).1 + (start b).2.held.length := by
  unfold start
  dsimp only
  split
  · have := Char.utf8Size_pos (Char.ofNat b.toNat)
    simp [Piece.shown]
    omega
  · split
    · simp [Piece.shown, utf8Size_replacement, Pending.idle]
    · simp

/-- A byte that is read goes into what is shown or is held back. -/
theorem length_le_step {p : Pending} (h : p.Sound) (b : UInt8) :
    p.held.length + 1 ≤ shownLength (step p b).1 + (step p b).2.held.length := by
  unfold step
  split
  · next ha => simpa [h.idle ha] using length_le_start b
  · next lo hi awaited ha =>
    have hs := h.short
    have hc := h.completes (by simp [ha])
    rw [ha] at hc hs
    simp only [List.length_cons] at hc hs
    split
    · next hr =>
      dsimp only
      split
      · next hn =>
        have := hc b.toNat hr.1 hr.2
        rw [hn] at this
        simp only [Completes, List.length_nil, Nat.zero_add] at this
        simpa [Piece.shown] using Nat.le_add_right_of_le this
      · simp
    · have := length_le_start b
      simp only [shownLength_cons, Piece.shown, utf8Size_replacement]
      omega

theorem length_le_piecesFrom {p : Pending} (h : p.Sound) (bs : List UInt8) :
    p.held.length + bs.length ≤ shownLength (piecesFrom p bs) := by
  induction bs generalizing p with
  | nil =>
    rw [piecesFrom, flush]
    split
    · next ha => simp [h.idle ha]
    · next ha =>
      have hs := h.short
      have := List.length_pos_iff.2 ha
      simp only [shownLength_cons, Piece.shown, utf8Size_replacement, List.length_nil]
      omega
  | cons b bs ih =>
    have h1 := length_le_step h b
    have h2 := ih (sound_step h b)
    rw [piecesFrom, shownLength_append, List.length_cons]
    omega

/-- A lenient reading has at least as many bytes as what is read. -/
theorem length_le_lenient (bs : List UInt8) : bs.length ≤ (lenient bs).byteLength := by
  have h := length_le_piecesFrom sound_idle bs
  rwa [show Pending.idle.held.length = 0 from rfl, Nat.zero_add] at h

end Sweep.Utf8
