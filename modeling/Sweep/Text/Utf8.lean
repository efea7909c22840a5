import Sweep.Text
/-!
# Reading bytes as text

Bytes are read one at a time by a machine that knows which bytes may go on the character it is in.
What it reads are characters and broken pieces, a piece being as many bytes as some character
starts with, or one byte that starts none. A lenient reading puts the replacement character for
each piece; a strict one refuses them. The main lemma says that a byte below 0x80 is always read
as itself, so a reading can be cut in front of it.
-/

namespace Sweep.Utf8

/-- What a stretch of bytes reads as. -/
inductive Piece where
  /-- The bytes of one character. -/
  | char (c : Char)
  /-- Bytes that no character goes on from. -/
  | broken (bytes : List UInt8)
  deriving DecidableEq, Repr

/-- The bytes of an unfinished character, the bits they carry, and the range of each byte to come. -/
structure Pending where
  held : List UInt8
  code : Nat
  awaited : List (Nat × Nat)
  deriving DecidableEq, Repr

/-- Between two characters. -/
def Pending.idle : Pending := ⟨[], 0, []⟩

/-- The ranges of the bytes that go on from a first byte; none if it starts no longer character. -/
def awaitedAfter (n : Nat) : List (Nat × Nat) :=
  if n < 0xC2 then []
  else if n < 0xE0 then [(0x80, 0xBF)]
  else if n = 0xE0 then [(0xA0, 0xBF), (0x80, 0xBF)]
  else if n = 0xED then [(0x80, 0x9F), (0x80, 0xBF)]
  else if n < 0xF0 then [(0x80, 0xBF), (0x80, 0xBF)]
  else if n = 0xF0 then [(0x90, 0xBF), (0x80, 0xBF), (0x80, 0xBF)]
  else if n < 0xF4 then [(0x80, 0xBF), (0x80, 0xBF), (0x80, 0xBF)]
  else if n = 0xF4 then [(0x80, 0x8F), (0x80, 0xBF), (0x80, 0xBF)]
  else []

/-- Reads a byte between two characters. -/
def start (b : UInt8) : List Piece × Pending :=
  let n := b.toNat
  if n < 0x80 then ([.char (Char.ofNat n)], .idle)
  else if awaitedAfter n = [] then ([.broken [b]], .idle)
  else ([], ⟨[b], n % Nat.pow 2 (6 - (awaitedAfter n).length), awaitedAfter n⟩)

/-- Reads a byte: what is complete with it, and what is pending after it. -/
def step (p : Pending) (b : UInt8) : List Piece × Pending :=
  match p.awaited with
  | [] => start b
  | (lo, hi) :: awaited =>
    if lo ≤ b.toNat ∧ b.toNat ≤ hi then
      let code := p.code * 64 + b.toNat % 64
      if awaited = [] then ([.char (Char.ofNat code)], .idle)
      else ([], ⟨p.held ++ [b], code, awaited⟩)
    else (.broken p.held :: (start b).1, (start b).2)

/-- What is left at the end of the bytes. -/
def flush (p : Pending) : List Piece :=
  if p.awaited = [] then [] else [.broken p.held]

/-- Reads on with a character pending. -/
def piecesFrom (p : Pending) : List UInt8 → List Piece
  | [] => flush p
  | b :: bs => (step p b).1 ++ piecesFrom (step p b).2 bs

/-- The characters and broken pieces of the bytes, in order. -/
def pieces (bs : List UInt8) : List Piece := piecesFrom .idle bs

/-- The character that a piece shows as. -/
def Piece.shown : Piece → Char
  | .char c => c
  | .broken _ => '\uFFFD'

/-- The lenient reading: each broken piece shows as the replacement character. -/
def lenient (bs : List UInt8) : Text := (pieces bs).map Piece.shown

/-- The characters of the pieces, if none is broken. -/
def Piece.chars? : List Piece → Option Text
  | [] => some []
  | .char c :: ps => (Piece.chars? ps).map (c :: ·)
  | .broken _ :: _ => none

/-- The strict reading: none if a piece is broken. -/
def strict? (bs : List UInt8) : Option Text := Piece.chars? (pieces bs)

/-- A byte below 0x80 ends what is pending and reads as itself. -/
theorem step_of_lt (p : Pending) {b : UInt8} (h : b.toNat < 0x80)
    (hp : ∀ r ∈ p.awaited, 0x80 ≤ r.1) :
    step p b = (flush p ++ [.char (Char.ofNat b.toNat)], .idle) := by
  unfold step flush
  cases hw : p.awaited with
  | nil => simp [start, h]
  | cons r rs =>
    have : 0x80 ≤ r.1 := hp r (by simp [hw])
    have hn : ¬ (r.1 ≤ b.toNat ∧ b.toNat ≤ r.2) := by omega
    obtain ⟨lo, hi⟩ := r
    simp only at hn
    simp [hn, start, h]

theorem awaitedAfter_ge (n : Nat) : ∀ r ∈ awaitedAfter n, 0x80 ≤ r.1 := by
  unfold awaitedAfter
  intro r hr
  grind

end Sweep.Utf8
