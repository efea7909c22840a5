import Sweep.Proofs.Utf8
/-!
# Strict readings and UTF-8 forms

The main statement says that bytes read strictly as a text exactly if they are its UTF-8 form. So a
path that is text has one text, and a text that is written to a file is the text that is read.
-/

namespace Sweep.Utf8

/-! ## The form of a character reads as the character -/

theorem toNat_ofNat {n : Nat} (h : n < 256) : (UInt8.ofNat n).toNat = n := by
  rw [UInt8.toNat_ofNat']
  omega

/-- The first of three bytes asks for a second one that goes on, with two exceptions. -/
theorem awaitedAfter_three {n s : Nat} (hn : 0xE0 ≤ n) (hn' : n < 0xF0) (hs : 0x80 ≤ s)
    (hs' : s ≤ 0xBF) (hlow : n = 0xE0 → 0xA0 ≤ s) (hhigh : n = 0xED → s ≤ 0x9F) :
    ∃ lo hi, awaitedAfter n = [(lo, hi), (0x80, 0xBF)] ∧ lo ≤ s ∧ s ≤ hi := by
  unfold awaitedAfter
  rw [if_neg (by omega), if_neg (by omega), if_pos hn']
  split
  · next h => exact ⟨_, _, rfl, hlow h, hs'⟩
  · split
    · next h => exact ⟨_, _, rfl, hs, hhigh h⟩
    · exact ⟨_, _, rfl, hs, hs'⟩

/-- The first of four bytes does so, too. -/
theorem awaitedAfter_four {n s : Nat} (hn : 0xF0 ≤ n) (hn' : n ≤ 0xF4) (hs : 0x80 ≤ s)
    (hs' : s ≤ 0xBF) (hlow : n = 0xF0 → 0x90 ≤ s) (hhigh : n = 0xF4 → s ≤ 0x8F) :
    ∃ lo hi, awaitedAfter n = [(lo, hi), (0x80, 0xBF), (0x80, 0xBF)] ∧ lo ≤ s ∧ s ≤ hi := by
  unfold awaitedAfter
  rw [if_neg (by omega), if_neg (by omega), if_neg (by omega), if_neg (by omega),
    if_neg (by omega)]
  split
  · next h => exact ⟨_, _, rfl, hlow h, hs'⟩
  · split
    · exact ⟨_, _, rfl, hs, hs'⟩
    · rw [if_pos (by omega)]
      exact ⟨_, _, rfl, hs, hhigh (by omega)⟩

theorem pieces_single {b : UInt8} {bs : List UInt8} (hb : b.toNat < 0x80) :
    pieces (b :: bs) = .char (Char.ofNat b.toNat) :: pieces bs := by
  have h : step .idle b = ([.char (Char.ofNat b.toNat)], .idle) := by
    rw [step_of_lt .idle hb (by simp [Pending.idle])]
    rfl
  rw [pieces, piecesFrom, h]
  rfl

theorem pieces_start {b : UInt8} {bs : List UInt8} {ranges : List (Nat × Nat)}
    (hb : 0x80 ≤ b.toNat) (hr : awaitedAfter b.toNat = ranges) (hn : ranges ≠ []) :
    pieces (b :: bs) = piecesFrom ⟨[b], b.toNat % Nat.pow 2 (6 - ranges.length), ranges⟩ bs := by
  subst hr
  have h : step .idle b = ([], ⟨[b], b.toNat % Nat.pow 2 (6 - (awaitedAfter b.toNat).length),
      awaitedAfter b.toNat⟩) := by
    rw [show step .idle b = start b from rfl, start, if_neg (by omega), if_neg hn]
  rw [pieces, piecesFrom, h]
  rfl

theorem piecesFrom_within {held bs : List UInt8} {code lo hi : Nat} {b : UInt8} {r : Nat × Nat}
    {awaited : List (Nat × Nat)} (hl : lo ≤ b.toNat) (hh : b.toNat ≤ hi) :
    piecesFrom ⟨held, code, (lo, hi) :: r :: awaited⟩ (b :: bs) =
      piecesFrom ⟨held ++ [b], code * 64 + b.toNat % 64, r :: awaited⟩ bs := by
  have h : step ⟨held, code, (lo, hi) :: r :: awaited⟩ b =
      ([], ⟨held ++ [b], code * 64 + b.toNat % 64, r :: awaited⟩) := by
    simp [step, hl, hh]
  rw [piecesFrom, h]
  rfl

theorem piecesFrom_last {held bs : List UInt8} {code lo hi : Nat} {b : UInt8}
    (hl : lo ≤ b.toNat) (hh : b.toNat ≤ hi) :
    piecesFrom ⟨held, code, [(lo, hi)]⟩ (b :: bs) =
      .char (Char.ofNat (code * 64 + b.toNat % 64)) :: pieces bs := by
  have h : step ⟨held, code, [(lo, hi)]⟩ b =
      ([.char (Char.ofNat (code * 64 + b.toNat % 64))], .idle) := by
    simp [step, hl, hh]
  rw [piecesFrom, h]
  rfl

theorem pieces_two {n : Nat} (hn : 0x7F < n) (hn' : n ≤ 0x7FF) (bs : List UInt8) :
    pieces (UInt8.ofNat (n / 64 % 32 + 192) :: UInt8.ofNat (n % 64 + 128) :: bs) =
      .char (Char.ofNat n) :: pieces bs := by
  have h1 : (UInt8.ofNat (n / 64 % 32 + 192)).toNat = n / 64 % 32 + 192 := toNat_ofNat (by omega)
  have h2 : (UInt8.ofNat (n % 64 + 128)).toNat = n % 64 + 128 := toNat_ofNat (by omega)
  have ha : awaitedAfter (UInt8.ofNat (n / 64 % 32 + 192)).toNat = [(0x80, 0xBF)] := by
    unfold awaitedAfter
    rw [h1, if_neg (by omega), if_pos (by omega)]
  have hc : (n / 64 % 32 + 192) % 2 ^ (6 - 1) * 64 + (n % 64 + 128) % 64 = n := by omega
  rw [pieces_start (by omega) ha (by simp), piecesFrom_last (by omega) (by omega), h1, h2]
  simp only [List.length_singleton, Nat.pow_eq]
  rw [hc]

theorem pieces_three {n : Nat} (hn : 0x7FF < n) (hn' : n ≤ 0xFFFF) (hv : n.isValidChar)
    (bs : List UInt8) :
    pieces (UInt8.ofNat (n / 4096 % 16 + 224) :: UInt8.ofNat (n / 64 % 64 + 128) ::
      UInt8.ofNat (n % 64 + 128) :: bs) = .char (Char.ofNat n) :: pieces bs := by
  have h1 : (UInt8.ofNat (n / 4096 % 16 + 224)).toNat = n / 4096 % 16 + 224 :=
    toNat_ofNat (by omega)
  have h2 : (UInt8.ofNat (n / 64 % 64 + 128)).toNat = n / 64 % 64 + 128 := toNat_ofNat (by omega)
  have h3 : (UInt8.ofNat (n % 64 + 128)).toNat = n % 64 + 128 := toNat_ofNat (by omega)
  unfold Nat.isValidChar at hv
  obtain ⟨lo, hi, ha, hl, hh⟩ := awaitedAfter_three (n := n / 4096 % 16 + 224)
    (s := n / 64 % 64 + 128) (by omega) (by omega) (by omega) (by omega) (by omega) (by omega)
  have hc : ((n / 4096 % 16 + 224) % 2 ^ (6 - 2) * 64 + (n / 64 % 64 + 128) % 64) * 64 +
      (n % 64 + 128) % 64 = n := by omega
  rw [← h1] at ha
  rw [pieces_start (by omega) ha (by simp), piecesFrom_within (by omega) (by omega),
    piecesFrom_last (by omega) (by omega), h1, h2, h3]
  simp only [List.length_cons, List.length_nil, Nat.pow_eq]
  rw [hc]

theorem pieces_four {n : Nat} (hn : 0xFFFF < n) (hv : n.isValidChar) (bs : List UInt8) :
    pieces (UInt8.ofNat (n / 262144 % 8 + 240) :: UInt8.ofNat (n / 4096 % 64 + 128) ::
      UInt8.ofNat (n / 64 % 64 + 128) :: UInt8.ofNat (n % 64 + 128) :: bs) =
        .char (Char.ofNat n) :: pieces bs := by
  have h1 : (UInt8.ofNat (n / 262144 % 8 + 240)).toNat = n / 262144 % 8 + 240 :=
    toNat_ofNat (by omega)
  have h2 : (UInt8.ofNat (n / 4096 % 64 + 128)).toNat = n / 4096 % 64 + 128 :=
    toNat_ofNat (by omega)
  have h3 : (UInt8.ofNat (n / 64 % 64 + 128)).toNat = n / 64 % 64 + 128 := toNat_ofNat (by omega)
  have h4 : (UInt8.ofNat (n % 64 + 128)).toNat = n % 64 + 128 := toNat_ofNat (by omega)
  unfold Nat.isValidChar at hv
  obtain ⟨lo, hi, ha, hl, hh⟩ := awaitedAfter_four (n := n / 262144 % 8 + 240)
    (s := n / 4096 % 64 + 128) (by omega) (by omega) (by omega) (by omega) (by omega) (by omega)
  have hc : (((n / 262144 % 8 + 240) % 2 ^ (6 - 3) * 64 + (n / 4096 % 64 + 128) % 64) * 64 +
      (n / 64 % 64 + 128) % 64) * 64 + (n % 64 + 128) % 64 = n := by omega
  rw [← h1] at ha
  rw [pieces_start (by omega) ha (by simp), piecesFrom_within (by omega) (by omega),
    piecesFrom_within (by omega) (by omega), piecesFrom_last (by omega) (by omega), h1, h2, h3, h4]
  simp only [List.length_cons, List.length_nil, Nat.pow_eq]
  rw [hc]

theorem pieces_encode (c : Char) (bs : List UInt8) :
    pieces (String.utf8EncodeChar c ++ bs) = .char c :: pieces bs := by
  have hv : c.val.toNat.isValidChar := c.valid
  have hc : Char.ofNat c.val.toNat = c := Char.ofNat_toNat c
  unfold String.utf8EncodeChar
  dsimp only
  generalize c.val.toNat = n at hv hc ⊢
  subst hc
  split
  · have h1 : (UInt8.ofNat n).toNat = n := toNat_ofNat (by omega)
    rw [List.singleton_append, pieces_single (by omega), h1]
  · split
    · exact pieces_two (by omega) (by omega) bs
    · split
      · exact pieces_three (by omega) (by omega) hv bs
      · exact pieces_four (by omega) hv bs

theorem pieces_bytes (t : Text) : pieces t.bytes = t.map .char := by
  induction t with
  | nil => rfl
  | cons c t ih => rw [Text.bytes, pieces_encode, ih, List.map_cons]

theorem lenient_bytes (t : Text) : lenient t.bytes = t := by
  rw [lenient, pieces_bytes, List.map_map]
  exact List.map_id t

theorem chars?_map_char (t : Text) : Piece.chars? (t.map .char) = some t := by
  induction t with
  | nil => rfl
  | cons c t ih => rw [List.map_cons, Piece.chars?, ih, Option.map_some]

/-! ## What is read has the bytes as its form -/

/-- Whatever bytes of the ranges come, those that are held and they are the form of the character
that they end. -/
def Spells (held : List UInt8) (code : Nat) : List (Nat × Nat) → Prop
  | [] => String.utf8EncodeChar (Char.ofNat code) = held
  | (lo, hi) :: awaited => ∀ b : UInt8, lo ≤ b.toNat → b.toNat ≤ hi →
    Spells (held ++ [b]) (code * 64 + b.toNat % 64) awaited

theorem encode_ofNat {n : Nat} (h : n.isValidChar) : String.utf8EncodeChar (Char.ofNat n) =
    if n ≤ 127 then [UInt8.ofNat n]
    else if n ≤ 2047 then [UInt8.ofNat (n / 64 % 32 + 192), UInt8.ofNat (n % 64 + 128)]
    else if n ≤ 65535 then
      [UInt8.ofNat (n / 4096 % 16 + 224), UInt8.ofNat (n / 64 % 64 + 128),
        UInt8.ofNat (n % 64 + 128)]
    else [UInt8.ofNat (n / 262144 % 8 + 240), UInt8.ofNat (n / 4096 % 64 + 128),
      UInt8.ofNat (n / 64 % 64 + 128), UInt8.ofNat (n % 64 + 128)] := by
  have hv : (Char.ofNat n).val.toNat = n := by
    rw [Char.ofNat, dif_pos h]
    exact UInt32.toNat_ofNatLT
  unfold String.utf8EncodeChar
  rw [hv]

theorem ofNat_eq {n : Nat} {b : UInt8} (h : n = b.toNat) : UInt8.ofNat n = b := by
  rw [h, UInt8.ofNat_toNat]

theorem bounds_of_awaited {n : Nat} (h : awaitedAfter n ≠ []) : 0xC2 ≤ n ∧ n ≤ 0xF4 := by
  constructor
  · refine Nat.le_of_not_lt fun hn => h ?_
    rw [awaitedAfter, if_pos hn]
  · refine Nat.le_of_not_lt fun hn => h ?_
    unfold awaitedAfter
    repeat rw [if_neg (by omega)]

theorem spells_start {b : UInt8} (h : awaitedAfter b.toNat ≠ []) :
    Spells [b] (b.toNat % Nat.pow 2 (6 - (awaitedAfter b.toNat).length))
      (awaitedAfter b.toNat) := by
  have hb := bounds_of_awaited h
  unfold awaitedAfter
  repeat' split
  any_goals omega
  all_goals
    simp only [Spells, List.length_cons, List.length_nil, Nat.pow_eq, List.cons_append,
      List.nil_append]
    intros
  all_goals rw [encode_ofNat (by unfold Nat.isValidChar; omega)]
  all_goals repeat rw [if_neg (by omega)]
  all_goals try rw [if_pos (by omega)]
  all_goals simp only [List.cons.injEq, and_true]
  all_goals repeat' apply And.intro
  all_goals exact ofNat_eq (by omega)

/-- What is held back is the beginning of a form. -/
def Pending.Spelled (p : Pending) : Prop :=
  (p.awaited = [] → p.held = []) ∧ (p.awaited ≠ [] → Spells p.held p.code p.awaited)

theorem spelled_idle : Pending.idle.Spelled := ⟨fun _ => rfl, fun h => absurd rfl h⟩

theorem start_spelled {b : UInt8} {t : Text} (h : Piece.chars? (start b).1 = some t) :
    (start b).2.Spelled ∧ t.bytes ++ (start b).2.held = [b] := by
  unfold start at h ⊢
  dsimp only at h ⊢
  split at h
  · next hb =>
    rw [if_pos hb]
    obtain rfl : [Char.ofNat b.toNat] = t := by simpa [Piece.chars?] using h
    refine ⟨spelled_idle, ?_⟩
    rw [Text.bytes, encode_ofNat (by unfold Nat.isValidChar; omega), if_pos (by omega),
      ofNat_eq rfl]
    rfl
  · next hb =>
    rw [if_neg hb]
    split at h
    · cases h
    · next ha =>
      obtain rfl : [] = t := by simpa [Piece.chars?] using h
      rw [if_neg ha]
      exact ⟨⟨fun hn => absurd hn ha, fun _ => spells_start ha⟩, rfl⟩

/-- The bytes that are shown or held back are those that were held before and the new one. -/
theorem step_spelled {p : Pending} (hp : p.Spelled) {b : UInt8} {t : Text}
    (h : Piece.chars? (step p b).1 = some t) :
    (step p b).2.Spelled ∧ t.bytes ++ (step p b).2.held = p.held ++ [b] := by
  unfold step at h ⊢
  cases ha : p.awaited with
  | nil =>
    simp only [ha] at h ⊢
    rw [hp.1 ha]
    exact start_spelled h
  | cons r awaited =>
    have hs := hp.2 (by simp [ha])
    rw [ha] at hs
    simp only [ha] at h ⊢
    by_cases hr : r.1 ≤ b.toNat ∧ b.toNat ≤ r.2
    · have hs := hs b hr.1 hr.2
      rw [if_pos hr] at h ⊢
      split at h
      · next hn =>
        rw [hn] at hs
        obtain rfl : [_] = t := by simpa [Piece.chars?] using h
        rw [if_pos hn]
        refine ⟨spelled_idle, ?_⟩
        rw [Text.bytes, hs]
        simp [Text.bytes, Pending.idle]
      · next hn =>
        obtain rfl : [] = t := by simpa [Piece.chars?] using h
        rw [if_neg hn]
        exact ⟨⟨fun h => absurd h hn, fun _ => hs⟩, rfl⟩
    · rw [if_neg hr] at h
      cases h

theorem chars?_append {ps qs : List Piece} {t : Text} (h : Piece.chars? (ps ++ qs) = some t) :
    ∃ u v, Piece.chars? ps = some u ∧ Piece.chars? qs = some v ∧ t = u ++ v := by
  induction ps generalizing t with
  | nil => exact ⟨[], t, rfl, h, rfl⟩
  | cons q ps ih =>
    cases q with
    | broken bs => cases h
    | char c =>
      rw [List.cons_append, Piece.chars?, Option.map_eq_some_iff] at h
      obtain ⟨w, hw, rfl⟩ := h
      obtain ⟨u, v, hu, hv, rfl⟩ := ih hw
      exact ⟨c :: u, v, by rw [Piece.chars?, hu, Option.map_some], hv, rfl⟩

theorem bytes_of_chars? {p : Pending} (hp : p.Spelled) {bs : List UInt8} {t : Text}
    (h : Piece.chars? (piecesFrom p bs) = some t) : t.bytes = p.held ++ bs := by
  induction bs generalizing p t with
  | nil =>
    rw [piecesFrom, flush] at h
    split at h
    · next ha =>
      obtain rfl : [] = t := by simpa [Piece.chars?] using h
      rw [hp.1 ha]
      rfl
    · cases h
  | cons b bs ih =>
    rw [piecesFrom] at h
    obtain ⟨u, v, hu, hv, rfl⟩ := chars?_append h
    obtain ⟨hs, hheld⟩ := step_spelled hp hu
    rw [Text.bytes_append, ih hs hv, ← List.append_assoc, hheld, List.append_assoc]
    rfl

/-- Bytes read strictly as a text exactly if they are its form. -/
theorem strict?_eq_some_iff {bs : List UInt8} {t : Text} : strict? bs = some t ↔ bs = t.bytes := by
  constructor
  · intro h
    exact (bytes_of_chars? spelled_idle h).symm
  · rintro rfl
    rw [strict?, pieces_bytes, chars?_map_char]

/-- Bytes that read strictly show as a text of as many bytes. -/
theorem byteLength_lenient {bs : List UInt8} {t : Text} (h : strict? bs = some t) :
    (lenient bs).byteLength = bs.length := by
  rw [strict?_eq_some_iff.1 h, lenient_bytes, Text.length_bytes]

end Sweep.Utf8

namespace Sweep.Path

/-- The text of a path is what the path spells. -/
theorem text?_eq_some_iff {p : Path} {t : Text} : p.text? = some t ↔ p = ofText t := by
  rw [text?, Utf8.strict?_eq_some_iff, ofText]
  cases p
  rw [mk.injEq]

end Sweep.Path
