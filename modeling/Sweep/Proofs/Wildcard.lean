import Sweep.Rule
/-!
# What wildcard patterns stand for

`accepts` takes the first place where a piece fits, and `Accepts` lets a run be of any length. Both
agree (`accepts_iff`): a piece that fits later leaves less of the text, and the run behind it can
always take up more. From this come the texts that a wildcard rule matches, whole and on the way
down.
-/

namespace Sweep.Wildcard

/-! ## Pieces without runs -/

/-- A piece of a pattern has no runs. -/
def IsPiece (piece : List Mark) : Prop := .run ∉ piece

theorem isPiece_cons {m : Mark} {piece : List Mark} (h : IsPiece (m :: piece)) :
    m ≠ .run ∧ IsPiece piece := by
  simp only [IsPiece, List.mem_cons, not_or] at h ⊢
  exact ⟨Ne.symm h.1, h.2⟩

theorem accepts_cons_iff {m : Mark} {ms : List Mark} {t : Text} (hm : m ≠ .run) :
    Accepts (m :: ms) t ↔ ∃ c u, t = c :: u ∧ m.takes c = true ∧ Accepts ms u := by
  constructor
  · intro h
    cases h with
    | char h => exact ⟨_, _, rfl, by simp [Mark.takes], h⟩
    | one hc h => exact ⟨_, _, rfl, by simpa [Mark.takes] using hc, h⟩
    | run u h => exact absurd rfl hm
  · rintro ⟨c, u, rfl, hc, h⟩
    cases m with
    | char d =>
      obtain rfl : d = c := by simpa [Mark.takes] using hc
      exact .char h
    | one => exact .one (by simpa [Mark.takes] using hc) h
    | run => exact absurd rfl hm

/-- A piece takes the start of a text, and the marks after it the rest. -/
theorem accepts_piece_append_iff {piece ms : List Mark} {t : Text} (hp : IsPiece piece) :
    Accepts (piece ++ ms) t ↔ ∃ rest, strip? piece t = some rest ∧ Accepts ms rest := by
  induction piece generalizing t with
  | nil => simp [strip?]
  | cons m piece ih =>
    obtain ⟨hm, hp⟩ := isPiece_cons hp
    rw [List.cons_append, accepts_cons_iff hm]
    constructor
    · rintro ⟨c, u, rfl, hc, h⟩
      simpa [strip?, hc] using (ih hp).1 h
    · rintro ⟨rest, hs, h⟩
      cases t with
      | nil => simp [strip?] at hs
      | cons c u =>
        rw [strip?] at hs
        split at hs
        · next hc => exact ⟨c, u, rfl, hc, (ih hp).2 ⟨rest, hs, h⟩⟩
        · cases hs

/-- What follows a piece is what is left when as much as the piece is dropped. -/
theorem eq_drop_of_strip? {piece : List Mark} {t rest : Text} (h : strip? piece t = some rest) :
    rest = t.drop piece.length ∧ piece.length ≤ t.length := by
  induction piece generalizing t with
  | nil =>
    obtain rfl : t = rest := by simpa [strip?] using h
    simp
  | cons m piece ih =>
    cases t with
    | nil => simp [strip?] at h
    | cons c t =>
      rw [strip?] at h
      split at h
      · obtain ⟨he, hl⟩ := ih h
        refine ⟨by simpa using he, ?_⟩
        simp only [List.length_cons]
        omega
      · cases h

/-! ## Runs -/

theorem accepts_run_iff {ms : List Mark} {t : Text} :
    Accepts (.run :: ms) t ↔ ∃ u v, t = u ++ v ∧ Accepts ms v := by
  constructor
  · intro h
    cases h with
    | run u h => exact ⟨u, _, rfl, h⟩
  · rintro ⟨u, v, rfl, h⟩
    exact .run u h

/-- A run can take up any text in front. -/
theorem accepts_run_append {ms : List Mark} {t : Text} (w : Text) (h : Accepts (.run :: ms) t) :
    Accepts (.run :: ms) (w ++ t) := by
  obtain ⟨u, v, rfl, hv⟩ := accepts_run_iff.1 h
  exact accepts_run_iff.2 ⟨w ++ u, v, by simp, hv⟩

theorem firstFit?_sound {piece : List Mark} {t rest : Text} (h : firstFit? piece t = some rest) :
    ∃ u v, t = u ++ v ∧ strip? piece v = some rest := by
  induction t with
  | nil =>
    rw [firstFit?] at h
    split at h
    · next hs => exact ⟨[], [], rfl, hs.trans h⟩
    · cases h
  | cons c t ih =>
    rw [firstFit?] at h
    split at h
    · next hs => exact ⟨[], c :: t, rfl, hs.trans h⟩
    · obtain ⟨u, v, rfl, hv⟩ := ih h
      exact ⟨c :: u, v, rfl, hv⟩

/-- Where a piece fits, the first place leaves at least as much of the text. -/
theorem firstFit?_first {piece : List Mark} {u v rest : Text} (h : strip? piece v = some rest) :
    ∃ w, firstFit? piece (u ++ v) = some (w ++ rest) := by
  induction u with
  | nil =>
    refine ⟨[], ?_⟩
    cases v <;> simp [firstFit?, h]
  | cons c u ih =>
    rw [List.cons_append, firstFit?]
    split
    · next rest' hs =>
      -- The piece is as long at both places, so what is left at the first ends with what is left
      -- at the second.
      obtain ⟨rfl, -⟩ := eq_drop_of_strip? hs
      obtain ⟨rfl, hl⟩ := eq_drop_of_strip? h
      refine ⟨(c :: u ++ v.take piece.length).drop piece.length, ?_⟩
      have he : c :: u ++ v = (c :: u ++ v.take piece.length) ++ v.drop piece.length := by simp
      rw [← List.cons_append, he, List.drop_append_of_le_length (by simp; omega)]
    · exact ih

/-! ## Whole patterns -/

/-- The marks of some pieces, with a run before each of them. -/
def afterRuns (ps : List (List Mark)) : List Mark := ps.flatMap (.run :: ·)

theorem pieces_append (ms : List Mark) : (pieces ms).1 ++ afterRuns (pieces ms).2 = ms := by
  induction ms with
  | nil => rfl
  | cons m ms ih => cases m <;> simp_all [pieces, afterRuns]

theorem isPiece_pieces (ms : List Mark) :
    IsPiece (pieces ms).1 ∧ ∀ p ∈ (pieces ms).2, IsPiece p := by
  induction ms with
  | nil => simp [pieces, IsPiece]
  | cons m ms ih => cases m <;> simp_all [pieces, IsPiece]

theorem fitsEnd_iff {piece : List Mark} (hp : IsPiece piece) {t : Text} :
    fitsEnd piece t = true ↔ Accepts (.run :: piece) t := by
  have hs : ∀ v, strip? piece v = some [] ↔ Accepts piece v := fun v => by
    conv => rhs; rw [← List.append_nil piece, accepts_piece_append_iff hp]
    constructor
    · intro hv
      exact ⟨[], hv, .nil⟩
    · rintro ⟨rest, hv, hr⟩
      cases hr
      exact hv
  rw [fitsEnd, Bool.and_eq_true, decide_eq_true_iff, beq_iff_eq, hs, accepts_run_iff]
  constructor
  · rintro ⟨-, h⟩
    exact ⟨_, _, (List.take_append_drop _ t).symm, h⟩
  · rintro ⟨u, v, rfl, h⟩
    obtain ⟨he, hl⟩ := eq_drop_of_strip? ((hs v).2 h)
    have hv : v.length = piece.length := Nat.le_antisymm (List.drop_eq_nil_iff.1 he.symm) hl
    refine ⟨by simp; omega, ?_⟩
    rw [List.length_append, hv, Nat.add_sub_cancel, List.drop_left]
    exact h

theorem follows_iff {ps : List (List Mark)} (hp : ∀ p ∈ ps, IsPiece p) {t : Text} :
    follows ps t = true ↔ Accepts (afterRuns ps) t := by
  induction ps generalizing t with
  | nil =>
    rw [follows, List.isEmpty_iff]
    constructor
    · rintro rfl
      exact .nil
    · intro h
      cases h
      rfl
  | cons piece ps ih =>
    have hpiece := hp piece (by simp)
    cases ps with
    | nil => simpa [follows, afterRuns] using fitsEnd_iff hpiece
    | cons next ps =>
      have ih := @ih fun p h => hp p (List.mem_cons_of_mem _ h)
      have he : afterRuns (piece :: next :: ps) = .run :: (piece ++ afterRuns (next :: ps)) := rfl
      rw [follows, seek?_eq_firstFit?, he]
      constructor
      · intro h
        split at h
        · next rest hr =>
          obtain ⟨u, v, rfl, hv⟩ := firstFit?_sound hr
          exact .run u ((accepts_piece_append_iff hpiece).2 ⟨rest, hv, ih.1 h⟩)
        · cases h
      · intro h
        obtain ⟨u, v, rfl, ha⟩ := accepts_run_iff.1 h
        obtain ⟨rest, hv, h⟩ := (accepts_piece_append_iff hpiece).1 ha
        obtain ⟨w, hw⟩ := firstFit?_first (u := u) hv
        simp only [hw]
        exact ih.2 (accepts_run_append w h)

/-- Deciding from left to right finds out which texts a pattern stands for. -/
theorem accepts_iff {ms : List Mark} {t : Text} : accepts ms t = true ↔ Accepts ms t := by
  obtain ⟨h1, h2⟩ := isPiece_pieces ms
  conv => rhs; rw [← pieces_append ms, accepts_piece_append_iff h1]
  rw [accepts]
  cases strip? (pieces ms).1 t with
  | none => simp
  | some rest => simpa using follows_iff h2

/-- What a pattern with more marks behind it stands for. -/
theorem accepts_append_iff {ms ns : List Mark} {t : Text} :
    Accepts (ms ++ ns) t ↔ ∃ u v, t = u ++ v ∧ Accepts ms u ∧ Accepts ns v := by
  induction ms generalizing t with
  | nil =>
    constructor
    · intro h
      exact ⟨[], t, rfl, .nil, h⟩
    · rintro ⟨u, v, rfl, hu, hv⟩
      cases hu
      exact hv
  | cons m ms ih =>
    by_cases hm : m = .run
    · subst hm
      rw [List.cons_append, accepts_run_iff]
      constructor
      · rintro ⟨w, t, rfl, h⟩
        obtain ⟨u, v, rfl, hu, hv⟩ := ih.1 h
        exact ⟨w ++ u, v, by simp, .run w hu, hv⟩
      · rintro ⟨_, v, rfl, hr, hv⟩
        obtain ⟨w, u, rfl, hu⟩ := accepts_run_iff.1 hr
        exact ⟨w, u ++ v, by simp, ih.2 ⟨u, v, rfl, hu, hv⟩⟩
    · rw [List.cons_append, accepts_cons_iff hm]
      constructor
      · rintro ⟨c, t, rfl, hc, h⟩
        obtain ⟨u, v, rfl, hu, hv⟩ := ih.1 h
        exact ⟨c :: u, v, rfl, (accepts_cons_iff hm).2 ⟨c, u, rfl, hc, hu⟩, hv⟩
      · rintro ⟨u, v, rfl, hu, hv⟩
        obtain ⟨c, u, rfl, hc, hu⟩ := (accepts_cons_iff hm).1 hu
        exact ⟨c, u ++ v, rfl, hc, ih.2 ⟨u, v, rfl, hu, hv⟩⟩

/-- A pattern that ends with a run takes up whatever comes behind. -/
theorem accepts_append_of_run {ms : List Mark} {t : Text} (u : Text)
    (h : Accepts (ms ++ [.run]) t) : Accepts (ms ++ [.run]) (t ++ u) := by
  obtain ⟨v, w, rfl, hv, -⟩ := accepts_append_iff.1 h
  refine accepts_append_iff.2 ⟨v, w ++ u, by simp, hv, ?_⟩
  exact accepts_run_iff.2 ⟨w ++ u, [], by simp, .nil⟩

/-- A pattern that may go on in several ways is read as it goes on in each of them. -/
theorem acceptsAny_iff {ways : List (List Mark)} {p t : Text} :
    acceptsAny ways p t = true ↔ ∃ way ∈ ways, Accepts (marks p ++ way) t := by
  rw [acceptsAny_eq, Bool.and_eq_true, List.any_eq_true]
  constructor
  · rintro ⟨-, way, hw, h⟩
    exact ⟨way, hw, accepts_iff.1 h⟩
  · rintro ⟨way, hw, h⟩
    exact ⟨hasRoom_of_accepts h, way, hw, accepts_iff.2 h⟩

end Sweep.Wildcard

namespace Sweep.Glob

open Wildcard

theorem matchesWhole_iff {g : Glob} {path : Text} :
    g.matchesWhole path = true ↔ Accepts g.marks path := by
  simp [matchesWhole, acceptsAny_iff, marks]

/-- A pattern from the root also matches whatever lies below a match. -/
theorem matchesTree_iff {g : Glob} {path : Text} :
    g.matchesTree path = true ↔ Accepts g.marks path ∨
      g.isAnchored = true ∧ Accepts (g.marks ++ [.char '/', .run]) path := by
  rw [matchesTree, acceptsAny_iff]
  cases g.isAnchored <;> simp [marks]

end Sweep.Glob
