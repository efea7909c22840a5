import Sweep.Wildcard.Seek
/-!
# Matching wildcard patterns

`accepts` decides from left to right whether a pattern stands for a text: between two runs the first
place where a piece fits is as good as any later one, as the run after it takes up the difference.
`acceptsAny` reads the text of a pattern that may go on in several ways; the last statement says
that it decides the same, if the text has room for the pattern.
-/

namespace Sweep.Wildcard

/-- The marks before the first run, and the pieces after each run. -/
def pieces : List Mark → List Mark × List (List Mark)
  | [] => ([], [])
  | .run :: ms => ([], (pieces ms).1 :: (pieces ms).2)
  | m :: ms => (m :: (pieces ms).1, (pieces ms).2)

/-- Whether the piece fits at the very end of the text. -/
def fitsEnd (piece : List Mark) (t : Text) : Bool :=
  piece.length ≤ t.length && strip? piece (t.drop (t.length - piece.length)) == some []

/-- Whether the text ends with the pieces, with any run before each of them. -/
def follows : List (List Mark) → Text → Bool
  | [], t => t.isEmpty
  | [last], t => fitsEnd last t
  | piece :: next :: ps, t =>
    match seek? piece t with
    | some rest => follows (next :: ps) rest
    | none => false

/-- Whether the marks stand for the whole text. -/
def accepts (ms : List Mark) (t : Text) : Bool :=
  match strip? (pieces ms).1 t with
  | some rest => follows (pieces ms).2 rest
  | none => false

/-- Whether the text has a character for each of the pattern that is no run. -/
def hasRoom : Text → Text → Bool
  | [], _ => true
  | c :: p, t =>
    if c = '*' then hasRoom p t
    else
      match t with
      | [] => false
      | _ :: t => hasRoom p t

theorem hasRoom_append {p t : Text} (u : Text) (h : hasRoom p t = true) :
    hasRoom p (u ++ t) = true := by
  induction p generalizing t u with
  | nil => rfl
  | cons c p ih =>
    unfold hasRoom at h ⊢
    split
    · next hc =>
      rw [if_pos hc] at h
      exact ih u h
    · next hc =>
      rw [if_neg hc] at h
      cases t with
      | nil => simp at h
      | cons d t =>
        cases u with
        | nil => exact h
        | cons e u => simpa using ih (u ++ [d]) h

/-- Only texts with room for a pattern are accepted, whatever the pattern goes on with. -/
theorem hasRoom_of_accepts {p t : Text} {ms : List Mark} (h : Accepts (marks p ++ ms) t) :
    hasRoom p t = true := by
  induction p generalizing t with
  | nil => rfl
  | cons c p ih =>
    simp only [marks, List.map_cons, List.cons_append] at h
    unfold Mark.ofChar at h
    unfold hasRoom
    split
    · next hc =>
      rw [if_pos hc] at h
      cases h with
      | run u h => exact hasRoom_append u (ih h)
    · next hc =>
      rw [if_neg hc] at h
      split at h
      · cases h with
        | one _ h => exact ih h
      · cases h with
        | char h => exact ih h

/-- Whether a character of a pattern that is no run takes the character of a text. -/
def takes (c d : Char) : Bool := if c = '?' then d != '/' else c == d

theorem takes_eq {c : Char} (h : c ≠ '*') (d : Char) : takes c d = (Mark.ofChar c).takes d := by
  by_cases hq : c = '?' <;> simp [takes, Mark.ofChar, Mark.takes, h, hq]

/-- Whether the text ends with the piece and those after it, with any run before each of them, where
the last of them goes on in one of some ways. -/
def followsAny (ways : List (List Mark)) (piece : List Mark) : List (List Mark) → Text → Bool
  | [], t => ways.any fun way => follows ((piece ++ (pieces way).1) :: (pieces way).2) t
  | next :: ps, t =>
    match seek? piece t with
    | some rest => followsAny ways next ps rest
    | none => false

/-- Whether the pattern, going on in one of some ways, stands for the whole text. -/
def acceptsAny (ways : List (List Mark)) : Text → Text → Bool
  | [], t => ways.any (accepts · t)
  | c :: p, t =>
    if c = '*' then
      hasRoom p t &&
        let (piece, ps) := pieces (marks p)
        followsAny ways piece ps t
    else
      match t with
      | [] => false
      | d :: t => takes c d && acceptsAny ways p t

/-- A first mark that is no run takes the first character. -/
theorem accepts_cons {m : Mark} (hm : m ≠ .run) (ms : List Mark) (d : Char) (t : Text) :
    accepts (m :: ms) (d :: t) = (m.takes d && accepts ms t) := by
  cases m with
  | run => exact absurd rfl hm
  | char | one => simp only [accepts, pieces, strip?]; split <;> simp_all

theorem followsAny_eq (ways : List (List Mark)) (start ms : List Mark) (t : Text) :
    followsAny ways (start ++ (pieces ms).1) (pieces ms).2 t =
      ways.any fun way =>
        follows ((start ++ (pieces (ms ++ way)).1) :: (pieces (ms ++ way)).2) t := by
  induction ms generalizing start t with
  | nil => simp [pieces, followsAny]
  | cons m ms ih =>
    cases m with
    | run =>
      simp only [pieces, List.cons_append, List.append_nil, followsAny, follows]
      cases seek? start t with
      | none => simp
      | some rest => simpa using ih [] rest
    | char c =>
      have h := ih (start ++ [.char c]) t
      simp only [List.append_assoc, List.singleton_append] at h
      exact h
    | one =>
      have h := ih (start ++ [.one]) t
      simp only [List.append_assoc, List.singleton_append] at h
      exact h

/-- In all ways the text must have room for the pattern. -/
theorem acceptsAny_eq (ways : List (List Mark)) (p t : Text) :
    acceptsAny ways p t = (hasRoom p t && ways.any fun way => accepts (marks p ++ way) t) := by
  induction p generalizing t with
  | nil => simp [acceptsAny, hasRoom, marks]
  | cons c p ih =>
    by_cases h : c = '*'
    · subst h
      have hf : followsAny ways (pieces (marks p)).1 (pieces (marks p)).2 t =
          ways.any fun way => accepts (marks ('*' :: p) ++ way) t :=
        followsAny_eq ways [] (marks p) t
      cases t <;> simp [acceptsAny, hasRoom, hf]
    · have hm : Mark.ofChar c ≠ .run := by
        unfold Mark.ofChar
        rw [if_neg h]
        split <;> simp
      cases t with
      | nil => simp [acceptsAny, hasRoom, h]
      | cons d t =>
        have ha : ∀ way, accepts (marks (c :: p) ++ way) (d :: t) =
            (takes c d && accepts (marks p ++ way) t) := fun way => by
          rw [takes_eq h, ← accepts_cons hm]
          rfl
        simp only [acceptsAny, hasRoom, h, if_false, ih, ha]
        cases takes c d <;> simp

/-- Whether the text holds `*` or `?`. -/
def occursIn (t : Text) : Bool := t.any fun c => c == '*' || c == '?'

end Sweep.Wildcard
