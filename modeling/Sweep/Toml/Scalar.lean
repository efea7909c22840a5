import Sweep.Toml.Value
/-!
# Words of a TOML document

A value without quotes or brackets is a word: a truth value, a whole number, a number with a fraction
or an exponent, or a point of time. Digits may be grouped by single underscores. Whole numbers have
64 bits; a number that is too large for a double is refused.
-/

namespace Sweep.Toml.Scalar

/-! ## Numbers -/

/-- Whether the text is digits, with single underscores between some of them. -/
def isGrouped (isDigit : Char → Bool) : Text → Bool
  | [] => false
  | [c] => isDigit c
  | c :: '_' :: t => isDigit c && isGrouped isDigit t
  | c :: t => isDigit c && isGrouped isDigit t

/-- The digits without underscores. -/
def ungrouped (t : Text) : Text := t.filter (· != '_')

/-- The value of a digit in bases up to sixteen. -/
def digitValue (c : Char) : Nat :=
  if c.isDigit then c.toNat - 48 else if 'a' ≤ c then c.toNat - 87 else c.toNat - 55

/-- The number that some digits write in a base. -/
def ofDigits (base : Nat) (t : Text) : Nat := t.foldl (fun n c => n * base + digitValue c) 0

/-- Whether the text is a whole number in base ten: no zero stands in front of other digits. -/
def isDecimal (t : Text) : Bool :=
  isGrouped Char.isDigit t && (t.head? != some '0' || t.length == 1)

/-- The text without its sign, and whether the sign is a minus. -/
def unsigned : Text → Bool × Text
  | '+' :: t => (false, t)
  | '-' :: t => (true, t)
  | t => (false, t)

/-- A whole number if it has no more than 64 bits. -/
def fitting? (n : Int) : Option Int :=
  if -9223372036854775808 ≤ n ∧ n ≤ 9223372036854775807 then some n else none

/-- Whether the character is a digit in base two, eight or sixteen. -/
def isBinary (c : Char) : Bool := c == '0' || c == '1'

/-- See `isBinary`. -/
def isOctal (c : Char) : Bool := '0' ≤ c && c ≤ '7'

/-- See `isBinary`. -/
def isHex (c : Char) : Bool := c.isDigit || ('a' ≤ c && c ≤ 'f') || ('A' ≤ c && c ≤ 'F')

/-- The digits that count: zeros in front do not. -/
def significant (digits : Text) : Text := digits.dropWhile (· == '0')

/-- The whole number of some digits and a sign, if it has no more than 64 bits. -/
def whole? (base : Nat) (negative : Bool) (digits : Text) : Option Int :=
  let digits := significant digits
  -- More than 64 digits are more than 64 bits in any base.
  if 64 < digits.length then none
  else
    let n : Int := ofDigits base digits
    fitting? (if negative then -n else n)

/-- The number of some digits after a mark that tells their base. -/
def based? (isDigit : Char → Bool) (base : Nat) (t : Text) : Option Int :=
  if isGrouped isDigit t then whole? base false (ungrouped t) else none

/-- The whole number that a word writes. -/
def integer? (word : Text) : Option Int :=
  match word with
  | '0' :: 'x' :: t => based? isHex 16 t
  | '0' :: 'o' :: t => based? isOctal 8 t
  | '0' :: 'b' :: t => based? isBinary 2 t
  | _ =>
    let (negative, digits) := unsigned word
    if isDecimal digits then whole? 10 negative (ungrouped digits) else none

/-- The least number that rounds to infinity as a double. -/
def overflow : Nat := Nat.pow 2 1024 - Nat.pow 2 970

/-- How many digits the least number that rounds to infinity has. -/
def overflowLength : Nat := 309

/-- Whether the number of some digits times ten to the power of `exponent` is too large for a double.
Its length in front of the point decides, or else its digits there. -/
def overflows (digits : Text) (exponent : Int) : Bool :=
  let digits := significant digits
  let length : Int := digits.length + exponent
  let whole := (digits ++ List.replicate overflowLength '0').take overflowLength
  digits ≠ [] && (overflowLength < length || (length == overflowLength &&
    overflow ≤ ofDigits 10 whole))

/-- The number of the digits of an exponent. Once it has more than 16 bits, further digits are not
read: it is out of all proportion. -/
def power (digits : Text) : Nat :=
  digits.foldl (fun n c => if n < 65536 then n * 10 + digitValue c else n) 0

/-- The exponent of a number: what stands after the mark, or zero if there is no mark. -/
def exponent? : Text → Option Int
  | [] => some 0
  | _ :: t =>
    let (negative, digits) := unsigned t
    if isGrouped Char.isDigit digits then
      let n : Int := power (ungrouped digits)
      some (if negative then -n else n)
    else none

/-- Whether the word is a number with a fraction, an exponent or both, or one of the words for an
infinite or undefined number. -/
def isFloat (word : Text) : Bool :=
  let (_, t) := unsigned word
  if t = ['i', 'n', 'f'] ∨ t = ['n', 'a', 'n'] then true
  else
    let isMark (c : Char) : Bool := c == 'e' || c == 'E'
    let mantissa := t.takeWhile (!isMark ·)
    let power := t.dropWhile (!isMark ·)
    let whole := mantissa.takeWhile (· != '.')
    let point := mantissa.dropWhile (· != '.')
    let fraction := point.tail
    let wellFormed := isDecimal whole && (point.isEmpty || isGrouped Char.isDigit fraction)
    match exponent? power with
    | none => false
    | some e =>
      wellFormed && !(point.isEmpty && power.isEmpty) &&
        !overflows (ungrouped whole ++ ungrouped fraction) (e - (ungrouped fraction).length)

/-! ## Points of time -/

/-- A number of exactly so many digits at the start of the text. -/
def fixed? : Nat → Text → Option (Nat × Text)
  | 0, t => some (0, t)
  | n + 1, c :: t =>
    if c.isDigit then (fixed? n t).map fun (m, rest) => (digitValue c * 10 ^ n + m, rest) else none
  | _ + 1, [] => none

/-- Number of days of a month. -/
def daysIn (year month : Nat) : Nat :=
  if month = 2 then if year % 4 = 0 ∧ (year % 100 ≠ 0 ∨ year % 400 = 0) then 29 else 28
  else if month = 4 ∨ month = 6 ∨ month = 9 ∨ month = 11 then 30
  else 31

/-- What follows a date of the calendar at the start of the text. -/
def afterDate? (t : Text) : Option Text := do
  let (year, t) ← fixed? 4 t
  let '-' :: t := t | none
  let (month, t) ← fixed? 2 t
  let '-' :: t := t | none
  let (day, t) ← fixed? 2 t
  if 1 ≤ month ∧ month ≤ 12 ∧ 1 ≤ day ∧ day ≤ daysIn year month then some t else none

/-- What follows a time of day at the start of the text; seconds may be left out. -/
def afterTime? (t : Text) : Option Text := do
  let (hour, t) ← fixed? 2 t
  let ':' :: t := t | none
  let (minute, t) ← fixed? 2 t
  if 23 < hour ∨ 59 < minute then none
  else
    match t with
    | ':' :: t => do
      let (second, t) ← fixed? 2 t
      if 60 < second then none
      else
        match t with
        | '.' :: t =>
          if (t.head?.map Char.isDigit).getD false then some (t.dropWhile Char.isDigit) else none
        | _ => some t
    | _ => some t

/-- Whether the text is empty or the distance of a time zone. -/
def isOffset (t : Text) : Bool :=
  match t with
  | [] => true
  | 'Z' :: t | 'z' :: t => t.isEmpty
  | sign :: t =>
    if sign == '+' || sign == '-' then
      match fixed? 2 t with
      | some (hour, ':' :: t) =>
        match fixed? 2 t with
        | some (minute, rest) => hour ≤ 23 && minute ≤ 59 && rest.isEmpty
        | none => false
      | _ => false
    else false

/-- Whether the word is a date, a time of day, or both with or without a time zone. -/
def isMoment (word : Text) : Bool :=
  match afterDate? word with
  | none => afterTime? word == some []
  | some [] => true
  | some (c :: t) =>
    (c == 'T' || c == 't' || c == ' ') &&
      match afterTime? t with
      | some rest => isOffset rest
      | none => false

/-! ## Words -/

/-- A character that a word may hold. -/
def isWordChar (c : Char) : Bool :=
  c.isAlphanum || c == '+' || c == '-' || c == '_' || c == '.' || c == ':'

/-- The word at the start of the text, and what follows it. A date goes on after one space if a digit
follows. -/
def word (t : Text) : Text × Text :=
  let first := t.takeWhile isWordChar
  let rest := t.dropWhile isWordChar
  match rest with
  | ' ' :: c :: _ =>
    if c.isDigit && afterDate? first == some [] then
      (first ++ ' ' :: rest.tail.takeWhile isWordChar, rest.tail.dropWhile isWordChar)
    else (first, rest)
  | _ => (first, rest)

/-- The value that a word writes. -/
def ofWord? (word : Text) : Option Value :=
  if word = "true".toList then some (.boolean true)
  else if word = "false".toList then some (.boolean false)
  else
    match integer? word with
    | some n => some (.integer n)
    | none =>
      if isFloat word then some (.float word)
      else if isMoment word then some (.moment word)
      else none

/-- Reads the value of a word. -/
def read? (t : Text) : Option (Value × Text) :=
  (ofWord? (word t).1).map fun v => (v, (word t).2)

end Sweep.Toml.Scalar
