import Sweep.Text
/-!
# Durations

A span of time in nanoseconds. It is shown in the largest unit of which it has at least one, with as
many decimals as it takes.
-/

namespace Sweep

/-- A span of time. -/
structure Duration where
  nanoseconds : Nat
  deriving DecidableEq, Repr

namespace Duration

/-- Nanoseconds of a second. -/
def perSecond : Nat := 1000000000

/-- The span of whole seconds. -/
def ofSeconds (n : Nat) : Duration := ⟨n * perSecond⟩

/-- The span of whole milliseconds. -/
def ofMilliseconds (n : Nat) : Duration := ⟨n * 1000000⟩

/-- The whole seconds in the span. -/
def seconds (d : Duration) : Nat := d.nanoseconds / perSecond

/-- The nanoseconds beyond the whole seconds. -/
def subseconds (d : Duration) : Nat := d.nanoseconds % perSecond

/-- The nearest number of whole seconds; a half goes up. -/
def roundedSeconds (d : Duration) : Nat := (d.nanoseconds + perSecond / 2) / perSecond

/-- The decimals of a fraction, filled up in front with zeros to a width and without zeros at the
end. -/
def decimals (width fraction : Nat) : Text :=
  let digits := Text.ofNat fraction
  let full := List.replicate (width - digits.length) '0' ++ digits
  (full.reverse.dropWhile (· == '0')).reverse

/-- A number of nanoseconds in a unit that has `10 ^ width` of them. -/
def inUnit (nanoseconds width : Nat) (unit : Text) : Text :=
  let perUnit := Nat.pow 10 width
  let fraction := nanoseconds % perUnit
  Text.ofNat (nanoseconds / perUnit) ++
    (if fraction = 0 then [] else '.' :: decimals width fraction) ++ unit

/-- The span in the largest unit of which it has at least one. -/
def text (d : Duration) : Text :=
  if Nat.pow 10 9 ≤ d.nanoseconds then inUnit d.nanoseconds 9 ['s']
  else if Nat.pow 10 6 ≤ d.nanoseconds then inUnit d.nanoseconds 6 ['m', 's']
  else if Nat.pow 10 3 ≤ d.nanoseconds then inUnit d.nanoseconds 3 ['µ', 's']
  else inUnit d.nanoseconds 0 ['n', 's']

end Duration

end Sweep
