/-!
# Text

A text is a list of characters. Lengths that decide something are counted in bytes of UTF-8, as
paths are bytes; the order of texts is that of their code points.
-/

namespace Sweep

/-- What rules, file contents and reports are made of. -/
abbrev Text := List Char

namespace Text

/-- Length of the UTF-8 form in bytes. -/
def byteLength : Text → Nat
  | [] => 0
  | c :: t => c.utf8Size + byteLength t

/-- The UTF-8 form. -/
def bytes : Text → List UInt8
  | [] => []
  | c :: t => String.utf8EncodeChar c ++ bytes t

@[simp] theorem byteLength_append (s t : Text) :
    byteLength (s ++ t) = byteLength s + byteLength t := by
  induction s with
  | nil => simp [byteLength]
  | cons c s ih => simp [byteLength, ih, Nat.add_assoc]

@[simp] theorem bytes_append (s t : Text) : bytes (s ++ t) = bytes s ++ bytes t := by
  induction s with
  | nil => rfl
  | cons c s ih => simp [bytes, ih]

@[simp] theorem length_bytes (t : Text) : t.bytes.length = t.byteLength := by
  induction t with
  | nil => rfl
  | cons c t ih => simp [bytes, byteLength, ih]

/-- The texts with one text between each two of them. -/
def join (between : Text) : List Text → Text
  | [] => []
  | [t] => t
  | t :: u :: ts => t ++ between ++ join between (u :: ts)

/-- The text filled up with blanks to a width. -/
def padded (width : Nat) (t : Text) : Text :=
  t ++ List.replicate (width - t.length) ' '

end Text

/-- The decimal digits of a number. -/
def Text.ofNat (n : Nat) : Text := Nat.toDigits 10 n

end Sweep
