import Sweep.Proofs.Strings
import Sweep.Toml.Statement
/-!
# Written values are read back

Lists of strings in each of their three layouts, truth values and whole numbers are read back, and
what follows them is left.
-/

namespace Sweep.Toml

open Written

variable {t rest : Text} {c : Char}

theorem noQuote_comma (t : Text) : NoQuote (',' :: t) := by simp [NoQuote]

theorem noQuote_bracket (t : Text) : NoQuote (']' :: t) := by simp [NoQuote]

/-! ## Strings -/

theorem string_eq_cons (t : Text) : ∃ q u, string t = q :: u ∧ (q = '"' ∨ q = '\'') := by
  unfold string
  repeat' split
  all_goals first
    | exact ⟨'"', _, rfl, .inl rfl⟩
    | exact ⟨'\'', _, rfl, .inr rfl⟩

theorem valueWithin?_quote (depth : Nat) {q : Char} (hq : q = '"' ∨ q = '\'') (t : Text) :
    valueWithin? depth (q :: t) = (Literal.read? (q :: t)).map fun (s, t) => (.string s, t) := by
  rcases hq with rfl | rfl <;> cases depth <;> simp [valueWithin?]

theorem valueWithin?_string (depth : Nat) (t : Text) (h : NoQuote rest) :
    valueWithin? depth (string t ++ rest) = some (.string t, rest) := by
  obtain ⟨q, u, he, hq⟩ := string_eq_cons t
  have hr := Literal.read?_string t h
  rw [he, List.cons_append] at hr ⊢
  rw [valueWithin?_quote depth hq, hr]
  rfl

/-! ## Lists of strings -/

theorem skipGaps_string (t rest : Text) : skipGaps (string t ++ rest) = string t ++ rest := by
  obtain ⟨q, u, he, hq⟩ := string_eq_cons t
  rw [he]
  rcases hq with rfl | rfl <;> rfl

/-- The text of an item of a list of several lines, up to the comma. -/
theorem skipGaps_indented (t rest : Text) :
    skipGaps ("    ".toList ++ string t ++ rest) = string t ++ rest := by
  rw [List.append_assoc]
  exact skipGaps_string t rest

theorem ne_close_of_quote {q : Char} (hq : q = '"' ∨ q = '\'') : q ≠ ']' := by
  rcases hq with rfl | rfl <;> decide

/-- A string with a comma behind it, and the items that follow. -/
theorem items?_comma (depth : Nat) (b : Char) (bound : Text) {u t rest : Text}
    (h : skipGaps u = string t ++ ',' :: rest) :
    items? ']' (valueWithin? depth) (b :: bound) u =
      (items? ']' (valueWithin? depth) bound rest).map fun (vs, t') => (.string t :: vs, t') := by
  obtain ⟨q, v, he, hq⟩ := string_eq_cons t
  have hv := valueWithin?_string depth t (noQuote_comma rest)
  rw [he, List.cons_append] at h hv
  rw [items?, h]
  simp only [if_neg (ne_close_of_quote hq), hv]
  rfl

/-- The last string of a list. -/
theorem items?_last (depth : Nat) (b : Char) (bound : Text) {u t rest : Text}
    (h : skipGaps u = string t ++ ']' :: rest) :
    items? ']' (valueWithin? depth) (b :: bound) u = some ([.string t], rest) := by
  obtain ⟨q, v, he, hq⟩ := string_eq_cons t
  have hv := valueWithin?_string depth t (noQuote_bracket rest)
  rw [he, List.cons_append] at h hv
  rw [items?, h]
  simp only [if_neg (ne_close_of_quote hq), hv]
  rfl

/-- A line break in front of the items of a list counts for nothing. -/
theorem items?_break {α : Type} (close : Char) (item : Text → Option (α × Text)) (bound t : Text) :
    items? close item bound ('\n' :: t) = items? close item bound t := by
  have h : skipGaps ('\n' :: t) = skipGaps t := rfl
  cases bound with
  | nil => rfl
  | cons b bound => rw [items?, items?, h]

/-- Strings on a line each. -/
def itemLines (ts : List Text) : Text :=
  ts.flatMap fun t => "    ".toList ++ string t ++ [',', '\n']

theorem length_lt_itemLines (ts : List Text) (rest : Text) :
    ts.length < (itemLines ts ++ ']' :: rest).length := by
  induction ts with
  | nil => simp [itemLines]
  | cons t ts ih =>
    simp only [itemLines, List.flatMap_cons, List.length_append, List.length_cons] at ih ⊢
    omega

theorem items?_itemLines (depth : Nat) (ts : List Text) (bound rest : Text)
    (hb : ts.length < bound.length) :
    items? ']' (valueWithin? depth) bound (itemLines ts ++ ']' :: rest) =
      some (ts.map .string, rest) := by
  induction ts generalizing bound with
  | nil =>
    match bound, hb with
    | b :: bound, _ => rfl
  | cons t ts ih =>
    match bound, hb with
    | b :: bound, hb =>
      have hg := skipGaps_indented t (',' :: '\n' :: (itemLines ts ++ ']' :: rest))
      rw [itemLines, List.flatMap_cons, List.append_assoc, List.append_assoc]
      refine (items?_comma depth b bound hg).trans ?_
      rw [items?_break, ih bound (by simpa using hb)]
      rfl

theorem valueWithin?_bracket (depth : Nat) (t : Text) :
    valueWithin? (depth + 1) ('[' :: t) =
      (items? ']' (valueWithin? depth) t t).map fun (vs, t) => (.array vs, t) := by
  simp [valueWithin?]

/-- A written list of strings is read back in each of its layouts. -/
theorem valueWithin?_strings (depth : Nat) (ts : List Text) (rest : Text) :
    valueWithin? (depth + 1) (strings ts ++ rest) = some (.array (ts.map .string), rest) := by
  match ts with
  | [] => rfl
  | [t] =>
    obtain ⟨q, u, he, -⟩ := string_eq_cons t
    have hs := skipGaps_string t (']' :: rest)
    have hl : items? ']' (valueWithin? depth) (string t ++ ']' :: rest) (string t ++ ']' :: rest) =
        some ([.string t], rest) := by
      have := items?_last depth q (u ++ ']' :: rest) hs
      rwa [← List.cons_append, ← he] at this
    rw [strings, List.cons_append, List.append_assoc, valueWithin?_bracket]
    exact congrArg (Option.map fun (vs, t) => (Value.array vs, t)) hl
  | t :: u :: ts =>
    have hl := length_lt_itemLines (t :: u :: ts) rest
    have hi := items?_itemLines depth (t :: u :: ts) ('\n' :: _) rest (Nat.lt_succ_of_lt hl)
    rw [← items?_break] at hi
    have hs : strings (t :: u :: ts) ++ rest =
        '[' :: '\n' :: (itemLines (t :: u :: ts) ++ ']' :: rest) := by
      simp [strings, itemLines]
    rw [hs, valueWithin?_bracket]
    exact congrArg (Option.map fun (vs, t) => (Value.array vs, t)) hi

/-! ## Words -/

/-- Characters that a test tells apart are not the same. -/
theorem ne_of_test {f : Char → Bool} {d : Char} (hc : f c = true) (hd : f d = false) : c ≠ d := by
  rintro rfl
  rw [hc] at hd
  cases hd

theorem takeWhile_append {f : Char → Bool} {w : Text} (hw : ∀ d ∈ w, f d = true)
    (hc : f c = false) (rest : Text) : (w ++ c :: rest).takeWhile f = w := by
  rw [List.takeWhile_append_of_pos hw, List.takeWhile_cons_of_neg (by simp [hc]), List.append_nil]

theorem dropWhile_append {f : Char → Bool} {w : Text} (hw : ∀ d ∈ w, f d = true)
    (hc : f c = false) (rest : Text) : (w ++ c :: rest).dropWhile f = c :: rest := by
  rw [List.dropWhile_append_of_pos hw, List.dropWhile_cons_of_neg (by simp [hc])]

/-- A word ends at the end of its line. -/
theorem Scalar.word_append {w : Text} (hw : ∀ d ∈ w, Scalar.isWordChar d = true) (rest : Text) :
    Scalar.word (w ++ '\n' :: rest) = (w, '\n' :: rest) := by
  have hn : Scalar.isWordChar '\n' = false := by decide
  rw [Scalar.word, takeWhile_append hw hn, dropWhile_append hw hn]
  rfl

theorem valueWithin?_word {w : Text} (hne : w ≠ []) (hw : ∀ d ∈ w, Scalar.isWordChar d = true)
    {v : Value} (hv : Scalar.ofWord? w = some v) (depth : Nat) (rest : Text) :
    valueWithin? depth (w ++ '\n' :: rest) = some (v, '\n' :: rest) := by
  have hr : Scalar.read? (w ++ '\n' :: rest) = some (v, '\n' :: rest) := by
    rw [Scalar.read?, Scalar.word_append hw, hv]
    rfl
  match w, hne with
  | c :: w, _ =>
    have hc := hw c List.mem_cons_self
    have hopen : c ≠ '[' ∧ c ≠ '\x7b' := ⟨ne_of_test hc rfl, ne_of_test hc rfl⟩
    have hquote : c ≠ '"' ∧ c ≠ '\'' := ⟨ne_of_test hc rfl, ne_of_test hc rfl⟩
    rw [List.cons_append] at hr ⊢
    cases depth <;> simp [valueWithin?, hopen, hquote, hr]

/-! ## Whole numbers -/

namespace Scalar

theorem isDigit_of_mem {n : Nat} {d : Char} (h : d ∈ Text.ofNat n) : d.isDigit = true :=
  Nat.isDigit_of_mem_toDigits (by decide) (by decide) h

theorem ofNat_ne_nil (n : Nat) : Text.ofNat n ≠ [] := Nat.toDigits_ne_nil

theorem foldl_digits {t : Text} (ht : ∀ d ∈ t, d.isDigit = true) (n : Nat) :
    t.foldl (fun n c => n * 10 + digitValue c) n = Nat.ofDigitChars 10 t n := by
  induction t generalizing n with
  | nil => rfl
  | cons d t ih =>
    have hd := ht d List.mem_cons_self
    rw [List.foldl_cons, Nat.ofDigitChars_cons, ih fun e he => ht e (List.mem_cons_of_mem d he),
      digitValue, if_pos hd, Nat.mul_comm]
    rfl

theorem ofDigits_ofNat (n : Nat) : ofDigits 10 (Text.ofNat n) = n := by
  rw [ofDigits, foldl_digits fun d hd => isDigit_of_mem hd]
  exact Nat.ofDigitChars_ten_toDigits

/-- The digits of a number that is not zero begin with one that is not zero. -/
theorem head?_ofNat (n : Nat) (h : n ≠ 0) : (Text.ofNat n).head? ≠ some '0' := by
  induction n using Nat.strongRecOn with
  | ind n ih =>
    by_cases hn : n < 10
    · rw [Text.ofNat, Nat.toDigits_of_lt_base hn]
      have : ∀ m < 10, m ≠ 0 → ([Nat.digitChar m].head? ≠ some '0') := by decide
      exact this n hn h
    · rw [Text.ofNat, Nat.toDigits_of_base_le (by decide) (by omega), List.head?_append,
        ← Text.ofNat]
      have := ih (n / 10) (by omega) (by omega)
      cases hd : (Text.ofNat (n / 10)).head? with
      | none => exact absurd (List.head?_eq_none_iff.1 hd) (ofNat_ne_nil _)
      | some d => rwa [hd] at this

theorem isGrouped_of_isDigit {t : Text} (hne : t ≠ []) (ht : ∀ d ∈ t, d.isDigit = true) :
    isGrouped Char.isDigit t = true := by
  induction t with
  | nil => exact absurd rfl hne
  | cons d t ih =>
    have hd := ht d List.mem_cons_self
    match t with
    | [] => exact hd
    | e :: t =>
      have he : e ≠ '_' := by
        rintro rfl
        exact absurd (ht '_' (by simp)) (by decide)
      have := ih (by simp) fun f hf => ht f (List.mem_cons_of_mem d hf)
      rw [isGrouped]
      · rw [hd, this]
        rfl
      · simp
      · simp [he]

theorem ungrouped_of_isDigit {t : Text} (ht : ∀ d ∈ t, d.isDigit = true) : ungrouped t = t := by
  refine List.filter_eq_self.2 fun d hd => ?_
  have := ht d hd
  simp only [bne_iff_ne, ne_eq]
  rintro rfl
  cases this

theorem fitting?_ofNat (n : Nat) :
    fitting? n = if n ≤ 9223372036854775807 then some (n : Int) else none := by
  unfold fitting?
  split <;> split <;> first | rfl | omega

theorem significant_eq_self {t : Text} (h : t.head? ≠ some '0') : significant t = t := by
  cases t with
  | nil => rfl
  | cons d t =>
    have hd : d ≠ '0' := fun he => h (by rw [he]; rfl)
    simp [significant, hd]

theorem unsigned_of_isDigit {t : Text} (ht : ∀ d ∈ t, d.isDigit = true) :
    unsigned t = (false, t) := by
  unfold unsigned
  split
  · exact absurd (ht '+' List.mem_cons_self) (by decide)
  · exact absurd (ht '-' List.mem_cons_self) (by decide)
  · rfl

/-- The digits of a number that fits are read as the number. -/
theorem integer?_ofNat {n : Nat} (h : n ≤ 9223372036854775807) :
    integer? (Text.ofNat n) = some (n : Int) := by
  by_cases h0 : n = 0
  · subst h0
    rfl
  · have hdigit : ∀ d ∈ Text.ofNat n, d.isDigit = true := fun d hd => isDigit_of_mem hd
    have hhead := head?_ofNat n h0
    have hlen : (Text.ofNat n).length ≤ 64 :=
      (Nat.length_toDigits_le_iff (by decide) (by decide)).2 (Nat.lt_of_le_of_lt h (by decide))
    have hdecimal : isDecimal (Text.ofNat n) = true := by
      rw [isDecimal, isGrouped_of_isDigit (ofNat_ne_nil n) hdigit]
      simp [hhead]
    have hwhole : whole? 10 false (Text.ofNat n) = some (n : Int) := by
      rw [whole?, significant_eq_self hhead, if_neg (Nat.not_lt.2 hlen), ofDigits_ofNat]
      exact (fitting?_ofNat n).trans (if_pos h)
    unfold integer?
    split
    · next hw => simp [hw] at hhead
    · next hw => simp [hw] at hhead
    · next hw => simp [hw] at hhead
    · rw [unsigned_of_isDigit hdigit]
      simp only [hdecimal, if_true, ungrouped_of_isDigit hdigit, hwhole]

theorem ofWord?_ofNat {n : Nat} (h : n ≤ 9223372036854775807) :
    ofWord? (Text.ofNat n) = some (.integer n) := by
  have hall : (Text.ofNat n).all Char.isDigit = true :=
    List.all_eq_true.2 fun d hd => isDigit_of_mem hd
  have ht : Text.ofNat n ≠ "true".toList := by
    intro he
    rw [he] at hall
    cases hall
  have hf : Text.ofNat n ≠ "false".toList := by
    intro he
    rw [he] at hall
    cases hall
  rw [ofWord?, if_neg ht, if_neg hf, integer?_ofNat h]

end Scalar

/-! ## Spellings of values -/

/-- A text that is read as a value up to the end of its line. -/
structure Denotes (w : Text) (v : Value) : Prop where
  begins : ∃ c u, w = c :: u ∧ isBlank c = false
  reads : ∀ rest, value? (w ++ '\n' :: rest) = some (v, '\n' :: rest)

theorem denotes_word {w : Text} {v : Value} (hne : w ≠ [])
    (hall : w.all Scalar.isWordChar = true) (hv : Scalar.ofWord? w = some v) :
    Denotes w v := by
  have hw := List.all_eq_true.1 hall
  constructor
  · match w, hne with
    | c :: w, _ =>
      have hc := hw c List.mem_cons_self
      have hs : c ≠ ' ' := ne_of_test hc rfl
      have ht : c ≠ '\t' := ne_of_test hc rfl
      exact ⟨c, w, rfl, by simp [isBlank, hs, ht]⟩
  · intro rest
    exact valueWithin?_word hne hw hv _ rest

theorem denotes_boolean (b : Bool) : Denotes (boolean b) (.boolean b) := by
  cases b with
  | true => exact denotes_word (List.cons_ne_nil _ _) rfl rfl
  | false => exact denotes_word (List.cons_ne_nil _ _) rfl rfl

theorem denotes_ofNat {n : Nat} (h : n ≤ 9223372036854775807) :
    Denotes (Text.ofNat n) (.integer n) := by
  refine denotes_word (Scalar.ofNat_ne_nil n) ?_ (Scalar.ofWord?_ofNat h)
  rw [List.all_eq_true]
  intro d hd
  have := Scalar.isDigit_of_mem hd
  simp [Scalar.isWordChar, Char.isAlphanum, this]

theorem denotes_strings (ts : List Text) :
    Denotes (strings ts) (.array (ts.map .string)) := by
  constructor
  · match ts with
    | [] => exact ⟨'[', _, rfl, rfl⟩
    | [t] => exact ⟨'[', _, rfl, rfl⟩
    | t :: u :: ts => exact ⟨'[', _, rfl, rfl⟩
  · intro rest
    exact valueWithin?_strings 79 ts ('\n' :: rest)

end Sweep.Toml
