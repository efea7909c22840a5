import Sweep.Toml.Written
/-!
# Written strings are read back

Six notations write a string, depending on what is in it. `read?_string` says that each of them is
read back as the string, whatever follows it, as long as that does not begin with a quote.
-/

namespace Sweep.Toml

/-- No quote begins the text, so nothing in it is taken for a part of a string before it. -/
def NoQuote (t : Text) : Prop := t.head? ≠ some '"' ∧ t.head? ≠ some '\''

namespace Literal

open Written

variable {multiline : Bool} {c : Char} {t rest : Text}

@[simp] theorem prepend_some (c : Char) (s rest : Text) :
    prepend c (some (s, rest)) = some (c :: s, rest) := rfl

/-! ## One character between double quotes -/

/-- A character that is plain, or a line break where there may be several lines, may stand for
itself. -/
theorem stands_for_itself (t : Text) (hp : isPlain c = true ∨ multiline = true ∧ c = '\n') :
    (isPlain c || (multiline && isBreak c t)) = true := by
  rcases hp with h | ⟨rfl, rfl⟩
  · rw [h, Bool.true_or]
  · rfl

theorem quoted_of_isPlain (hb : c ≠ '\\') (hq : c ≠ '"')
    (hp : isPlain c = true ∨ multiline = true ∧ c = '\n') :
    quoted multiline .plain (c :: t) = prepend c (quoted multiline .plain t) := by
  simp [quoted, hb, hq, stands_for_itself t hp]

theorem quoted_letter {d : Char} (h : letter? c = some d) :
    quoted multiline .plain ('\\' :: c :: t) = prepend d (quoted multiline .plain t) := by
  simp [quoted, h]

theorem hexDigit?_digitChar : ∀ d < 16, hexDigit? (Nat.digitChar d).toUpper = some d := by
  decide

theorem quoted_number (c : Char) (hc : c.toNat < 65536) :
    quoted multiline .plain ('\\' :: 'u' :: fourDigits c.toNat ++ t) =
      prepend c (quoted multiline .plain t) := by
  have hn : ((c.toNat / 4096 % 16 * 16 + c.toNat / 256 % 16) * 16 + c.toNat / 16 % 16) * 16 +
      c.toNat % 16 = c.toNat := by omega
  have hv : charOf? c.toNat = some c := by
    rw [charOf?, if_pos (show c.toNat.isValidChar from c.valid), Char.ofNat_toNat]
  have hd (n : Nat) : hexDigit? (Nat.digitChar (n % 16)).toUpper = some (n % 16) :=
    hexDigit?_digitChar _ (Nat.mod_lt n (by decide))
  simp [fourDigits, quoted, letter?, digitsAfter?, hd, hn, hv]

/-- A character in the way in which it is written between double quotes. -/
theorem quoted_escaped (hq : c ≠ '"') :
    quoted multiline .plain (escaped c ++ t) = prepend c (quoted multiline .plain t) := by
  unfold escaped
  split
  · next h => rw [h]; exact quoted_letter rfl
  split
  · next h => rw [h]; exact quoted_letter rfl
  split
  · next h => rw [h]; exact quoted_letter rfl
  split
  · next h => rw [h]; exact quoted_letter rfl
  split
  · next h => rw [h]; exact quoted_letter rfl
  next hb =>
  split
  · next h =>
    refine quoted_number c ?_
    simp only [isControl, Bool.or_eq_true, decide_eq_true_eq, beq_iff_eq] at h
    omega
  · next h => exact quoted_of_isPlain hb hq (.inl (by simp [isPlain, h]))

/-- On one line every quote and every line break is escaped. -/
theorem quoted_onOneLine (t rest : Text) :
    quoted false .plain (onOneLine t ++ '"' :: rest) = some (t, rest) := by
  induction t with
  | nil => simp [onOneLine, quoted]
  | cons c t ih =>
    rw [onOneLine, List.append_assoc]
    split
    · next h =>
      rw [List.cons_append, List.singleton_append, quoted_letter (d := c) (by rw [h]; rfl), ih,
        prepend_some]
    · next hq =>
      split
      · next h =>
        rw [List.cons_append, List.singleton_append, quoted_letter (d := c) (by rw [h]; rfl), ih,
          prepend_some]
      · rw [quoted_escaped hq, ih, prepend_some]

/-! ## Runs of quotes -/

/-- Three quotes end the string, and up to two before them belong to it. -/
theorem closing?_end {quote : Char} {run : Nat} (hr : run ≤ 2) (h : rest.head? ≠ some quote) :
    closing? quote (List.replicate run quote ++ quote :: quote :: rest) =
      some (List.replicate run quote, rest) := by
  have hrest : rest.takeWhile (· == quote) = [] := by
    cases rest with
    | nil => rfl
    | cons d rest => simp_all
  obtain rfl | rfl | rfl : run = 0 ∨ run = 1 ∨ run = 2 := by omega
  all_goals simp [closing?, hrest, List.replicate]

/-- Up to two quotes before another character end nothing. -/
theorem closing?_eq_none {quote d : Char} {run : Nat} (hr : run ≤ 1) (hd : d ≠ quote) :
    closing? quote (List.replicate run quote ++ d :: t) = none := by
  obtain rfl | rfl : run = 0 ∨ run = 1 := by omega
  · cases t <;> simp [closing?, hd]
  · simp [closing?, List.replicate, hd]

/-- What a reader of strings of several lines does with a quote. -/
structure Counts (quote : Char) (read : Text → Option (Text × Text)) : Prop where
  go : ∀ t, closing? quote t = none → read (quote :: t) = prepend quote (read t)
  stop : ∀ t r, closing? quote t = some r → read (quote :: t) = some r

theorem counts_quoted : Counts '"' (quoted true .plain) := by
  constructor <;> (intros; simp [quoted, *])

theorem counts_verbatim : Counts '\'' (verbatim true) := by
  constructor <;> (intros; simp [verbatim, *])

section

variable {quote d : Char} {read : Text → Option (Text × Text)} {run : Nat}

theorem Counts.passes (h : Counts quote read) (hr : run ≤ 2) (hd : d ≠ quote) {s : Text}
    (hs : read (d :: t) = some (s, rest)) :
    read (List.replicate run quote ++ d :: t) = some (List.replicate run quote ++ s, rest) := by
  induction run with
  | zero => exact hs
  | succ run ih =>
    rw [List.replicate_succ, List.cons_append, h.go _ (closing?_eq_none (by omega) hd),
      ih (by omega), prepend_some]
    rfl

theorem Counts.ends (h : Counts quote read) (hr : run ≤ 2) (hrest : rest.head? ≠ some quote) :
    read (List.replicate run quote ++ (triple quote ++ rest)) =
      some (List.replicate run quote, rest) := by
  have ht : List.replicate run quote ++ (triple quote ++ rest) =
      quote :: (List.replicate run quote ++ quote :: quote :: rest) := by
    rw [triple, ← List.cons_append, ← List.replicate_succ, List.replicate_succ']
    simp
  rw [ht, h.stop _ _ (closing?_end hr hrest)]

end

/-- What is written for a character begins with one that ends no string and no line. -/
theorem escaped_eq_cons (hq : c ≠ '"') :
    ∃ d u, escaped c = d :: u ∧ d ≠ '"' ∧ isPlain d = true := by
  unfold escaped
  repeat' split
  any_goals exact ⟨'\\', _, rfl, by decide, rfl⟩
  next h => exact ⟨c, [], rfl, hq, by simp [isPlain, h]⟩

/-- Over several lines the third quote of a run is escaped, so no run ends the string early; the
induction keeps the quotes that stand directly before. -/
theorem quoted_onLines (h : rest.head? ≠ some '"') (t : Text) (run : Nat) (hr : run ≤ 2) :
    quoted true .plain (List.replicate run '"' ++ (onLines run t ++ (triple '"' ++ rest))) =
      some (List.replicate run '"' ++ t, rest) := by
  induction t generalizing run with
  | nil => rw [onLines, List.nil_append, counts_quoted.ends hr h, List.append_nil]
  | cons c t ih =>
    have ih0 := ih 0 (by omega)
    rw [List.replicate_zero, List.nil_append, List.nil_append] at ih0
    rw [onLines]
    split
    · next hq =>
      subst hq
      split
      · have := ih (run + 1) (by omega)
        simpa [List.replicate_succ'] using this
      · -- The third quote: the backslash in front of it ends the run.
        rw [List.cons_append, List.cons_append]
        refine counts_quoted.passes hr (by decide) ?_
        rw [quoted_letter (d := '"') rfl, ih0, prepend_some]
    · next hq =>
      rw [List.append_assoc]
      split
      · next hn =>
        subst hn
        rw [List.singleton_append]
        refine counts_quoted.passes hr hq ?_
        rw [quoted_of_isPlain (by decide) hq (.inr ⟨rfl, rfl⟩), ih0, prepend_some]
      · obtain ⟨d, u, he, hd, -⟩ := escaped_eq_cons hq
        have hs : quoted true .plain (escaped c ++ (onLines 0 t ++ (triple '"' ++ rest))) =
            some (c :: t, rest) := by
          rw [quoted_escaped hq, ih0, prepend_some]
        rw [he] at hs ⊢
        exact counts_quoted.passes hr hd hs

/-! ## Between single quotes -/

theorem verbatim_of_isPlain (hq : c ≠ '\'')
    (hp : isPlain c = true ∨ multiline = true ∧ c = '\n') :
    verbatim multiline (c :: t) = prepend c (verbatim multiline t) := by
  simp [verbatim, hq, stands_for_itself t hp]

theorem verbatim_oneLine (t rest : Text) (h : ∀ c ∈ t, isPlain c = true ∧ c ≠ '\'') :
    verbatim false (t ++ '\'' :: rest) = some (t, rest) := by
  induction t with
  | nil => simp [verbatim]
  | cons c t ih =>
    obtain ⟨hp, hq⟩ := h c List.mem_cons_self
    rw [List.cons_append, verbatim_of_isPlain hq (.inl hp),
      ih fun d hd => h d (List.mem_cons_of_mem c hd), prepend_some]

theorem triple_within {quote : Char} {run : Nat} (h : 2 < run) :
    triple quote <:+: List.replicate run quote ++ t := by
  match run, h with
  | n + 3, _ => exact List.IsPrefix.isInfix ⟨List.replicate n quote ++ t, rfl⟩

/-- A text without a run of three quotes reads as it is; the induction keeps the quotes that stand
directly before. -/
theorem verbatim_lines (h : rest.head? ≠ some '\'') (t : Text)
    (hp : ∀ c ∈ t, isPlain c = true ∨ c = '\n') (run : Nat)
    (ht : ¬triple '\'' <:+: List.replicate run '\'' ++ t) :
    verbatim true (List.replicate run '\'' ++ (t ++ (triple '\'' ++ rest))) =
      some (List.replicate run '\'' ++ t, rest) := by
  have hr : run ≤ 2 := Nat.le_of_not_lt fun hlt => ht (triple_within hlt)
  induction t generalizing run with
  | nil => rw [List.nil_append, counts_verbatim.ends hr h, List.append_nil]
  | cons c t ih =>
    have hp' : ∀ d ∈ t, isPlain d = true ∨ d = '\n' := fun d hd =>
      hp d (List.mem_cons_of_mem c hd)
    by_cases hq : c = '\''
    · subst hq
      have hrun : List.replicate run '\'' ++ '\'' :: t = List.replicate (run + 1) '\'' ++ t := by
        rw [List.replicate_succ', List.append_assoc, List.singleton_append]
      rw [hrun] at ht
      have := ih hp' (run + 1) ht (Nat.le_of_not_lt fun hlt => ht (triple_within hlt))
      simpa [List.replicate_succ'] using this
    · have ht' : ¬triple '\'' <:+: List.replicate 0 '\'' ++ t := fun hi =>
        ht (hi.trans ((List.suffix_cons c t).isInfix.trans (List.suffix_append _ _).isInfix))
      rw [List.cons_append]
      refine counts_verbatim.passes hr hq ?_
      have h0 := ih hp' 0 ht' (by omega)
      rw [List.replicate_zero, List.nil_append, List.nil_append] at h0
      rw [verbatim_of_isPlain hq ((hp c List.mem_cons_self).imp id fun h => ⟨rfl, h⟩), h0,
        prepend_some]

/-! ## Every notation -/

/-- What is between the opening quotes of several lines and the text is dropped again. -/
theorem dropBreak_opening {body : Text}
    (h : hasBreak t = false → ∀ c ∈ body.head?, isPlain c = true) :
    dropBreak (opening t ++ body) = body := by
  unfold opening
  split
  · rfl
  · next hb =>
    have hc := h (by simpa using hb)
    rw [List.nil_append, dropBreak]
    match body with
    | [] => rfl
    | d :: body =>
      have hd : isPlain d = true := hc d rfl
      have hn : d ≠ '\n' := by rintro rfl; cases hd
      have hr : d ≠ '\r' := by rintro rfl; cases hd
      rw [show afterBreak? (d :: body) = none by unfold afterBreak?; split <;> simp_all]
      rfl

/-- Two quotes that are not followed by a third one open and end a string of their own. -/
theorem read?_quoted (h : ¬['"', '"'] <+: t) : read? ('"' :: t) = quoted false .plain t := by
  unfold read?
  split <;> simp_all

theorem read?_single (h : ¬['\'', '\''] <+: t) : read? ('\'' :: t) = verbatim false t := by
  unfold read?
  split <;> simp_all

theorem not_twoQuotes_onOneLine (t : Text) (h : NoQuote rest) :
    ¬['"', '"'] <+: onOneLine t ++ '"' :: rest := by
  rintro ⟨u, hu⟩
  cases t with
  | nil =>
    obtain rfl : '"' :: u = rest := by simpa [onOneLine] using hu
    exact h.1 rfl
  | cons c t =>
    rw [onOneLine] at hu
    split at hu
    · simp at hu
    · next hq =>
      split at hu
      · simp at hu
      · obtain ⟨d, v, he, hd, -⟩ := escaped_eq_cons hq
        rw [he] at hu
        exact hd (by simpa using (List.cons.inj hu).1.symm)

theorem read?_onOneLine (t : Text) (h : NoQuote rest) :
    read? ('"' :: (onOneLine t ++ ['"']) ++ rest) = some (t, rest) := by
  rw [List.cons_append, List.append_assoc, List.singleton_append,
    read?_quoted (not_twoQuotes_onOneLine t h), quoted_onOneLine]

/-- What is written over several lines begins with a line break only if the text has one. -/
theorem head_onLines (t rest : Text) (hb : hasBreak t = false) :
    ∀ d ∈ (onLines 0 t ++ (triple '"' ++ rest)).head?, isPlain d = true := by
  intro d hd
  cases t with
  | nil =>
    obtain rfl : '"' = d := by simpa [onLines, triple] using hd
    rfl
  | cons c t =>
    rw [onLines] at hd
    split at hd
    · next hq =>
      obtain rfl : c = d := by simpa using hd
      rw [hq]
      rfl
    · next hq =>
      split at hd
      · next hn => simp [hasBreak, hn] at hb
      · obtain ⟨e, u, he, -, hc⟩ := escaped_eq_cons hq
        rw [he] at hd
        obtain rfl : e = d := by simpa using hd
        exact hc

theorem read?_onLines (t : Text) (h : NoQuote rest) :
    read? (triple '"' ++ opening t ++ onLines 0 t ++ triple '"' ++ rest) = some (t, rest) := by
  have hd := dropBreak_opening (head_onLines t rest)
  have hq := quoted_onLines h.1 t 0 (by omega)
  rw [List.replicate_zero, List.nil_append, List.nil_append] at hq
  simp only [List.append_assoc]
  exact (congrArg (quoted true .plain) hd).trans hq

theorem isPlain_of_hasControl (h : hasControl t = false) :
    ∀ c ∈ t, isPlain c = true ∨ c = '\n' := by
  intro c hc
  rw [hasControl, List.any_eq_false] at h
  have := h c hc
  by_cases hn : c = '\n'
  · exact .inr hn
  · left
    cases hi : isControl c <;> simp_all [isPlain]

theorem read?_verbatim (h : NoQuote rest) (hb : hasBreak t = false) (hc : hasControl t = false)
    (hq : t.contains '\'' = false) : read? ('\'' :: (t ++ ['\'']) ++ rest) = some (t, rest) := by
  have hp : ∀ c ∈ t, isPlain c = true ∧ c ≠ '\'' := by
    intro c hm
    refine ⟨(isPlain_of_hasControl hc c hm).resolve_right ?_, ?_⟩
    · rintro rfl
      simp [hasBreak, hm] at hb
    · rintro rfl
      simp [hm] at hq
  have htwo : ¬['\'', '\''] <+: t ++ '\'' :: rest := by
    rintro ⟨u, hu⟩
    cases t with
    | nil =>
      obtain rfl : '\'' :: u = rest := by simpa using hu
      exact h.2 rfl
    | cons c t => exact (hp c List.mem_cons_self).2 (List.cons.inj hu).1.symm
  rw [List.cons_append, List.append_assoc, List.singleton_append, read?_single htwo,
    verbatim_oneLine t rest hp]

theorem read?_verbatimLines (h : NoQuote rest) (hc : hasControl t = false)
    (hq : hasTriple '\'' t = false) :
    read? (triple '\'' ++ opening t ++ t ++ triple '\'' ++ rest) = some (t, rest) := by
  have ht : ¬triple '\'' <:+: List.replicate 0 '\'' ++ t := by
    rw [List.replicate_zero, List.nil_append, ← Text.isWithin_iff]
    simpa [hasTriple, triple] using hq
  have hd : dropBreak (opening t ++ (t ++ (triple '\'' ++ rest))) = t ++ (triple '\'' ++ rest) := by
    refine dropBreak_opening fun hb c hm => ?_
    cases t with
    | nil =>
      obtain rfl : '\'' = c := by simpa [triple] using hm
      rfl
    | cons d t =>
      obtain rfl : d = c := by simpa using hm
      refine (isPlain_of_hasControl hc d List.mem_cons_self).resolve_right ?_
      rintro rfl
      simp [hasBreak] at hb
  have hv := verbatim_lines h.2 t (isPlain_of_hasControl hc) 0 ht
  rw [List.replicate_zero, List.nil_append, List.nil_append] at hv
  simp only [List.append_assoc]
  exact (congrArg (verbatim true) hd).trans hv

/-- A written string is read back, whatever follows it, unless that begins with a quote. -/
theorem read?_string (t : Text) (h : NoQuote rest) : read? (string t ++ rest) = some (t, rest) := by
  unfold string
  split
  · exact read?_onOneLine t h
  split
  · next hv =>
    simp only [Bool.and_eq_true, Bool.not_eq_true'] at hv
    exact read?_verbatim h hv.1.1 hv.1.2 hv.2
  split
  · exact read?_onLines t h
  split
  · next hv =>
    simp only [Bool.and_eq_true, Bool.not_eq_true'] at hv
    exact read?_verbatimLines h hv.1 hv.2
  -- With escapes there is no condition left to use.
  split
  · exact read?_onLines t h
  · exact read?_onOneLine t h

end Literal

end Sweep.Toml
