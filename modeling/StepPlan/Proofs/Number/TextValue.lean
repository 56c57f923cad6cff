import StepPlan.Proofs.Number.Alphabet
import StepPlan.Proofs.Number.Rounding

/-!
# Numbers and their texts

A decimal is read off its text (`textValue`), whichever way it was set down, with a point or with an
exponent. The text of a double is its shortest decimal, and that decimal belongs to no other double,
so the text belongs to none either. A double is told from a whole number by its point or its
exponent.

Main statement: `Number.chars_injective`.
-/

namespace StepPlan

open Double (decimal)

/-! ## Reading a decimal off its text -/

/-- The exponent behind the digits of a decimal. -/
def textExponent : List Char → Int
  | 'e' :: '-' :: ds => -(Nat.ofDigitChars 10 ds 0 : Int)
  | 'e' :: _ :: ds => Nat.ofDigitChars 10 ds 0
  | _ => 0

/-- The value of the text of a decimal. -/
def textValue (cs : List Char) : Rat :=
  let body := cs.takeWhile (· != 'e')
  let places : Nat := (body.dropWhile (· != '.')).length - 1
  decimal (Nat.ofDigitChars 10 (body.filter Char.isDigit) 0)
    (textExponent (cs.dropWhile (· != 'e')) - places)

/-- All characters are digits. -/
def AllDigits (cs : List Char) : Prop :=
  ∀ c ∈ cs, c.isDigit = true

theorem AllDigits.append {cs ds : List Char} (hcs : AllDigits cs) (hds : AllDigits ds) :
    AllDigits (cs ++ ds) := fun c hc =>
  (List.mem_append.mp hc).elim (hcs c) (hds c)

theorem allDigits_toDigits (n : Nat) : AllDigits (Nat.toDigits 10 n) := fun _ hc =>
  Nat.isDigit_of_mem_toDigits (by decide) (by decide) hc

theorem allDigits_zeros (n : Nat) : AllDigits (List.replicate n '0') := fun c hc => by
  rw [List.eq_of_mem_replicate hc]
  decide

theorem AllDigits.take {cs : List Char} (h : AllDigits cs) (n : Nat) : AllDigits (cs.take n) :=
  fun c hc => h c (List.mem_of_mem_take hc)

theorem AllDigits.drop {cs : List Char} (h : AllDigits cs) (n : Nat) : AllDigits (cs.drop n) :=
  fun c hc => h c (List.mem_of_mem_drop hc)

/-- No digit is the point or the letter of an exponent. -/
theorem AllDigits.ne {cs : List Char} (h : AllDigits cs) {d : Char} (hd : d.isDigit = false) :
    ∀ c ∈ cs, (c != d) = true := by
  intro c hc
  refine bne_iff_ne.mpr ?_
  rintro rfl
  exact absurd (hd.symm.trans (h c hc)) (by decide)

/-- Nothing, or an exponent. -/
def IsExponent (cs : List Char) : Prop :=
  cs = [] ∨ ∃ ds, cs = 'e' :: ds

/-- The mark is the first `e`, so the text is split there. -/
theorem IsExponent.split {body tail : List Char} (h : IsExponent tail)
    (hbody : ∀ c ∈ body, (c != 'e') = true) :
    (body ++ tail).takeWhile (· != 'e') = body ∧ (body ++ tail).dropWhile (· != 'e') = tail := by
  rw [List.takeWhile_append_of_pos hbody, List.dropWhile_append_of_pos hbody]
  rcases h with rfl | ⟨ds, rfl⟩ <;> simp

/-- The value of digits without a point. -/
theorem textValue_whole {whole tail : List Char} (hwhole : AllDigits whole)
    (htail : IsExponent tail) :
    textValue (whole ++ tail)
      = decimal (Nat.ofDigitChars 10 whole 0) (textExponent tail) := by
  obtain ⟨hbody, hrest⟩ := htail.split (hwhole.ne rfl)
  have hplaces : whole.dropWhile (· != '.') = [] := by
    rw [← List.append_nil whole, List.dropWhile_append_of_pos (hwhole.ne rfl)]
    rfl
  simp only [textValue, hbody, hrest, hplaces, List.filter_eq_self.mpr hwhole, List.length_nil,
    Nat.zero_sub, Int.natCast_zero, Int.sub_zero]

/-- The value of digits around a point. -/
theorem textValue_pointed {whole fraction tail : List Char} (hwhole : AllDigits whole)
    (hfraction : AllDigits fraction) (htail : IsExponent tail) :
    textValue (whole ++ '.' :: (fraction ++ tail))
      = decimal (Nat.ofDigitChars 10 (whole ++ fraction) 0)
          (textExponent tail - fraction.length) := by
  have hne : ∀ c ∈ whole ++ '.' :: fraction, (c != 'e') = true := by
    intro c hc
    rcases List.mem_append.mp hc with hc | hc
    · exact hwhole.ne rfl c hc
    · rcases List.mem_cons.mp hc with rfl | hc
      · decide
      · exact hfraction.ne rfl c hc
  obtain ⟨hbody, hrest⟩ := htail.split hne
  have hplaces : (whole ++ '.' :: fraction).dropWhile (· != '.') = '.' :: fraction := by
    rw [List.dropWhile_append_of_pos (hwhole.ne rfl)]
    simp
  have hdigits : (whole ++ '.' :: fraction).filter Char.isDigit = whole ++ fraction := by
    rw [List.filter_append, List.filter_cons_of_neg (by decide), List.filter_eq_self.mpr hwhole,
      List.filter_eq_self.mpr hfraction]
  rw [← List.cons_append, ← List.append_assoc]
  simp only [textValue, hbody, hrest, hplaces, hdigits, List.length_cons, Nat.add_sub_cancel]

/-- The value of digits around a point when no exponent stands behind them. -/
theorem textValue_full {whole fraction : List Char} (hwhole : AllDigits whole)
    (hfraction : AllDigits fraction) :
    textValue (whole ++ '.' :: fraction)
      = decimal (Nat.ofDigitChars 10 (whole ++ fraction) 0) (-fraction.length) := by
  have hread := textValue_pointed hwhole hfraction (.inl rfl)
  rwa [List.append_nil, show textExponent [] = 0 from rfl, Int.zero_sub] at hread

/-! ## Decimals that were set down -/

/-- Zeros behind the digits are places of the exponent. -/
theorem decimal_mul_pow (digits n : Nat) (exponent : Int) :
    decimal (digits * 10 ^ n) exponent = decimal digits (exponent + n) := by
  rw [decimal, decimal, Rat.zpow_add (by decide), Rat.zpow_natCast, Rat.natCast_mul,
    Rat.natCast_pow, Rat.mul_assoc, Rat.mul_comm (10 ^ exponent)]
  rfl

/-- An exponent is read back from behind its mark. -/
theorem exists_exponent (lead : Int) : ∃ tail,
    (if 0 ≤ lead then doubleLayout.mark else doubleLayout.negativeMark)
        ++ Nat.toDigits 10 lead.natAbs = 'e' :: tail
      ∧ textExponent ('e' :: tail) = lead := by
  have hvalue : Nat.ofDigitChars 10 (Nat.toDigits 10 lead.natAbs) 0 = lead.natAbs :=
    Nat.ofDigitChars_ten_toDigits
  split
  next =>
    refine ⟨'+' :: Nat.toDigits 10 lead.natAbs, rfl, ?_⟩
    show (Nat.ofDigitChars 10 (Nat.toDigits 10 lead.natAbs) 0 : Int) = lead
    omega
  next =>
    refine ⟨'-' :: Nat.toDigits 10 lead.natAbs, rfl, ?_⟩
    show -(Nat.ofDigitChars 10 (Nat.toDigits 10 lead.natAbs) 0 : Int) = lead
    omega

section

variable {ds : List Char} {digits : Nat} {exponent lead : Int}

/-- A decimal that is written in full. -/
theorem textValue_writtenFull (hds : AllDigits ds) (hvalue : Nat.ofDigitChars 10 ds 0 = digits)
    (hlead : ds.length - 1 + exponent = lead) :
    textValue
        (if 0 ≤ exponent then ds ++ List.replicate exponent.toNat '0' ++ ['.', '0']
        else if 0 ≤ lead then ds.take (lead.toNat + 1) ++ '.' :: ds.drop (lead.toNat + 1)
        else '0' :: '.' :: (List.replicate (-lead - 1).toNat '0' ++ ds))
      = decimal digits exponent := by
  split
  next hwhole =>
    -- All digits stand in front of the point, with zeros behind them.
    have hread := textValue_full (hds.append (allDigits_zeros exponent.toNat)) (allDigits_zeros 1)
    rw [Nat.ofDigitChars_append, Nat.ofDigitChars_append, hvalue, Nat.ofDigitChars_replicate_zero,
      Nat.ofDigitChars_replicate_zero, Nat.pow_one, Nat.mul_comm, Nat.mul_comm _ digits,
      Nat.mul_assoc,
      ← Nat.pow_succ, decimal_mul_pow, List.length_replicate] at hread
    refine hread.trans (congrArg (decimal digits) ?_)
    omega
  next hsmall =>
    split
    next hpoint =>
      -- The point stands among the digits.
      have hread := textValue_full (hds.take (lead.toNat + 1)) (hds.drop (lead.toNat + 1))
      rw [List.take_append_drop, hvalue, List.length_drop] at hread
      refine hread.trans (congrArg (decimal digits) ?_)
      omega
    next hpoint =>
      -- All digits stand behind the point, with zeros in front of them.
      have hread := textValue_full (allDigits_zeros 1)
        ((allDigits_zeros (-lead - 1).toNat).append hds)
      rw [Nat.ofDigitChars_append, Nat.ofDigitChars_append, Nat.ofDigitChars_replicate_zero,
        Nat.ofDigitChars_replicate_zero, Nat.mul_zero, hvalue, List.length_append,
        List.length_replicate] at hread
      refine hread.trans (congrArg (decimal digits) ?_)
      omega

/-- A decimal that is written with the exponent of its first digit. -/
theorem textValue_writtenShort {tail : List Char} (hds : AllDigits ds) (hpos : 0 < ds.length)
    (hvalue : Nat.ofDigitChars 10 ds 0 = digits) (hlead : ds.length - 1 + exponent = lead)
    (hexponent : textExponent ('e' :: tail) = lead) :
    textValue (ds.take 1 ++ (if ds.length ≤ 1 then [] else '.' :: ds.drop 1) ++ 'e' :: tail)
      = decimal digits exponent := by
  split
  next hshort =>
    rw [List.append_nil, List.take_of_length_le hshort, textValue_whole hds (.inr ⟨_, rfl⟩),
      hvalue, hexponent]
    congr 1
    omega
  next =>
    have hread := textValue_pointed (hds.take 1) (hds.drop 1) (.inr ⟨tail, rfl⟩)
    rw [List.take_append_drop, hvalue, hexponent, List.length_drop] at hread
    rw [List.append_assoc, List.cons_append]
    refine hread.trans (congrArg (decimal digits) ?_)
    omega

end

/-- The value of a decimal is read off its text. -/
theorem textValue_write (digits : Nat) (exponent : Int) :
    textValue (doubleLayout.write digits exponent) = decimal digits exponent := by
  have hds := allDigits_toDigits digits
  have hpos : 0 < (Nat.toDigits 10 digits).length := Nat.length_toDigits_pos
  have hvalue : Nat.ofDigitChars 10 (Nat.toDigits 10 digits) 0 = digits :=
    Nat.ofDigitChars_ten_toDigits
  simp only [DecimalLayout.write]
  split
  next => exact textValue_writtenFull hds hvalue rfl
  next =>
    obtain ⟨tail, htail, hexponent⟩ :=
      exists_exponent ((Nat.toDigits 10 digits).length - 1 + exponent)
    rw [List.append_assoc, htail]
    exact textValue_writtenShort hds hpos hvalue rfl hexponent

/-- What is written starts with a digit. -/
theorem exists_digit_write (digits : Nat) (exponent : Int) :
    ∃ c cs, doubleLayout.write digits exponent = c :: cs ∧ c.isDigit = true := by
  have hpos : 0 < (Nat.toDigits 10 digits).length := Nat.length_toDigits_pos
  obtain ⟨c, ds, hds⟩ := List.exists_cons_of_length_pos hpos
  have hc : c.isDigit = true := allDigits_toDigits digits c (by rw [hds]; exact List.mem_cons_self)
  simp only [DecimalLayout.write, hds]
  split
  next =>
    split
    next => exact ⟨c, _, rfl, hc⟩
    next =>
      split
      next => exact ⟨c, _, rfl, hc⟩
      next => exact ⟨'0', _, rfl, by decide⟩
  next => exact ⟨c, _, rfl, hc⟩

/-- A decimal is never set down as a whole number. -/
theorem exists_mark_write (digits : Nat) (exponent : Int) :
    ∃ c ∈ doubleLayout.write digits exponent, c = '.' ∨ c = 'e' := by
  simp only [DecimalLayout.write]
  split
  next =>
    refine ⟨'.', ?_, .inl rfl⟩
    split
    next => simp
    next => split <;> simp
  next =>
    obtain ⟨tail, htail, -⟩ :=
      exists_exponent ((Nat.toDigits 10 digits).length - 1 + exponent)
    refine ⟨'e', ?_, .inr rfl⟩
    rw [List.append_assoc, htail]
    simp

/-! ## Doubles -/

namespace Double

/-- The text of a double without its sign. -/
def unsignedChars (d : Double) : List Char :=
  if d.mantissa = 0 then ['0', '.', '0'] else doubleLayout.write d.shortest.1 d.shortest.2

theorem chars_eq (d : Double) :
    d.chars = (if d.negative then ['-'] else []) ++ d.unsignedChars := by
  by_cases h : d.mantissa = 0
  · simp only [chars, unsignedChars, if_pos h]
  · simp only [chars, unsignedChars, if_neg h]

theorem textValue_unsignedChars_of_zero {d : Double} (h : d.mantissa = 0) :
    textValue d.unsignedChars = 0 := by
  have hread := textValue_full (allDigits_zeros 1) (allDigits_zeros 1)
  rw [unsignedChars, if_pos h]
  refine hread.trans ?_
  simp [decimal, Nat.ofDigitChars]

/-- The text of a double has the value of its shortest digits. -/
theorem textValue_unsignedChars {d : Double} (h : d.mantissa ≠ 0) :
    textValue d.unsignedChars = decimal d.shortest.1 d.shortest.2 := by
  rw [unsignedChars, if_neg h, textValue_write]

/-- Only the text of zero has the value zero. -/
theorem textValue_unsignedChars_ne_zero {d : Double} (h : d.mantissa ≠ 0) :
    textValue d.unsignedChars ≠ 0 := by
  intro hzero
  rw [textValue_unsignedChars h] at hzero
  have hlow := (contains_shortest h).1
  rw [hzero, Rat.zero_mul] at hlow
  exact Rat.not_le.mpr (Rat.natCast_pos.mpr (inside_interval h).1) hlow

/-- Doubles of one sign are told from their texts. -/
theorem eq_of_unsignedChars_eq {a b : Double} (hsign : a.negative = b.negative)
    (h : a.unsignedChars = b.unsignedChars) : a = b := by
  have hvalue := congrArg textValue h
  by_cases ha : a.mantissa = 0 <;> by_cases hb : b.mantissa = 0
  · refine eq_of_steps_eq hsign ?_
    rw [steps, steps, ha, hb, Nat.zero_mul, Nat.zero_mul]
  · rw [textValue_unsignedChars_of_zero ha] at hvalue
    exact absurd hvalue.symm (textValue_unsignedChars_ne_zero hb)
  · rw [textValue_unsignedChars_of_zero hb] at hvalue
    exact absurd hvalue (textValue_unsignedChars_ne_zero ha)
  · rw [textValue_unsignedChars ha, textValue_unsignedChars hb] at hvalue
    exact eq_of_shortest ha hb hsign hvalue

theorem exists_digit_unsignedChars (d : Double) :
    ∃ c cs, d.unsignedChars = c :: cs ∧ c.isDigit = true := by
  unfold unsignedChars
  split
  next => exact ⟨'0', _, rfl, by decide⟩
  next => exact exists_digit_write _ _

/-- A double is told from a whole number by a point or an exponent. -/
theorem exists_mark_chars (d : Double) : ∃ c ∈ d.chars, c = '.' ∨ c = 'e' := by
  have hmark : ∃ c ∈ d.unsignedChars, c = '.' ∨ c = 'e' := by
    unfold unsignedChars
    split
    next => exact ⟨'.', by simp, .inl rfl⟩
    next => exact exists_mark_write _ _
  obtain ⟨c, hc, hmark⟩ := hmark
  exact ⟨c, by rw [chars_eq]; exact List.mem_append_right _ hc, hmark⟩

/-- No two doubles have one text. -/
theorem chars_injective {a b : Double} (h : a.chars = b.chars) : a = b := by
  -- What stands behind the sign starts with a digit, so the sign is told from the first character.
  rw [chars_eq, chars_eq] at h
  obtain ⟨c, cs, hc, hcdigit⟩ := exists_digit_unsignedChars a
  obtain ⟨e, es, he, hedigit⟩ := exists_digit_unsignedChars b
  cases ha : a.negative <;> cases hb : b.negative <;>
    simp only [ha, hb, if_true, if_false, Bool.false_eq_true, List.nil_append,
      List.singleton_append] at h
  · exact eq_of_unsignedChars_eq (ha.trans hb.symm) h
  · rw [hc] at h
    rw [(List.cons.inj h).1] at hcdigit
    exact absurd hcdigit (by decide)
  · rw [he] at h
    rw [← (List.cons.inj h).1] at hedigit
    exact absurd hedigit (by decide)
  · exact eq_of_unsignedChars_eq (ha.trans hb.symm) (List.cons.inj h).2

end Double

/-! ## Numbers -/

namespace Number

theorem isDigit_or_of_mem_intChars {i : Int} {c : Char} (hc : c ∈ intChars i) :
    c.isDigit = true ∨ c = '-' := by
  cases i with
  | ofNat n => exact .inl (allDigits_toDigits n c hc)
  | negSucc n =>
    rcases List.mem_cons.mp hc with rfl | hd
    · exact .inr rfl
    · exact .inl (allDigits_toDigits (n + 1) c hd)

/-- Numbers are told from their digits. -/
theorem toDigits_injective {m n : Nat} (h : Nat.toDigits 10 m = Nat.toDigits 10 n) : m = n := by
  rw [← @Nat.ofDigitChars_ten_toDigits m, h, Nat.ofDigitChars_ten_toDigits]

theorem intChars_ofNat_ne_negSucc (m n : Nat) : intChars (.ofNat m) ≠ intChars (.negSucc n) := by
  intro h
  have hsign : '-' ∈ Nat.toDigits 10 m := by
    rw [show Nat.toDigits 10 m = '-' :: Nat.toDigits 10 (n + 1) from h]
    exact List.mem_cons_self
  exact absurd (allDigits_toDigits m '-' hsign) (by decide)

/-- Whole numbers are told from their texts. -/
theorem intChars_injective {i j : Int} (h : intChars i = intChars j) : i = j := by
  cases i with
  | ofNat m =>
    cases j with
    | ofNat n => exact congrArg Int.ofNat (toDigits_injective h)
    | negSucc n => exact absurd h (intChars_ofNat_ne_negSucc m n)
  | negSucc m =>
    cases j with
    | ofNat n => exact absurd h.symm (intChars_ofNat_ne_negSucc n m)
    | negSucc n =>
      exact congrArg Int.negSucc (Nat.succ.inj (toDigits_injective (List.cons.inj h).2))

/-- The text of a double is not that of a whole number. -/
theorem intChars_ne_chars (i : Int) (d : Double) : intChars i ≠ d.chars := by
  intro h
  obtain ⟨c, hc, hmark⟩ := d.exists_mark_chars
  rw [← h] at hc
  rcases isDigit_or_of_mem_intChars hc with hdigit | rfl
  · rcases hmark with rfl | rfl <;> exact absurd hdigit (by decide)
  · exact absurd hmark (by decide)

/-- No two numbers have one text. -/
theorem chars_injective {m n : Number} (h : m.chars = n.chars) : m = n := by
  cases m with
  | int i =>
    cases n with
    | int j => exact congrArg int (intChars_injective h)
    | double e => exact absurd h (intChars_ne_chars i e)
  | double d =>
    cases n with
    | int j => exact absurd h.symm (intChars_ne_chars j d)
    | double e => exact congrArg double (Double.chars_injective h)

end Number

end StepPlan
