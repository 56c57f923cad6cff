import StepPlan.Number.Basic

/-!
# The characters of a number

The text of a number is made of digits and of the four signs `-`, `.`, `e` and `+`
(`Number.isNumeral_of_mem_chars`), so it is never taken for a word or a string.
-/

namespace StepPlan

/-- The character may stand in the text of a number. -/
def isNumeral (c : Char) : Prop :=
  c.isDigit = true ∨ c = '-' ∨ c = '.' ∨ c = 'e' ∨ c = '+'

theorem isNumeral_of_mem_toDigits {n : Nat} {c : Char} (h : c ∈ Nat.toDigits 10 n) :
    isNumeral c :=
  .inl (Nat.isDigit_of_mem_toDigits (by decide) (by decide) h)

/-- A layout whose marks are numerals writes nothing but numerals. -/
theorem DecimalLayout.isNumeral_of_mem_write {l : DecimalLayout} {digits : Nat} {exponent : Int}
    {c : Char} (hmark : ∀ d ∈ l.mark, isNumeral d) (hnegative : ∀ d ∈ l.negativeMark, isNumeral d)
    (hc : c ∈ l.write digits exponent) : isNumeral c := by
  have hpoint : isNumeral '.' := .inr (.inr (.inl rfl))
  have hzero : isNumeral '0' := .inl (by decide)
  have hdigits : ∀ d ∈ Nat.toDigits 10 digits, isNumeral d := fun d hd =>
    isNumeral_of_mem_toDigits hd
  simp only [write] at hc
  split at hc
  next =>
    -- In full: the point stands behind all digits, among them, or before all.
    split at hc
    next =>
      simp only [List.mem_append, List.mem_replicate, List.mem_cons, List.not_mem_nil,
        or_false] at hc
      rcases hc with (hd | ⟨-, rfl⟩) | rfl | rfl
      · exact hdigits c hd
      · exact hzero
      · exact hpoint
      · exact hzero
    next =>
      split at hc
      next =>
        rcases List.mem_append.mp hc with hd | hd
        · exact hdigits c (List.mem_of_mem_take hd)
        · rcases List.mem_cons.mp hd with rfl | hd
          · exact hpoint
          · exact hdigits c (List.mem_of_mem_drop hd)
      next =>
        simp only [List.mem_cons, List.mem_append, List.mem_replicate] at hc
        rcases hc with rfl | rfl | ⟨-, rfl⟩ | hd
        · exact hzero
        · exact hpoint
        · exact hzero
        · exact hdigits c hd
  next =>
    -- With an exponent, behind one of the two marks.
    simp only [List.mem_append] at hc
    rcases hc with ((hd | hd) | hd) | hd
    · exact hdigits c (List.mem_of_mem_take hd)
    · split at hd
      next => exact absurd hd (by simp)
      next =>
        rcases List.mem_cons.mp hd with rfl | hd
        · exact hpoint
        · exact hdigits c (List.mem_of_mem_drop hd)
    · split at hd
      next => exact hmark c hd
      next => exact hnegative c hd
    · exact isNumeral_of_mem_toDigits hd

/-- A double is written in digits, signs, a point and an `e`. -/
theorem Double.isNumeral_of_mem_chars {d : Double} {c : Char} (hc : c ∈ d.chars) :
    isNumeral c := by
  have hsign : ∀ b : Bool, ∀ e ∈ (if b then ['-'] else []), isNumeral e := by
    intro b e he
    cases b with
    | false => exact absurd he (by simp)
    | true => exact .inr (.inl (List.mem_singleton.mp he))
  simp only [Double.chars] at hc
  -- Zero is spelled out, any other double is written from its digits.
  split at hc
  next =>
    rcases List.mem_append.mp hc with hs | hz
    · exact hsign _ c hs
    · simp only [List.mem_cons, List.not_mem_nil, or_false] at hz
      rcases hz with rfl | rfl | rfl
      · exact .inl (by decide)
      · exact .inr (.inr (.inl rfl))
      · exact .inl (by decide)
  next =>
    rcases List.mem_append.mp hc with hs | hw
    · exact hsign _ c hs
    · refine DecimalLayout.isNumeral_of_mem_write ?_ ?_ hw
      · intro e he
        simp only [doubleLayout, List.mem_cons, List.not_mem_nil, or_false] at he
        rcases he with rfl | rfl
        · exact .inr (.inr (.inr (.inl rfl)))
        · exact .inr (.inr (.inr (.inr rfl)))
      · intro e he
        simp only [doubleLayout, List.mem_cons, List.not_mem_nil, or_false] at he
        rcases he with rfl | rfl
        · exact .inr (.inr (.inr (.inl rfl)))
        · exact .inr (.inl rfl)

/-- The text of a number holds nothing but digits and signs. -/
theorem Number.isNumeral_of_mem_chars {n : Number} {c : Char} (hc : c ∈ n.chars) :
    isNumeral c := by
  cases n with
  | int i =>
    cases i with
    | ofNat n => exact isNumeral_of_mem_toDigits hc
    | negSucc n =>
      rcases List.mem_cons.mp hc with rfl | hd
      · exact .inr (.inl rfl)
      · exact isNumeral_of_mem_toDigits hd
  | double d => exact Double.isNumeral_of_mem_chars hc

end StepPlan
