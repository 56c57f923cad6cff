import StepPlan.Proofs.Json.Lexemes
import StepPlan.Proofs.Json.StringText

/-!
# How written values are spelled

The numbers and strings of written values are spellings of tokens: a whole number in the range in
which whole numbers are kept is a literal that stands for it (`isLexeme_number`), and a string
between its quotes stands for itself (`isLexeme_stringChars`).
-/

namespace StepPlan

/-- A whole number in the range in which whole numbers are kept. -/
def Number.isWhole : Number → Bool
  | .int i => decide (leastInt ≤ i ∧ i ≤ greatestInt)
  | .double _ => false

namespace Json

/-! ## Numbers -/

namespace Numeral

/-- The literal of the decimal digits of a number. -/
def ofNat (negative : Bool) (n : Nat) : Numeral :=
  ⟨if n = 0 then .zero else .digits, negative, ⟨n, 0, false⟩, false, 0⟩

/-- A decimal digit has its value. -/
theorem digit_digitChar {d : Nat} (h : d < 10) : digit (Nat.digitChar d) = d := by
  have hall : ∀ d < 10, digit (Nat.digitChar d) = d := by decide
  exact hall d h

/-- A digit more, as long as the number fits a word. -/
theorem next?_ofNat {negative : Bool} {n d : Nat} (hn : 0 < n) (hd : d < 10)
    (hfits : 10 * n + d < 2 ^ (64 : Nat)) :
    (ofNat negative n).next? (Nat.digitChar d) = some (ofNat negative (10 * n + d)) := by
  have hdigit : (Nat.digitChar d).isDigit = true := by rw [Nat.isDigit_digitChar, decide_eq_true hd]
  have hroom : ¬2 ^ (64 : Nat) ≤ n * 10 + d := by omega
  simp only [ofNat, next?, if_neg (Nat.pos_iff_ne_zero.mp hn), hdigit, Decimal.wholeDigit,
    Decimal.extended?, digit_digitChar hd, Bool.false_eq_true, false_or, if_neg hroom]
  rw [if_neg (by omega : ¬10 * n + d = 0), Nat.mul_comm n 10]
  rfl

/-- The literal of a natural number in range stands for it. -/
theorem value?_ofNat {n : Nat} (h : (n : Int) ≤ Number.greatestInt) :
    (ofNat false n).value? = some (.int n) := by
  have hleast : Number.leastInt ≤ n := by
    unfold Number.leastInt
    omega
  by_cases hn : n = 0
  · subst hn
    rfl
  · simp [ofNat, value?, hn, hleast, h]

/-- The literal of a negative number in range stands for it. -/
theorem value?_ofNat_negative {n : Nat} (h : Number.leastInt ≤ Int.negSucc n) :
    (ofNat true (n + 1)).value? = some (.int (Int.negSucc n)) := by
  have hgreatest : Int.negSucc n ≤ Number.greatestInt := by
    unfold Number.greatestInt
    omega
  have hvalue : -((n + 1 : Nat) : Int) = Int.negSucc n := rfl
  simp only [ofNat, value?, Nat.add_one_ne_zero, if_false, if_true, hvalue, and_false, or_self,
    Bool.false_eq_true, h, hgreatest, and_self]

/-- The digits of a number are read one by one, from where a digit starts a number. -/
theorem after?_toDigits {m : Numeral} {negative : Bool}
    (hm : ∀ d < 10, m.next? (Nat.digitChar d) = some (ofNat negative d)) {n : Nat}
    (hfits : n < 2 ^ (64 : Nat)) : m.after? (Nat.toDigits 10 n) = some (ofNat negative n) := by
  -- By the number without its last digit, which is read last.
  induction n using Nat.strongRecOn with
  | ind n ih =>
    by_cases hn : n < 10
    · rw [Nat.toDigits_of_lt_base hn, after?, List.foldlM_cons, hm n hn]
      rfl
    · have hlast : n % 10 < 10 := Nat.mod_lt n (by decide)
      have hfront : 0 < n / 10 := by omega
      have hjoin : 10 * (n / 10) + n % 10 = n := by omega
      have hdigits : Nat.toDigits 10 n = Nat.toDigits 10 (n / 10) ++ [Nat.digitChar (n % 10)] := by
        rw [← Nat.toDigits_of_lt_base hlast,
          Nat.toDigits_append_toDigits (by decide) hfront hlast, hjoin]
      have hrest : m.after? (Nat.toDigits 10 (n / 10)) = some (ofNat negative (n / 10)) :=
        ih (n / 10) (by omega) (by omega)
      have hnext : (ofNat negative (n / 10)).next? (Nat.digitChar (n % 10))
          = some (ofNat negative (10 * (n / 10) + n % 10)) := next?_ofNat hfront hlast (by omega)
      rw [hdigits, after?, List.foldlM_append]
      show m.after? (Nat.toDigits 10 (n / 10)) >>= (·.after? [_]) = _
      rw [hrest]
      show (ofNat negative (n / 10)).next? (Nat.digitChar (n % 10)) >>= pure = _
      rw [hnext, hjoin]
      rfl

/-- Decimal digits of a number are those of a literal: they have no leading zeros. -/
theorem isWholePart_toDigits (n : Nat) : IsWholePart (Nat.toDigits 10 n) := by
  by_cases hzero : n = 0
  · subst hzero
    exact .zero
  · -- The first digit is that of the number without its last digit.
    have hfirst : ∀ n, n ≠ 0 → ∃ c cs, Nat.toDigits 10 n = c :: cs ∧ c ≠ '0' := by
      intro n
      induction n using Nat.strongRecOn with
      | ind n ih =>
        intro hne
        by_cases hn : n < 10
        · have hdigit : ∀ d < 10, d ≠ 0 → Nat.digitChar d ≠ '0' := by decide
          exact ⟨_, _, Nat.toDigits_of_lt_base hn, hdigit n hn hne⟩
        · have hlast : n % 10 < 10 := Nat.mod_lt n (by decide)
          obtain ⟨c, cs, hcs, hc⟩ := ih (n / 10) (by omega) (by omega)
          refine ⟨c, cs ++ Nat.toDigits 10 (n % 10), ?_, hc⟩
          rw [← List.cons_append, ← hcs, Nat.toDigits_append_toDigits (by decide) (by omega) hlast]
          congr 1
          omega
    obtain ⟨c, cs, hcs, hc⟩ := hfirst n hzero
    have hdigits : ∀ d ∈ Nat.toDigits 10 n, d.isDigit = true := fun d hd =>
      Nat.isDigit_of_mem_toDigits (by decide) (by decide) hd
    rw [hcs] at hdigits ⊢
    exact .digits hc (hdigits c (List.mem_cons_self ..))
      fun d hd => hdigits d (List.mem_cons_of_mem _ hd)

/-- The digits of a natural number in range are a literal for it. -/
theorem valueOf_toDigits {n : Nat} (h : (n : Int) ≤ Number.greatestInt) :
    valueOf (Nat.toDigits 10 n) = some (.int n) := by
  have hfits : n < 2 ^ (64 : Nat) := by
    unfold Number.greatestInt at h
    omega
  have hstart : ∀ d < 10, unsigned.next? (Nat.digitChar d) = some (ofNat false d) := by decide
  have hchars := ofChars?_of_isWholePart (isWholePart_toDigits n) []
  rw [List.append_nil] at hchars
  rw [valueOf, hchars, after?_toDigits hstart hfits, Option.bind_some, value?_ofNat h]

/-- A minus sign and digits are a literal for a negative number in range. -/
theorem valueOf_minus_toDigits {n : Nat} (h : Number.leastInt ≤ Int.negSucc n) :
    valueOf ('-' :: Nat.toDigits 10 (n + 1)) = some (.int (Int.negSucc n)) := by
  have hfits : n + 1 < 2 ^ (64 : Nat) := by
    unfold Number.leastInt at h
    omega
  have hstart : ∀ d < 10, minus.next? (Nat.digitChar d) = some (ofNat true d) := by decide
  have hchars : ∀ cs, ofChars? ('-' :: cs) = minus.after? cs := fun _ => rfl
  rw [valueOf, hchars, after?_toDigits hstart hfits, Option.bind_some, value?_ofNat_negative h]

end Numeral

/-- A number is written as a literal that stands for it. -/
theorem isLexeme_number {n : Number} (hn : n.isWhole = true) :
    IsLexeme (.num (some n)) n.chars := by
  cases n with
  | double d => exact absurd hn Bool.false_ne_true
  | int i =>
    obtain ⟨hleast, hgreatest⟩ := of_decide_eq_true hn
    cases i with
    | ofNat n =>
      have hliteral := Numeral.IsLiteral.parts (.inl rfl) (Numeral.isWholePart_toDigits n) .absent
        .absent
      simp only [List.nil_append, List.append_nil] at hliteral
      have hlexeme := IsLexeme.num hliteral
      rwa [Numeral.valueOf_toDigits hgreatest] at hlexeme
    | negSucc n =>
      have hliteral := Numeral.IsLiteral.parts (.inr rfl) (Numeral.isWholePart_toDigits (n + 1))
        .absent .absent
      simp only [List.singleton_append, List.append_nil] at hliteral
      have hlexeme := IsLexeme.num hliteral
      rwa [Numeral.valueOf_minus_toDigits hleast] at hlexeme

/-! ## Strings -/

/-- An escape that the reader knows is among those listed. -/
theorem mem_escapes_of_escaped? {name c : Char} (h : Mode.escaped? name = some c) :
    (name, c) ∈ escapes := by
  unfold Mode.escaped? at h
  split at h
  case h_9 => cases h
  all_goals
    obtain rfl := Option.some.inj h
    decide

/-- One character of a string is spelled as a piece that stands for it. -/
theorem exists_piece (c : Char) : ∃ piece, SpellsPiece piece (escapedChar c)
    ∧ ∀ {pieces cs}, StandsFor pieces cs → StandsFor (piece :: pieces) (c :: cs) := by
  rcases escapedChar_cases c with ⟨he, hslash, hquote, hlow⟩ | ⟨name, he, hu, hname⟩ | ⟨he, hlow⟩
  · rw [he]
    exact ⟨.char c, .plain hquote hslash hlow, .char c⟩
  · rw [he]
    exact ⟨.char c, .named (mem_escapes_of_escaped? hname), .char c⟩
  · have hcode : ((0 * 16 + 0) * 16 + c.toNat / 16) * 16 + c.toNat % 16 = c.toNat := by omega
    have hdigits : IsCode c.toNat
        ['0', '0', Nat.digitChar (c.toNat / 16), Nat.digitChar (c.toNat % 16)] := by
      have hzero : IsHexDigit 0 '0' := .small (by decide : 0 < 16)
      have hread := IsCode.digits hzero hzero (.small (by omega : c.toNat / 16 < 16))
        (.small (by omega : c.toNat % 16 < 16))
      rwa [hcode] at hread
    rw [he]
    exact ⟨.code c.toNat, .code hdigits, .code c⟩

/-- A string between its quotes stands for itself. -/
theorem isLexeme_stringChars (s : String) : IsLexeme (.str (some s)) (stringChars s) := by
  have hpieces : ∀ cs : List Char,
      ∃ pieces, Spells pieces (cs.flatMap escapedChar) ∧ StandsFor pieces cs := by
    intro cs
    induction cs with
    | nil => exact ⟨[], .nil, .nil⟩
    | cons c cs ih =>
      obtain ⟨pieces, hspells, hstands⟩ := ih
      obtain ⟨piece, hpiece, hc⟩ := exists_piece c
      exact ⟨piece :: pieces, .cons hpiece hspells, hc hstands⟩
  obtain ⟨pieces, hspells, hstands⟩ := hpieces s.toList
  exact .str hspells hstands

/-! ## Values -/

mutual

/-- All numbers of a value are whole. -/
def isWhole : Json → Bool
  | .null | .bool _ | .str _ => true
  | .num n => n.isWhole
  | .arr items => areWhole items
  | .obj members => haveWhole members

/-- All numbers of some items are whole. -/
def areWhole : List Json → Bool
  | [] => true
  | item :: items => isWhole item && areWhole items

/-- All numbers of some members are whole. -/
def haveWhole : List (String × Json) → Bool
  | [] => true
  | (_, value) :: members => isWhole value && haveWhole members

end

end Json

end StepPlan
