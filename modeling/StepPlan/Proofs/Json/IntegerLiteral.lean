import StepPlan.Json.Lexer
import StepPlan.Proofs.Number.Monotone

/-!
# Literals of whole numbers

A literal without fraction and exponent only grows with every further digit. So if it stands for a
number, each of its fronts does: `Numeral.isSome_value?_of_under`. With an exponent that is not so,
since a front of the exponent may make a number that is too large.
-/

namespace StepPlan.Json.Numeral

/-- Neither a fraction nor an exponent has begun. -/
def isInteger (n : Numeral) : Bool :=
  match n.phase with
  | .sign | .zero | .digits => true
  | .point | .fraction | .mark | .markSign | .exponent => false

/-- As long as neither a fraction nor an exponent has begun, the places of the decimal are those of
the digits that did not fit. -/
def CountsPlaces (n : Numeral) : Prop :=
  n.isInteger = true → n.exponent = 0
    ∧ ∃ e : Nat, n.decimal.exponent = e ∧ (n.decimal.full = false → e = 0)

/-- Behind the sign there are no digits yet. -/
theorem countsPlaces_minus : minus.CountsPlaces :=
  fun _ => ⟨rfl, 0, rfl, fun _ => rfl⟩

/-- One digit always fits. -/
theorem countsPlaces_first (negative : Bool) (c : Char) : (first negative c).CountsPlaces :=
  fun _ => ⟨rfl, 0, rfl, fun _ => rfl⟩

/-- The decimal of the one literal has no greater digits and no more places than that of the
other. -/
structure Under (n n' : Numeral) : Prop where
  digits : n.decimal.digits ≤ n'.decimal.digits
  places : ∃ e e' : Nat, n.decimal.exponent = e ∧ n'.decimal.exponent = e' ∧ e ≤ e'

/-- A literal under another is under all that are over it. -/
theorem Under.trans {n n' n'' : Numeral} (h : n.Under n') (h' : n'.Under n'') : n.Under n'' := by
  obtain ⟨hdigits, e, e', he, he', hle⟩ := h
  obtain ⟨hdigits', f, f', hf, hf', hle'⟩ := h'
  have heq : e' = f := Int.ofNat.inj (he'.symm.trans hf)
  exact ⟨Nat.le_trans hdigits hdigits', e, f', he, hf', by omega⟩

/-- A literal of a whole number is under itself. -/
theorem under_self {n : Numeral} (h : n.CountsPlaces) (hn : n.isInteger = true) : n.Under n := by
  obtain ⟨-, e, he, -⟩ := h hn
  exact ⟨Nat.le_refl _, e, e, he, he, Nat.le_refl e⟩

/-! ## Further digits -/

/-- A character more makes a literal of a whole number in two ways: the first digit behind a sign,
or a further digit. -/
theorem next?_of_isInteger {n n' : Numeral} {c : Char} (h : n.next? c = some n')
    (hn' : n'.isInteger = true) :
    (n.phase = .sign ∧ n' = first n.negative c)
      ∨ (n.phase = .digits ∧ n' = { n with decimal := n.decimal.wholeDigit (digit c) }) := by
  have hfraction : ∀ {m : Numeral}, some m = some n' → m.isInteger = false → False := by
    intro m heq hm
    obtain rfl := Option.some.inj heq
    rw [hm] at hn'
    cases hn'
  obtain ⟨phase, negative, decimal, exponentNegative, exponent⟩ := n
  rw [next?] at h
  cases phase with
  | sign =>
    simp only at h
    split at h
    · exact .inl ⟨rfl, (Option.some.inj h).symm⟩
    · cases h
  | digits =>
    simp only at h
    split at h
    · exact .inr ⟨rfl, (Option.some.inj h).symm⟩
    · split at h
      · exact (hfraction h rfl).elim
      · split at h
        · exact (hfraction h rfl).elim
        · cases h
  | _ =>
    -- What continues any other literal belongs to a fraction or an exponent.
    simp only at h
    repeat' split at h
    all_goals first | exact (hfraction h rfl).elim | cases h

/-- Another digit does not lessen the digits that are kept. -/
theorem digits_le_wholeDigit (d : Decimal) (digit : Nat) :
    d.digits ≤ (d.wholeDigit digit).digits := by
  unfold Decimal.wholeDigit Decimal.extended?
  dsimp only
  split
  next digits heq =>
    split at heq
    · cases heq
    · obtain rfl := Option.some.inj heq
      show d.digits ≤ d.digits * 10 + digit
      omega
  next => exact Nat.le_refl _

/-- A further digit fits, or counts as a place. -/
theorem exponent_wholeDigit (d : Decimal) (digit : Nat) :
    (d.wholeDigit digit).exponent = d.exponent ∧ (d.wholeDigit digit).full = d.full
      ∨ (d.wholeDigit digit).exponent = d.exponent + 1 ∧ (d.wholeDigit digit).full = true := by
  unfold Decimal.wholeDigit
  split
  · exact .inl ⟨rfl, rfl⟩
  · exact .inr ⟨rfl, rfl⟩

/-- Reading on keeps count: a digit that does not fit is a place more. -/
theorem countsPlaces_of_next? {n n' : Numeral} {c : Char} (hn : n.CountsPlaces)
    (h : n.next? c = some n') : n'.CountsPlaces := by
  intro hn'
  rcases next?_of_isInteger h hn' with ⟨-, rfl⟩ | ⟨hphase, rfl⟩
  · exact countsPlaces_first n.negative c hn'
  · obtain ⟨hexponent, e, he, hfit⟩ := hn hn'
    refine ⟨hexponent, ?_⟩
    rcases exponent_wholeDigit n.decimal (digit c) with ⟨hsame, hfull⟩ | ⟨hmore, hfull⟩
    · exact ⟨e, hsame.trans he, fun h => hfit (hfull.symm.trans h)⟩
    · refine ⟨e + 1, by rw [hmore, he]; rfl, fun h => ?_⟩
      rw [hfull] at h
      cases h

/-- A further digit behind a literal that may end leaves the digits or makes them greater, and the
places likewise. -/
theorem under_of_next? {n n' : Numeral} {c : Char} (hn : n.CountsPlaces) (hwhole : n.isWhole = true)
    (h : n.next? c = some n') (hn' : n'.isInteger = true) :
    n'.isWhole = true ∧ n.Under n' := by
  rcases next?_of_isInteger h hn' with ⟨hphase, -⟩ | ⟨hphase, rfl⟩
  · rw [isWhole, hphase] at hwhole
    cases hwhole
  · obtain ⟨-, e, he, -⟩ := hn hn'
    refine ⟨hwhole, digits_le_wholeDigit _ _, ?_⟩
    rcases exponent_wholeDigit n.decimal (digit c) with ⟨hsame, -⟩ | ⟨hmore, -⟩
    · exact ⟨e, e, he, hsame.trans he, Nat.le_refl e⟩
    · exact ⟨e, e + 1, he, by rw [hmore, he]; rfl, Nat.le_succ e⟩

/-! ## Values -/

/-- Without an exponent the double is that of the digits. -/
theorem double?_eq {n : Numeral} (h : n.exponent = 0) :
    n.double? = (n.decimal.double? n.negative).map .double := by
  have hzero : (if n.exponentNegative then -(n.exponent : Int) else n.exponent) = 0 := by
    rw [h]
    split <;> rfl
  rw [double?, hzero, Decimal.scaled, Int.add_zero]

/-- Digits that fit are those of a finite double. -/
theorem exists_double?_of_fits {d : Decimal} (hexponent : d.exponent = 0)
    (hdigits : d.digits ≤ 2 ^ (64 : Nat)) (negative : Bool) : ∃ r, d.double? negative = some r := by
  have hgreatest : ∃ r, (Decimal.double? false ⟨2 ^ (64 : Nat), 0, false⟩) = some r :=
    Option.isSome_iff_exists.mp (by decide +kernel)
  obtain ⟨r, hr⟩ := hgreatest
  exact Decimal.exists_double?_of_le hdigits (e := 0) (by rw [hexponent]; rfl) rfl
    (Nat.le_refl 0) hr

/-- The literal of a whole number stands for a number exactly when it does as a double. -/
theorem isSome_value?_iff {n : Numeral} (h : n.CountsPlaces) (hn : n.isInteger = true) :
    n.value?.isSome = true ↔ n.double?.isSome = true := by
  obtain ⟨hexponent, e, he, hfit⟩ := h hn
  -- A literal that stands for a whole number has few digits, so its double is finite as well.
  have hwhole : ∀ i : Int,
      i = (if n.negative then -(n.decimal.digits : Int) else n.decimal.digits) →
      ((if n.decimal.full ∨ (n.negative ∧ n.decimal.digits = 0) then n.double?
        else if Number.leastInt ≤ i ∧ i ≤ Number.greatestInt then some (.int i)
        else n.double?).isSome = true ↔ n.double?.isSome = true) := by
    intro i hi
    split
    · exact Iff.rfl
    next hfull =>
      split
      next hrange =>
        refine iff_of_true rfl ?_
        rw [not_or, Bool.not_eq_true] at hfull
        have hdigits : n.decimal.digits ≤ 2 ^ (64 : Nat) := by
          rw [hi, Number.leastInt, Number.greatestInt] at hrange
          split at hrange <;> omega
        have hzero : n.decimal.exponent = 0 := by rw [he, hfit hfull.1]; rfl
        obtain ⟨r, hr⟩ := exists_double?_of_fits hzero hdigits n.negative
        rw [double?_eq hexponent, hr]
        rfl
      next => exact Iff.rfl
  rw [value?]
  cases hphase : n.phase with
  | zero | digits => exact hwhole _ rfl
  | _ => exact Iff.rfl

/-- If the literal of a whole number stands for a number, so does one with no greater digits and no
more places. -/
theorem isSome_value?_of_under {n n' : Numeral} (hn : n.CountsPlaces) (hint : n.isInteger = true)
    (hn' : n'.CountsPlaces) (hint' : n'.isInteger = true) (h : n.Under n')
    (hvalue : n'.value?.isSome = true) : n.value?.isSome = true := by
  obtain ⟨e, e', he, he', hle⟩ := h.places
  rw [isSome_value?_iff hn' hint', double?_eq (hn' hint').1, Option.isSome_map] at hvalue
  obtain ⟨r', hr'⟩ := Option.isSome_iff_exists.mp hvalue
  obtain ⟨r, hr⟩ := Decimal.exists_double?_of_le h.digits he he' hle hr'
  rw [isSome_value?_iff hn hint, double?_eq (hn hint).1, hr]
  rfl

end StepPlan.Json.Numeral
