import StepPlan.Number.Decimal
import StepPlan.Proofs.Number.Rounding

/-!
# Rounding is monotone

The double nearest to a ratio counts `rounded num den` steps, and there is one exactly when these
are fewer than `2 ^ 53 · 2 ^ 2045`. A smaller ratio is rounded to no more steps. So what can be
turned into a finite double can still be when it is made smaller: a factor of a product, a power of
ten, the digits of a decimal. Main statement: `Decimal.exists_double?_of_le`.
-/

namespace StepPlan

namespace Double

/-! ## Nearest whole numbers -/

theorem div_le_nearest (num den : Nat) : num / den ≤ nearest num den := by
  unfold nearest
  dsimp only
  split
  · omega
  · split <;> omega

theorem nearest_le_succ (num den : Nat) : nearest num den ≤ num / den + 1 := by
  unfold nearest
  dsimp only
  split
  · omega
  · split <;> omega

/-- Of two numerators over one denominator the greater is not rounded to less. -/
theorem nearest_mono {num num' : Nat} (h : num ≤ num') (den : Nat) :
    nearest num den ≤ nearest num' den := by
  have hq : num / den ≤ num' / den := Nat.div_le_div_right h
  -- A greater whole part is at least one more, which rounding up does not exceed.
  rcases Nat.lt_or_eq_of_le hq with hlt | heq
  · calc nearest num den ≤ num / den + 1 := nearest_le_succ num den
      _ ≤ num' / den := hlt
      _ ≤ nearest num' den := div_le_nearest num' den
  · -- With one whole part for both, the remainders decide.
    have hrest : num % den ≤ num' % den := by
      have hnum := Nat.div_add_mod num den
      have hnum' := Nat.div_add_mod num' den
      rw [heq] at hnum
      omega
    unfold nearest
    dsimp only
    rw [heq]
    generalize num' / den = q
    by_cases hlow : 2 * (num % den) < den
    · rw [if_pos hlow]
      split
      · omega
      · split <;> omega
    · rw [if_neg hlow, if_neg (show ¬2 * (num' % den) < den by omega)]
      split
      · exact Nat.le_of_eq (if_pos (by omega)).symm
      · split <;> omega

/-! ## Rounding -/

/-- The power of two that a ratio is rounded to multiples of. -/
def scaleOf (num den : Nat) : Nat :=
  Nat.log2 (num / den) - 52

/-- The steps of the double nearest to a ratio, finite or not. -/
def rounded (num den : Nat) : Nat :=
  nearest num (den * 2 ^ scaleOf num den) * 2 ^ scaleOf num den

theorem log2_mono {m n : Nat} (h : m ≤ n) : Nat.log2 m ≤ Nat.log2 n := by
  by_cases hm : m = 0
  · rw [hm]
    exact Nat.zero_le _
  · have hn : n ≠ 0 := by omega
    exact (Nat.le_log2 hn).mpr (Nat.le_trans (Nat.log2_self_le hm) h)

/-- At the scale of a ratio its mantissa has 53 bits, or is the first number of 54. -/
theorem nearest_le (num den : Nat) : nearest num (den * 2 ^ scaleOf num den) ≤ 2 ^ (53 : Nat) := by
  have hlt : num / den < 2 ^ (53 + scaleOf num den) := by
    refine Nat.lt_of_lt_of_le Nat.lt_log2_self (Nat.pow_le_pow_right (by decide) ?_)
    unfold scaleOf
    omega
  have hq : num / (den * 2 ^ scaleOf num den) < 2 ^ (53 : Nat) := by
    rw [← Nat.div_div_eq_div_mul, Nat.div_lt_iff_lt_mul (Nat.two_pow_pos _), ← Nat.pow_add]
    exact hlt
  exact Nat.le_trans (nearest_le_succ _ _) hq

/-- Where the scale is not the least one, the leading bit of the mantissa is set. -/
theorem le_nearest {num den : Nat} (h : 0 < scaleOf num den) :
    2 ^ (52 : Nat) ≤ nearest num (den * 2 ^ scaleOf num den) := by
  have hne : num / den ≠ 0 := by
    intro hzero
    rw [scaleOf, hzero] at h
    exact absurd h (by decide)
  have hle : 2 ^ (52 + scaleOf num den) ≤ num / den := by
    refine (Nat.le_log2 hne).mp ?_
    unfold scaleOf at h ⊢
    omega
  refine Nat.le_trans ?_ (div_le_nearest _ _)
  rw [← Nat.div_div_eq_div_mul, Nat.le_div_iff_mul_le (Nat.two_pow_pos _), ← Nat.pow_add]
  exact hle

/-- A full mantissa at a lower scale counts no more than the least one at a higher scale. -/
theorem full_le_of_lt {m n : Nat} (h : m < n) :
    2 ^ (53 : Nat) * 2 ^ m ≤ 2 ^ (52 : Nat) * 2 ^ n := by
  calc 2 ^ (53 : Nat) * 2 ^ m = 2 ^ (52 : Nat) * (2 * 2 ^ m) := by
        rw [← Nat.mul_assoc, ← Nat.pow_succ]
    _ ≤ 2 ^ (52 : Nat) * 2 ^ n := Nat.mul_le_mul_left _ (two_mul_pow_le h)

/-- A mantissa of 53 bits at one scale comes to less than the first of 54 bits at that scale or a
greater one. -/
theorem lt_full_of_le {mantissa m n : Nat} (hmantissa : mantissa < 2 ^ (53 : Nat)) (h : m ≤ n) :
    mantissa * 2 ^ m < 2 ^ (53 : Nat) * 2 ^ n := by
  calc mantissa * 2 ^ m ≤ mantissa * 2 ^ n :=
        Nat.mul_le_mul_left _ (Nat.pow_le_pow_right Nat.two_pos h)
    _ < 2 ^ (53 : Nat) * 2 ^ n := Nat.mul_lt_mul_of_pos_right hmantissa (Nat.two_pow_pos n)

/-- A greater ratio is not rounded to fewer steps. -/
theorem rounded_mono {num num' : Nat} (h : num ≤ num') (den : Nat) :
    rounded num den ≤ rounded num' den := by
  have hscale : scaleOf num den ≤ scaleOf num' den := by
    have hlog := log2_mono (Nat.div_le_div_right (c := den) h)
    unfold scaleOf
    omega
  rcases Nat.lt_or_eq_of_le hscale with hlt | heq
  · calc rounded num den ≤ 2 ^ (53 : Nat) * 2 ^ scaleOf num den :=
          Nat.mul_le_mul_right _ (nearest_le num den)
      _ ≤ 2 ^ (52 : Nat) * 2 ^ scaleOf num' den := full_le_of_lt hlt
      _ ≤ rounded num' den := Nat.mul_le_mul_right _ (le_nearest (Nat.zero_lt_of_lt hlt))
  · unfold rounded
    rw [heq]
    exact Nat.mul_le_mul_right _ (nearest_mono h _)

/-! ## Finite doubles -/

theorem ofParts?_eq_some_iff {negative : Bool} {mantissa scale : Nat} {d : Double} :
    ofParts? negative mantissa scale = some d
      ↔ d.negative = negative ∧ d.mantissa = mantissa ∧ d.scale = scale := by
  constructor
  · intro h
    unfold ofParts? at h
    split at h
    · obtain rfl := Option.some.inj h
      exact ⟨rfl, rfl, rfl⟩
    · cases h
  · rintro ⟨rfl, rfl, rfl⟩
    exact dif_pos ⟨d.mantissa_lt, d.normal, d.scale_le⟩

/-- There is a double of these parts when they are a canonical form. -/
theorem exists_ofParts?_iff {negative : Bool} {mantissa scale : Nat} :
    (∃ d, ofParts? negative mantissa scale = some d)
      ↔ mantissa < 2 ^ (53 : Nat) ∧ (scale = 0 ∨ 2 ^ (52 : Nat) ≤ mantissa) ∧ scale ≤ 2045 := by
  constructor
  · rintro ⟨d, h⟩
    obtain ⟨-, rfl, rfl⟩ := ofParts?_eq_some_iff.mp h
    exact ⟨d.mantissa_lt, d.normal, d.scale_le⟩
  · rintro ⟨hlt, hnormal, hle⟩
    exact ⟨⟨negative, mantissa, scale, hlt, hnormal, hle⟩, ofParts?_eq_some_iff.mpr ⟨rfl, rfl, rfl⟩⟩

theorem ofRatio?_eq (negative : Bool) (num den : Nat) :
    ofRatio? negative num den
      = if nearest num (den * 2 ^ scaleOf num den) = 2 ^ (53 : Nat) then
          ofParts? negative (2 ^ (52 : Nat)) (scaleOf num den + 1)
        else ofParts? negative (nearest num (den * 2 ^ scaleOf num den)) (scaleOf num den) :=
  rfl

/-- The double of a ratio has the steps that this is rounded to. -/
theorem steps_of_ofRatio? {negative : Bool} {num den : Nat} {d : Double}
    (h : ofRatio? negative num den = some d) : d.steps = rounded num den := by
  rw [ofRatio?_eq] at h
  split at h
  next hfull =>
    obtain ⟨-, hmantissa, hscale⟩ := ofParts?_eq_some_iff.mp h
    rw [steps, hmantissa, hscale, rounded, hfull, Nat.pow_succ']
    omega
  next =>
    obtain ⟨-, hmantissa, hscale⟩ := ofParts?_eq_some_iff.mp h
    rw [steps, hmantissa, hscale, rounded]

theorem full_lt_full_iff (m n : Nat) : 2 ^ (53 : Nat) * 2 ^ m < 2 ^ (53 : Nat) * 2 ^ n ↔ m < n := by
  rw [Nat.mul_lt_mul_left (Nat.two_pow_pos 53), Nat.pow_lt_pow_iff_right (Nat.lt_succ_self 1)]

/-- A ratio is rounded to a finite double exactly when it is rounded to fewer steps than a mantissa
of 54 bits would count at the greatest scale. -/
theorem exists_ofRatio?_iff {negative : Bool} {num den : Nat} :
    (∃ d, ofRatio? negative num den = some d)
      ↔ rounded num den < 2 ^ (53 : Nat) * 2 ^ (2045 : Nat) := by
  have hle := nearest_le num den
  have hge := @le_nearest num den
  rw [ofRatio?_eq, rounded]
  generalize nearest num (den * 2 ^ scaleOf num den) = mantissa at *
  generalize scaleOf num den = scale at *
  -- A mantissa that was rounded up to `2 ^ 53` takes the next scale; any other one keeps its own.
  split
  next hfull =>
    rw [exists_ofParts?_iff, hfull, full_lt_full_iff scale 2045]
    exact ⟨fun h => h.2.2, fun h => ⟨by decide, .inr (Nat.le_refl _), h⟩⟩
  next hne =>
    have hlt : mantissa < 2 ^ (53 : Nat) := by omega
    rw [exists_ofParts?_iff]
    constructor
    · rintro ⟨-, -, hscale⟩
      have hfits := lt_full_of_le hlt hscale
      exact hfits
    · intro hsteps
      refine ⟨hlt, ?_, ?_⟩
      · rcases Nat.eq_zero_or_pos scale with hzero | hpos
        · exact .inl hzero
        · exact .inr (hge hpos)
      · -- A greater scale would go with a full mantissa, and the two are too large.
        refine Nat.le_of_not_lt fun hscale => Nat.not_le_of_lt hsteps ?_
        calc 2 ^ (53 : Nat) * 2 ^ (2045 : Nat) ≤ 2 ^ (52 : Nat) * 2 ^ scale := full_le_of_lt hscale
          _ ≤ mantissa * 2 ^ scale := Nat.mul_le_mul_right _ (hge (Nat.zero_lt_of_lt hscale))

/-- What is no more than a finite ratio is finite, and rounded to no more steps. -/
theorem exists_ofRatio?_of_le {negative' : Bool} {num num' den : Nat} {d' : Double}
    (negative : Bool) (h : num ≤ num') (h' : ofRatio? negative' num' den = some d') :
    ∃ d, ofRatio? negative num den = some d ∧ d.steps ≤ d'.steps := by
  have hmono := rounded_mono h den
  have hfinite := exists_ofRatio?_iff.mp ⟨d', h'⟩
  obtain ⟨d, hd⟩ := exists_ofRatio?_iff.mpr (Nat.lt_of_le_of_lt hmono hfinite)
  refine ⟨d, hd, ?_⟩
  rw [steps_of_ofRatio? hd, steps_of_ofRatio? h']
  exact hmono

/-! ## Powers of ten -/

/-- Below a power of ten that is a finite double every power is one, with no more steps. -/
theorem exists_tenTo?_of_le {e e' : Nat} {t' : Double} (h : e ≤ e') (h' : tenTo? e' = some t') :
    ∃ t, tenTo? e = some t ∧ t.steps ≤ t'.steps :=
  exists_ofRatio?_of_le _
    (Nat.mul_le_mul_right _ (Nat.pow_le_pow_right (by decide) h)) h'

/-- Smaller factors of a finite product have a finite product. -/
theorem exists_mul?_of_le {a a' b b' c' : Double} (ha : a.steps ≤ a'.steps)
    (hb : b.steps ≤ b'.steps) (h' : a'.mul? b' = some c') : ∃ c, a.mul? b = some c := by
  obtain ⟨c, hc, -⟩ := exists_ofRatio?_of_le _ (Nat.mul_le_mul ha hb) h'
  exact ⟨c, hc⟩

theorem mantissa_eq_zero_iff {d : Double} : d.mantissa = 0 ↔ d.steps = 0 := by
  have hpow : 2 ^ d.scale ≠ 0 := Nat.pos_iff_ne_zero.mp (Nat.two_pow_pos _)
  rw [steps, Nat.mul_eq_zero, or_iff_left hpow]

/-- The greatest power of ten that is multiplied with is a finite double. -/
theorem exists_tenTo?_greatestTen : ∃ t, tenTo? greatestTen = some t :=
  exists_ofRatio?_iff.mpr (by decide +kernel)

/-- Zero can be multiplied with any power of ten. -/
theorem exists_scaleUp?_of_zero {d : Double} (h : d.mantissa = 0) (e : Nat) :
    ∃ r, d.scaleUp? e = some r := by
  unfold scaleUp?
  by_cases hsmall : e ≤ greatestTen
  · obtain ⟨t', ht'⟩ := exists_tenTo?_greatestTen
    obtain ⟨t, ht, -⟩ := exists_tenTo?_of_le hsmall ht'
    rw [if_pos hsmall, ht, Option.bind_some, mul?, mantissa_eq_zero_iff.mp h, Nat.zero_mul,
      exists_ofRatio?_iff]
    decide +kernel
  · rw [if_neg hsmall, if_pos h]
    exact ⟨d, rfl⟩

/-- What can be multiplied with a power of ten can be when it is less, and with a lower power. -/
theorem exists_scaleUp?_of_le {d d' r' : Double} {e e' : Nat} (hd : d.steps ≤ d'.steps)
    (he : e ≤ e') (h' : d'.scaleUp? e' = some r') : ∃ r, d.scaleUp? e = some r := by
  by_cases hzero : d.mantissa = 0
  · exact exists_scaleUp?_of_zero hzero e
  · have hzero' : d'.mantissa ≠ 0 := by
      intro hmantissa
      rw [mantissa_eq_zero_iff] at hzero hmantissa
      omega
    unfold scaleUp? at h' ⊢
    by_cases hsmall : e' ≤ greatestTen
    · rw [if_pos hsmall] at h'
      rw [if_pos (Nat.le_trans he hsmall)]
      obtain ⟨t', ht', hproduct⟩ := Option.bind_eq_some_iff.mp h'
      obtain ⟨t, ht, hle⟩ := exists_tenTo?_of_le he ht'
      rw [ht, Option.bind_some]
      exact exists_mul?_of_le hd hle hproduct
    · rw [if_neg hsmall, if_neg hzero'] at h'
      cases h'

end Double

/-- A whole decimal that stands for a finite double still does with fewer digits and a lower power
of ten, of either sign. -/
theorem Decimal.exists_double?_of_le {d d' : Decimal} {e e' : Nat} {negative negative' : Bool}
    {r' : Double} (hdigits : d.digits ≤ d'.digits) (hexponent : d.exponent = e)
    (hexponent' : d'.exponent = e') (hle : e ≤ e') (h' : d'.double? negative' = some r') :
    ∃ r, d.double? negative = some r := by
  unfold double? at h' ⊢
  rw [hexponent'] at h'
  obtain ⟨x', hx', hscaled⟩ := Option.bind_eq_some_iff.mp h'
  obtain ⟨x, hx, hsteps⟩ := Double.exists_ofRatio?_of_le negative
    (Nat.mul_le_mul_right _ hdigits) hx'
  rw [hexponent, hx]
  exact Double.exists_scaleUp?_of_le hsteps hle hscaled

end StepPlan
