import StepPlan.Number.Shortest

/-!
# Rounding intervals

The reals that round to a double form an interval around it. The intervals of two doubles have no
point in common: at most they touch, and then one of the two does not have its end
(`Double.interval_before`). So a decimal that lies in the interval of a double belongs to that
double alone, and the shortest one does lie there (`Double.contains_shortest`).

Main statement: `Double.eq_of_shortest`. Two doubles of one sign whose shortest decimals have the
same value are the same.
-/

namespace StepPlan

namespace Double

/-! ## Neighbours -/

/-- A coarser step counts for at least two of the finer ones. -/
theorem two_mul_pow_le {m n : Nat} (h : m < n) : 2 * 2 ^ m ≤ 2 ^ n := by
  rw [← Nat.pow_succ']
  exact Nat.pow_le_pow_right (by decide) h

/-- A double that counts coarser steps than the finest has all its bits. -/
theorem le_mantissa_of_scale_pos {d : Double} (h : 0 < d.scale) : 2 ^ (52 : Nat) ≤ d.mantissa :=
  d.normal.resolve_left (Nat.pos_iff_ne_zero.mp h)

/-- A finer double is below every coarser one. -/
theorem steps_lt_of_scale_lt {a b : Double} (h : a.scale < b.scale) : a.steps < b.steps := by
  have hmantissa : 2 ^ (52 : Nat) ≤ b.mantissa := le_mantissa_of_scale_pos (Nat.zero_lt_of_lt h)
  calc a.mantissa * 2 ^ a.scale < 2 ^ (53 : Nat) * 2 ^ a.scale :=
        Nat.mul_lt_mul_of_pos_right a.mantissa_lt (Nat.two_pow_pos _)
    _ = 2 ^ (52 : Nat) * (2 * 2 ^ a.scale) := by rw [← Nat.mul_assoc, ← Nat.pow_succ]
    _ ≤ 2 ^ (52 : Nat) * 2 ^ b.scale := Nat.mul_le_mul_left _ (two_mul_pow_le h)
    _ ≤ b.mantissa * 2 ^ b.scale := Nat.mul_le_mul_right _ hmantissa

/-- A double is told from its sign and its magnitude. -/
theorem eq_of_steps_eq {a b : Double} (hsign : a.negative = b.negative)
    (h : a.steps = b.steps) : a = b := by
  have hscale : a.scale = b.scale := by
    rcases Nat.lt_trichotomy a.scale b.scale with hlt | heq | hgt
    · exact absurd h (Nat.ne_of_lt (steps_lt_of_scale_lt hlt))
    · exact heq
    · exact absurd h (Nat.ne_of_gt (steps_lt_of_scale_lt hgt))
  have hmantissa : a.mantissa = b.mantissa := by
    rw [steps, steps, hscale] at h
    exact Nat.eq_of_mul_eq_mul_right (Nat.two_pow_pos _) h
  cases a
  cases b
  obtain rfl := hsign
  obtain rfl := hscale
  obtain rfl := hmantissa
  rfl

/-- The interval ends before the other one begins. Where they touch, one of the two does not have
its end. -/
def Interval.Before (i j : Interval) : Prop :=
  i.high < j.low ∨ i.high = j.low ∧ ¬(i.closed = true ∧ j.closed = true)

/-- Doubles that count the same steps: neighbours differ in parity. -/
theorem interval_before_of_scale_eq {a b : Double} (hscale : a.scale = b.scale)
    (h : a.steps < b.steps) : a.interval.Before b.interval := by
  have hpos := Nat.two_pow_pos a.scale
  simp only [Interval.Before, interval, beq_iff_eq, steps, ← hscale] at h ⊢
  generalize 2 ^ a.scale = unit at *
  have hmantissa : a.mantissa < b.mantissa := Nat.lt_of_mul_lt_mul_right h
  by_cases hnext : a.mantissa + 1 = b.mantissa
  · have hunit : b.mantissa * unit = a.mantissa * unit + unit := by rw [← hnext, Nat.succ_mul]
    split <;> omega
  · have hmore : (a.mantissa + 2) * unit ≤ b.mantissa * unit :=
      Nat.mul_le_mul_right _ (by omega)
    rw [Nat.add_mul] at hmore
    split <;> omega

/-- Doubles of two scales: the coarser one has all its bits, the finer one no more than that. -/
theorem interval_before_of_scale_lt {a b : Double} (h : a.scale < b.scale) :
    a.interval.Before b.interval := by
  have hpos := Nat.two_pow_pos a.scale
  have hstep := two_mul_pow_le h
  have hnormal := le_mantissa_of_scale_pos (Nat.zero_lt_of_lt h)
  have hgreatest := a.mantissa_lt
  simp only [Interval.Before, interval, beq_iff_eq, steps]
  generalize 2 ^ a.scale = fine at *
  generalize 2 ^ b.scale = coarse at *
  by_cases hleast : b.mantissa = 2 ^ (52 : Nat)
  · -- Below a power of two they may touch, and then the finer one is the greatest of its scale.
    rw [if_pos ⟨hleast, Nat.zero_lt_of_lt h⟩, hleast]
    by_cases hlast : a.mantissa = 2 ^ (53 : Nat) - 1
    · rw [hlast]
      omega
    · have hmore : (a.mantissa + 2) * fine ≤ 2 ^ (53 : Nat) * fine :=
        Nat.mul_le_mul_right _ (by omega)
      rw [Nat.add_mul] at hmore
      omega
  · rw [if_neg fun hb => hleast hb.1]
    have hfine : (a.mantissa + 1) * fine ≤ 2 ^ (53 : Nat) * fine := Nat.mul_le_mul_right _ hgreatest
    have hcoarse : (2 ^ (52 : Nat) + 1) * coarse ≤ b.mantissa * coarse :=
      Nat.mul_le_mul_right _ (by omega)
    rw [Nat.add_mul] at hfine
    omega

/-- The intervals stand in the order of the doubles. -/
theorem interval_before {a b : Double} (h : a.steps < b.steps) : a.interval.Before b.interval := by
  rcases Nat.lt_trichotomy a.scale b.scale with hlt | heq | hgt
  · exact interval_before_of_scale_lt hlt
  · exact interval_before_of_scale_eq heq h
  · exact absurd h (Nat.not_lt.mpr (Nat.le_of_lt (steps_lt_of_scale_lt hgt)))

/-! ## Points of an interval -/

/-- The point lies in the interval. -/
def Interval.Contains (i : Interval) (x : Rat) : Prop :=
  i.low ≤ x ∧ x ≤ i.high ∧ (i.closed = false → i.low < x ∧ x < i.high)

theorem Interval.contains_of_lt {i : Interval} {x : Rat} (hlow : i.low < x) (hhigh : x < i.high) :
    i.Contains x :=
  ⟨Rat.le_of_lt hlow, Rat.le_of_lt hhigh, fun _ => ⟨hlow, hhigh⟩⟩

/-- The check on whole numbers says that the ratio lies in the interval. -/
theorem Interval.contains_of_holds {i : Interval} {num den : Nat} (hden : 0 < den)
    (h : i.holds num den = true) : i.Contains (num / den) := by
  have hpos : (0 : Rat) < den := Rat.natCast_pos.mpr hden
  unfold Interval.holds at h
  split at h
  next hclosed =>
    simp only [Bool.and_eq_true, decide_eq_true_eq] at h
    refine ⟨Rat.not_lt.mp fun hlt => ?_, Rat.not_lt.mp fun hgt => ?_, fun hopen => ?_⟩
    · have hbelow : (num : Rat) < i.low * den := (Rat.div_lt_iff hpos).mp hlt
      exact absurd h.1 (Nat.not_le.mpr (by exact_mod_cast hbelow))
    · have habove : (i.high * den : Rat) < num := (Rat.lt_div_iff hpos).mp hgt
      exact absurd h.2 (Nat.not_le.mpr (by exact_mod_cast habove))
    · exact absurd (hclosed.symm.trans hopen) (by decide)
  next =>
    simp only [Bool.and_eq_true, decide_eq_true_eq] at h
    exact contains_of_lt ((Rat.lt_div_iff hpos).mpr (by exact_mod_cast h.1))
      ((Rat.div_lt_iff hpos).mpr (by exact_mod_cast h.2))

/-- An interval has no point of one that comes before it. -/
theorem Interval.Before.not_contains {i j : Interval} {x : Rat} (h : i.Before j)
    (hi : i.Contains x) : ¬j.Contains x := by
  intro hj
  rcases h with hapart | ⟨htouch, hends⟩
  · have hlt : (i.high : Rat) < j.low := by exact_mod_cast hapart
    exact Rat.not_le.mpr hlt (Rat.le_trans hj.1 hi.2.1)
  · have heq : (i.high : Rat) = j.low := by exact_mod_cast htouch
    rcases Bool.eq_false_or_eq_true i.closed with hclosed | hopen
    · have hopen := Bool.eq_false_iff.mpr fun hclosed' => hends ⟨hclosed, hclosed'⟩
      exact Rat.not_le.mpr (hj.2.2 hopen).1 (heq ▸ hi.2.1)
    · exact Rat.not_le.mpr (hi.2.2 hopen).2 (heq ▸ hj.1)

/-- No point rounds to two magnitudes. -/
theorem steps_eq_of_contains {a b : Double} {x : Rat} (ha : a.interval.Contains x)
    (hb : b.interval.Contains x) : a.steps = b.steps :=
  Nat.le_antisymm (Nat.le_of_not_lt fun h => (interval_before h).not_contains hb ha)
    (Nat.le_of_not_lt fun h => (interval_before h).not_contains ha hb)

/-! ## The shortest decimal -/

/-- The value of `digits · 10 ^ exponent`. -/
def decimal (digits : Nat) (exponent : Int) : Rat :=
  digits * 10 ^ exponent

/-- So many units of the intervals make one. -/
def unitsOfOne : Rat :=
  ((2 ^ (1076 : Nat) : Nat) : Rat)

theorem gridStep_pos (exponent : Int) : 0 < (gridStep exponent).2 := by
  cases exponent with
  | ofNat e => exact Nat.one_pos
  | negSucc e => exact Nat.pow_pos (by decide)

/-- A multiple of a step is the decimal in the units of the intervals. -/
theorem mul_gridStep (digits : Nat) (exponent : Int) :
    ((digits * (gridStep exponent).1 : Nat) : Rat) / (gridStep exponent).2
      = decimal digits exponent * unitsOfOne := by
  unfold unitsOfOne
  cases exponent with
  | ofNat e =>
    have hpower : (10 : Rat) ^ Int.ofNat e = ((10 ^ e : Nat) : Rat) := (Rat.natCast_pow 10 e).symm
    simp only [gridStep, decimal, hpower, Rat.natCast_mul]
    grind
  | negSucc e =>
    have hpower : (10 : Rat) ^ Int.negSucc e = ((10 ^ (e + 1) : Nat) : Rat)⁻¹ := by
      rw [Rat.natCast_pow]
      rfl
    simp only [gridStep, decimal, hpower, Rat.natCast_mul, Rat.div_def]
    grind

/-- A multiple is taken only if it lies in the interval. -/
theorem Interval.contains_of_multiple? {i : Interval} {exponent : Int} {digits : Nat}
    (h : i.multiple? exponent = some digits) :
    i.Contains (decimal digits exponent * unitsOfOne) := by
  rw [← mul_gridStep]
  refine contains_of_holds (gridStep_pos exponent) ?_
  simp only [Interval.multiple?] at h
  split at h
  next hboth =>
    obtain ⟨hlower, hupper⟩ := Bool.and_eq_true_iff.mp hboth
    -- The nearer one is taken, and that is one of the two in any case.
    generalize hq : i.mid * (gridStep exponent).2 / (gridStep exponent).1 = q at *
    have hdigits : digits = q ∨ digits = q + 1 := by
      have hnearer := Option.some.inj h
      split at hnearer
      · exact .inl hnearer.symm
      · split at hnearer <;> omega
    rcases hdigits with rfl | rfl
    · exact hlower
    · exact hupper
  next =>
    split at h
    next hlower =>
      obtain rfl := Option.some.inj h
      exact hlower
    next =>
      split at h
      next hupper =>
        obtain rfl := Option.some.inj h
        exact hupper
      next => exact absurd h (by simp)

/-- Whatever the search finds lies in the interval. -/
theorem Interval.contains_of_search {i : Interval} {digits : Nat} {found : Int} :
    ∀ {tries : Nat} {exponent : Int}, i.search tries exponent = some (digits, found) →
      i.Contains (decimal digits found * unitsOfOne)
  | 0, _, h => absurd h (by simp [Interval.search])
  | tries + 1, exponent, h => by
    simp only [Interval.search] at h
    split at h
    next hmultiple =>
      obtain ⟨rfl, rfl⟩ := Prod.mk.inj (Option.some.inj h)
      exact contains_of_multiple? hmultiple
    next => exact contains_of_search h

/-- A double that is not zero lies inside its own interval, and zero outside. -/
theorem inside_interval {d : Double} (h : d.mantissa ≠ 0) :
    0 < d.interval.low ∧ d.interval.low < 4 * d.steps ∧ 4 * d.steps < d.interval.high := by
  have hpos := Nat.two_pow_pos d.scale
  have hsteps : 1 * 2 ^ d.scale ≤ d.steps :=
    Nat.mul_le_mul_right _ (Nat.one_le_iff_ne_zero.mpr h)
  simp only [interval]
  generalize 2 ^ d.scale = unit at *
  split <;> omega

/-- A double lies in its own interval. -/
theorem contains_steps {d : Double} (h : d.mantissa ≠ 0) :
    d.interval.Contains (4 * d.steps) := by
  obtain ⟨-, hlow, hhigh⟩ := inside_interval h
  exact Interval.contains_of_lt (by exact_mod_cast hlow) (by exact_mod_cast hhigh)

/-- The exact decimal expansion of a fraction with a power of two. -/
theorem decimal_exact (m : Nat) {n k : Nat} {e : Int} (he : e = -n) (hk : k = n + 2) :
    decimal (m * 5 ^ n) e * ((2 ^ k : Nat) : Rat) = 4 * m := by
  subst he hk
  have hten : (10 : Rat) ^ n = ((5 ^ n : Nat) : Rat) * ((2 ^ n : Nat) : Rat) := by
    rw [← Rat.natCast_mul, ← Nat.mul_pow]
    exact (Rat.natCast_pow 10 n).symm
  have hfour : ((2 ^ (n + 2) : Nat) : Rat) = ((2 ^ n : Nat) : Rat) * 4 := by
    rw [Nat.pow_add, Rat.natCast_mul]
    rfl
  have hne : (10 : Rat) ^ n ≠ 0 := (Rat.ne_of_lt (Rat.pow_pos (by decide))).symm
  rw [hten] at hne
  rw [decimal, Rat.zpow_neg, Rat.zpow_natCast, hten, hfour, Rat.natCast_mul]
  generalize ((5 ^ n : Nat) : Rat) = fives at *
  generalize ((2 ^ n : Nat) : Rat) = twos at *
  calc m * fives * (fives * twos)⁻¹ * (twos * 4)
      = m * ((fives * twos) * (fives * twos)⁻¹) * 4 := by grind
    _ = 4 * m := by rw [Rat.mul_inv_cancel _ hne, Rat.mul_one, Rat.mul_comm]

/-- The shortest decimal of a double rounds to it. -/
theorem contains_shortest {d : Double} (h : d.mantissa ≠ 0) :
    d.interval.Contains (decimal d.shortest.1 d.shortest.2 * unitsOfOne) := by
  simp only [shortest]
  generalize ((Nat.log2 d.interval.mid : Int) - 1076) * 30103 / 100000 + 1 = top
  cases hsearch : d.interval.search 24 top with
  | some found => exact Interval.contains_of_search hsearch
  | none =>
    -- The last resort is the double itself. As numerals the exponents would be computed with.
    rw [Option.getD_none, unitsOfOne]
    generalize hn : (1074 : Nat) = n
    generalize hk : (1076 : Nat) = k
    rw [decimal_exact d.steps (by omega) (by omega)]
    exact contains_steps h

/-- Doubles of one sign are told apart by the values of their shortest decimals. -/
theorem eq_of_shortest {a b : Double} (ha : a.mantissa ≠ 0) (hb : b.mantissa ≠ 0)
    (hsign : a.negative = b.negative)
    (h : decimal a.shortest.1 a.shortest.2 = decimal b.shortest.1 b.shortest.2) : a = b := by
  have hin := contains_shortest hb
  rw [← h] at hin
  exact eq_of_steps_eq hsign (steps_eq_of_contains (contains_shortest ha) hin)

end Double

end StepPlan
