import StepPlan.Json.Lexer

/-!
# The ways to write a number

A number literal is a whole part without leading zeros; a minus sign may stand before it, a fraction
and an exponent behind it (`Numeral.IsLiteral`). The reader follows every literal to its end and
finds it whole there, so it is read as a number wherever something stands behind it that ends it:
`scan_literal`. Which number that is, `Numeral.valueOf` says from the literal alone.
-/

namespace StepPlan.Json

namespace Numeral

/-! ## Literals -/

/-- Digits, at least one. -/
def IsDigits (cs : List Char) : Prop :=
  cs ≠ [] ∧ ∀ c ∈ cs, c.isDigit = true

/-- A zero alone, or digits of which the first is none. -/
inductive IsWholePart : List Char → Prop where
  | zero : IsWholePart ['0']
  | digits {c : Char} {cs : List Char} (hzero : c ≠ '0') (hfirst : c.isDigit = true)
      (hrest : ∀ d ∈ cs, d.isDigit = true) : IsWholePart (c :: cs)

/-- A point and digits, or nothing. -/
inductive IsFractionPart : List Char → Prop where
  | absent : IsFractionPart []
  | present {ds : List Char} (h : IsDigits ds) : IsFractionPart ('.' :: ds)

/-- A mark and digits that may have a sign, or nothing. -/
inductive IsExponentPart : List Char → Prop where
  | absent : IsExponentPart []
  | present {mark : Char} {sign ds : List Char} (hmark : mark = 'e' ∨ mark = 'E')
      (hsign : sign = [] ∨ sign = ['+'] ∨ sign = ['-']) (h : IsDigits ds) :
      IsExponentPart (mark :: (sign ++ ds))

/-- A number literal. -/
inductive IsLiteral : List Char → Prop where
  | parts {sign whole fraction exponent : List Char} (hsign : sign = [] ∨ sign = ['-'])
      (hwhole : IsWholePart whole) (hfraction : IsFractionPart fraction)
      (hexponent : IsExponentPart exponent) :
      IsLiteral (sign ++ (whole ++ (fraction ++ exponent)))

/-! ## Reading literals -/

/-- The literal with some characters more, if they continue it. -/
def after? (n : Numeral) (cs : List Char) : Option Numeral :=
  cs.foldlM next? n

/-- The literal of a first character alone. -/
def start? (c : Char) : Option Numeral :=
  if c = '-' then some minus else if c.isDigit then some (first false c) else none

/-- The literal that some characters are. -/
def ofChars? : List Char → Option Numeral
  | [] => none
  | c :: cs => (start? c).bind (after? · cs)

/-- A literal of which nothing has been read, and which has no minus sign. -/
def unsigned : Numeral :=
  { minus with negative := false }

/-- The number that a literal stands for; nothing when it is too large for a finite double. -/
def valueOf (cs : List Char) : Option Number :=
  (ofChars? cs).bind value?

/-- A whole part is read as if it were behind a sign. -/
theorem ofChars?_of_isWholePart {whole : List Char} (h : IsWholePart whole) (rest : List Char) :
    ofChars? (whole ++ rest) = unsigned.after? (whole ++ rest) := by
  obtain ⟨c, cs, rfl, hc⟩ : ∃ c cs, whole = c :: cs ∧ c.isDigit = true := by
    cases h with
    | zero => exact ⟨'0', [], rfl, by decide⟩
    | digits hzero hfirst hrest => exact ⟨_, _, rfl, hfirst⟩
  have hminus : c ≠ '-' := by
    rintro rfl
    exact absurd hc (by decide)
  have hnext : unsigned.next? c = some (first false c) := if_pos hc
  rw [List.cons_append, ofChars?, start?, if_neg hminus, if_pos hc, after?, List.foldlM_cons,
    hnext]
  rfl

/-- The characters continue the literal up to one of these phases. -/
def Reaches (n : Numeral) (cs : List Char) (phases : List NumeralPhase) : Prop :=
  ∃ n', n.after? cs = some n' ∧ n'.phase ∈ phases

/-- Without characters the literal stays in its phase. -/
theorem Reaches.nil {n : Numeral} {phases : List NumeralPhase} (h : n.phase ∈ phases) :
    n.Reaches [] phases :=
  ⟨n, rfl, h⟩

/-- A character that is accepted is the first step of the way. -/
theorem Reaches.cons {n n' : Numeral} {c : Char} {cs : List Char} {phases : List NumeralPhase}
    (hnext : n.next? c = some n') (h : n'.Reaches cs phases) : n.Reaches (c :: cs) phases := by
  obtain ⟨n'', hafter, hphase⟩ := h
  refine ⟨n'', ?_, hphase⟩
  rw [after?, List.foldlM_cons, hnext]
  exact hafter

/-- Two stretches of characters are followed one after the other. -/
theorem Reaches.append {n : Numeral} {cs ds : List Char} {phases phases' : List NumeralPhase}
    (h : n.Reaches cs phases) (h' : ∀ n' : Numeral, n'.phase ∈ phases → n'.Reaches ds phases') :
    n.Reaches (cs ++ ds) phases' := by
  obtain ⟨n', hafter, hphase⟩ := h
  obtain ⟨n'', hafter', hphase'⟩ := h' n' hphase
  refine ⟨n'', ?_, hphase'⟩
  rw [after?, List.foldlM_append]
  show n.after? cs >>= (·.after? ds) = _
  rw [hafter]
  exact hafter'

/-- More phases are reached all the more. -/
theorem Reaches.mono {n : Numeral} {cs : List Char} {phases phases' : List NumeralPhase}
    (h : n.Reaches cs phases) (hsub : phases ⊆ phases') : n.Reaches cs phases' := by
  obtain ⟨n', hafter, hphase⟩ := h
  exact ⟨n', hafter, hsub hphase⟩

/-- Digits go on among digits. -/
theorem reaches_digits {n : Numeral} {phase : NumeralPhase}
    (hloop : phase = .digits ∨ phase = .fraction ∨ phase = .exponent) (hn : n.phase = phase)
    {ds : List Char} (hds : ∀ d ∈ ds, d.isDigit = true) : n.Reaches ds [phase] := by
  induction ds generalizing n with
  | nil => exact .nil (by rw [hn]; exact List.mem_singleton_self _)
  | cons d ds ih =>
    have hd : d.isDigit = true := hds d (List.mem_cons_self ..)
    have hrest : ∀ e ∈ ds, e.isDigit = true := fun e he => hds e (List.mem_cons_of_mem _ he)
    obtain ⟨n', hnext, hn'⟩ : ∃ n', n.next? d = some n' ∧ n'.phase = phase := by
      rcases hloop with rfl | rfl | rfl <;> exact ⟨_, by rw [next?, hn]; exact if_pos hd, rfl⟩
    exact .cons hnext (ih hn' hrest)

/-- Digits behind a point, a mark or a sign lead among digits. -/
theorem reaches_of_isDigits {n : Numeral} {phase : NumeralPhase}
    (hloop : phase = .fraction ∨ phase = .exponent)
    (hfirst : ∀ d : Char, d.isDigit = true → ∃ n', n.next? d = some n' ∧ n'.phase = phase)
    {ds : List Char} (h : IsDigits ds) : n.Reaches ds [phase] := by
  obtain ⟨hne, hds⟩ := h
  cases ds with
  | nil => exact absurd rfl hne
  | cons d ds =>
    obtain ⟨n', hnext, hn'⟩ := hfirst d (hds d (List.mem_cons_self ..))
    exact .cons hnext
      (reaches_digits (.inr hloop) hn' fun e he => hds e (List.mem_cons_of_mem _ he))

/-- A whole part leads behind a zero or into the digits. -/
theorem reaches_wholePart {n : Numeral} (hn : n.phase = .sign) {cs : List Char}
    (h : IsWholePart cs) : n.Reaches cs [.zero, .digits] := by
  have hnext : ∀ c : Char, c.isDigit = true → n.next? c = some (first n.negative c) := by
    intro c hc
    rw [next?, hn]
    exact if_pos hc
  cases h with
  | zero => exact .cons (hnext '0' (by decide)) (.nil (List.mem_cons_self ..))
  | digits hzero hfirst hrest =>
    refine .cons (hnext _ hfirst) (.mono (reaches_digits (.inl rfl) ?_ hrest) (by decide))
    exact if_neg hzero

/-- A fraction leads into its digits, and none leaves the whole part. -/
theorem reaches_fractionPart {n : Numeral} (hn : n.phase ∈ [.zero, .digits]) {cs : List Char}
    (h : IsFractionPart cs) : n.Reaches cs [.zero, .digits, .fraction] := by
  cases h with
  | absent => exact .mono (.nil hn) (by decide)
  | present h =>
    obtain ⟨n', hnext, hn'⟩ : ∃ n', n.next? '.' = some n' ∧ n'.phase = .point := by
      simp only [List.mem_cons, List.not_mem_nil, or_false] at hn
      rcases hn with hn | hn <;> exact ⟨_, by rw [next?, hn]; rfl, rfl⟩
    refine .cons hnext (.mono (reaches_of_isDigits (.inl rfl) ?_ h) (by decide))
    exact fun d hd => ⟨_, by rw [next?, hn']; exact if_pos hd, rfl⟩

/-- An exponent leads into its digits, and none leaves what came before it. -/
theorem reaches_exponentPart {n : Numeral} (hn : n.phase ∈ [.zero, .digits, .fraction])
    {cs : List Char} (h : IsExponentPart cs) :
    n.Reaches cs [.zero, .digits, .fraction, .exponent] := by
  cases h with
  | absent => exact .mono (.nil hn) (by decide)
  | present hmark hsign h =>
    rename_i mark sign ds
    obtain ⟨n', hnext, hn'⟩ : ∃ n', n.next? mark = some n' ∧ n'.phase = .mark := by
      simp only [List.mem_cons, List.not_mem_nil, or_false] at hn
      rcases hn with hn | hn | hn <;> rcases hmark with rfl | rfl <;>
        exact ⟨_, by rw [next?, hn]; rfl, rfl⟩
    -- Behind the mark the digits follow at once or after a sign.
    have hdigits : ∀ n' : Numeral, n'.phase = .mark ∨ n'.phase = .markSign →
        n'.Reaches ds [.exponent] := by
      intro n' hn'
      refine reaches_of_isDigits (.inr rfl) (fun d hd => ?_) h
      rcases hn' with hn' | hn' <;> exact ⟨_, by rw [next?, hn']; exact if_pos hd, rfl⟩
    refine .cons hnext (.mono ?_ (by decide : [NumeralPhase.exponent] ⊆ _))
    rcases hsign with rfl | rfl | rfl
    · exact hdigits n' (.inl hn')
    · exact .cons (by rw [next?, hn']; rfl) (hdigits _ (.inr rfl))
    · exact .cons (by rw [next?, hn']; rfl) (hdigits _ (.inr rfl))

/-- A literal is read to its end and may end there. -/
theorem exists_ofChars_of_isLiteral {cs : List Char} (h : IsLiteral cs) :
    ∃ n, ofChars? cs = some n ∧ n.isWhole = true := by
  obtain @⟨sign, whole, fraction, exponent, hsign, hwhole, hfraction, hexponent⟩ := h
  have hreaches : ∀ n : Numeral, n.phase = .sign →
      n.Reaches (whole ++ (fraction ++ exponent)) [.zero, .digits, .fraction, .exponent] :=
    fun n hn => (reaches_wholePart hn hwhole).append fun _ hn =>
      (reaches_fractionPart hn hfraction).append fun _ hn => reaches_exponentPart hn hexponent
  have hend : ∀ n : Numeral, n.phase ∈ [.zero, .digits, .fraction, .exponent] →
      n.isWhole = true := by
    intro n hn
    simp only [List.mem_cons, List.not_mem_nil, or_false] at hn
    rcases hn with hn | hn | hn | hn <;> rw [isWhole, hn]
  rcases hsign with rfl | rfl
  · obtain ⟨n, hafter, hn⟩ := hreaches unsigned rfl
    exact ⟨n, (ofChars?_of_isWholePart hwhole _).trans hafter, hend n hn⟩
  · obtain ⟨n, hafter, hn⟩ := hreaches minus rfl
    exact ⟨n, hafter, hend n hn⟩

/-! ## Where a number ends -/

/-- The character may stand behind a number. -/
def Ends (c : Char) : Prop :=
  Mode.isBlank c = true ∨ c = ',' ∨ c = ']' ∨ c = '}'

/-- Nothing that may stand behind a number continues it. -/
theorem next?_of_ends {n : Numeral} {c : Char} (h : Ends c) : n.next? c = none := by
  obtain ⟨hdigit, hpoint, hmark, hplus, hminus⟩ :
      c.isDigit = false ∧ c ≠ '.' ∧ isMark c = false ∧ c ≠ '+' ∧ c ≠ '-' := by
    simp only [Ends, Mode.isBlank, Bool.or_eq_true, decide_eq_true_eq] at h
    rcases h with (((rfl | rfl) | rfl) | rfl) | rfl | rfl | rfl <;> decide
  obtain ⟨phase, negative, decimal, exponentNegative, exponent⟩ := n
  cases phase <;> simp [next?, hdigit, hpoint, hmark, hplus, hminus]

/-- A literal that is whole may end before what ends numbers. -/
theorem endsBefore_of_ends {n : Numeral} {c : Char} (hn : n.isWhole = true) (h : Ends c) :
    n.endsBefore c = true := by
  have hdigit : c.isDigit = false := by
    simp only [Ends, Mode.isBlank, Bool.or_eq_true, decide_eq_true_eq] at h
    rcases h with (((rfl | rfl) | rfl) | rfl) | rfl | rfl | rfl <;> decide
  rw [endsBefore, hn, hdigit, Bool.and_false]
  rfl

end Numeral

/-! ## Scanning -/

/-- A character that continues the literal completes nothing. -/
theorem Mode.step_number_of_next? {n n' : Numeral} {c : Char} {cs : List Char}
    (h : n.next? c = some n') : (Mode.number n).step c cs = ([], .number n') := by
  simp only [Mode.step, h]

/-- A character that ends the literal completes it and is then read for itself. -/
theorem Mode.step_number_of_endsBefore {n : Numeral} {c : Char} {cs : List Char}
    (h : n.next? c = none) (hends : n.endsBefore c = true) :
    (Mode.number n).step c cs = (.num n.value? :: (Mode.start c).1, (Mode.start c).2) := by
  simp only [Mode.step, h, hends, if_true]

/-- A minus sign or a digit starts a number. -/
theorem Mode.start_of_start? {n : Numeral} {c : Char} (h : Numeral.start? c = some n) :
    Mode.start c = ([], .number n) := by
  rw [Numeral.start?] at h
  split at h
  next hminus =>
    obtain rfl := Option.some.inj h
    rw [hminus]
    rfl
  next hminus =>
    split at h
    next hdigit =>
      obtain rfl := Option.some.inj h
      unfold Mode.start
      split
      case h_12 =>
        have hblank : ¬Mode.isBlank c = true := by
          simp only [Mode.isBlank, Bool.or_eq_true, decide_eq_true_eq]
          rintro (((rfl | rfl) | rfl) | rfl) <;> exact absurd hdigit (by decide)
        rw [if_neg hblank, if_pos hdigit]
      -- The others are characters that are no digits.
      all_goals exact absurd hdigit (by decide)
    next => cases h

/-- A number is read on through characters that continue it. -/
theorem scan_of_after? {n n' : Numeral} {cs : List Char} (h : n.after? cs = some n')
    (rest : List Char) :
    Token.scan (.number n) (cs ++ rest) = Token.scan (.number n') rest := by
  induction cs generalizing n with
  | nil =>
    obtain rfl := Option.some.inj h
    rfl
  | cons c cs ih =>
    rw [Numeral.after?, List.foldlM_cons] at h
    obtain ⟨n'', hnext, hafter⟩ := Option.bind_eq_some_iff.mp h
    rw [List.cons_append, Token.scan_cons, Mode.step_number_of_next? hnext]
    exact ih hafter

/-- A whole number ends where something stands that ends it. -/
theorem scan_number_of_ends {n : Numeral} (hn : n.isWhole = true) {rest : List Char}
    (h : ∀ c ∈ rest.head?, Numeral.Ends c) :
    Token.scan (.number n) rest = .num n.value? :: Token.scan .between rest := by
  cases rest with
  | nil => exact if_pos hn
  | cons c rest =>
    have hc : Numeral.Ends c := h c rfl
    rw [Token.scan_cons, Token.scan_cons, Mode.step_number_of_endsBefore
      (Numeral.next?_of_ends hc) (Numeral.endsBefore_of_ends hn hc)]
    rfl

/-- A literal is read as a number, with what stands behind it read on its own. -/
theorem scan_literal {cs : List Char} (hcs : Numeral.IsLiteral cs) {rest : List Char}
    (h : ∀ c ∈ rest.head?, Numeral.Ends c) :
    Token.scan .between (cs ++ rest)
      = .num (Numeral.valueOf cs) :: Token.scan .between rest := by
  obtain ⟨n, hofChars, hwhole⟩ := Numeral.exists_ofChars_of_isLiteral hcs
  have hscan : Token.scan .between (cs ++ rest) = Token.scan (.number n) rest := by
    cases cs with
    | nil => cases hofChars
    | cons c cs =>
      obtain ⟨n', hstart, hafter⟩ := Option.bind_eq_some_iff.mp hofChars
      rw [List.cons_append, Token.scan_cons, Mode.step, Mode.start_of_start? hstart]
      exact scan_of_after? hafter rest
  rw [hscan, scan_number_of_ends hwhole h, Numeral.valueOf, hofChars]
  rfl

end StepPlan.Json
