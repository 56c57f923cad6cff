import StepPlan.Proofs.Json.StringText

/-!
# The ways to write a string

A character may stand in a string as itself, behind a backslash by its name, or by its code of four
hexadecimal digits in letters of any case; one beyond the basic plane by the codes of two
surrogates. `Spells` says which characters of a text spell which pieces, and `StandsFor` which
string the pieces stand for, if they stand for one: a surrogate alone stands for nothing.

The reader takes a string for what its spelling stands for, whatever the spelling (`scan_string`
with `spelled_of_standsFor`), and for nothing if it stands for nothing (`standsFor_of_spelled`).
-/

namespace StepPlan.Json

/-- The characters that have a name, each behind its name. -/
def escapes : List (Char × Char) :=
  [('"', '"'), ('\\', '\\'), ('/', '/'), ('b', '\x08'), ('f', '\x0c'), ('n', '\n'), ('r', '\r'),
    ('t', '\t')]

/-- A hexadecimal digit in either case. -/
inductive IsHexDigit : Nat → Char → Prop where
  | small {d : Nat} (h : d < 16) : IsHexDigit d (Nat.digitChar d)
  | capital {d : Nat} (h : d < 16) : IsHexDigit d (Nat.digitChar d).toUpper

/-- Four hexadecimal digits. -/
inductive IsCode : Nat → List Char → Prop where
  | digits {a b c d : Nat} {ca cb cc cd : Char} (ha : IsHexDigit a ca) (hb : IsHexDigit b cb)
      (hc : IsHexDigit c cc) (hd : IsHexDigit d cd) :
      IsCode (((a * 16 + b) * 16 + c) * 16 + d) [ca, cb, cc, cd]

/-- How a piece is written: a character as itself or by its name, a code by its digits. -/
inductive SpellsPiece : Piece → List Char → Prop where
  | plain {c : Char} (hquote : c ≠ '"') (hslash : c ≠ '\\') (hlow : 0x20 ≤ c.toNat) :
      SpellsPiece (.char c) [c]
  | named {name c : Char} (h : (name, c) ∈ escapes) : SpellsPiece (.char c) ['\\', name]
  | code {unit : Nat} {ds : List Char} (h : IsCode unit ds) :
      SpellsPiece (.code unit) ('\\' :: 'u' :: ds)

/-- How pieces are written, one after the other. -/
inductive Spells : List Piece → List Char → Prop where
  | nil : Spells [] []
  | cons {piece : Piece} {pieces : List Piece} {cs ds : List Char} (h : SpellsPiece piece cs)
      (hrest : Spells pieces ds) : Spells (piece :: pieces) (cs ++ ds)

/-- The characters that pieces stand for. A code stands for its character; the codes of two
surrogates stand for one character beyond the basic plane. -/
inductive StandsFor : List Piece → List Char → Prop where
  | nil : StandsFor [] []
  | char (c : Char) {pieces : List Piece} {cs : List Char} (h : StandsFor pieces cs) :
      StandsFor (.char c :: pieces) (c :: cs)
  | code (c : Char) {pieces : List Piece} {cs : List Char} (h : StandsFor pieces cs) :
      StandsFor (.code c.toNat :: pieces) (c :: cs)
  | pair {leading trailing : Nat} {c : Char} {pieces : List Piece} {cs : List Char}
      (hleading : 0xD800 ≤ leading ∧ leading < 0xDC00)
      (htrailing : 0xDC00 ≤ trailing ∧ trailing < 0xE000)
      (hc : c.toNat = 0x10000 + (leading - 0xD800) * 0x400 + (trailing - 0xDC00))
      (h : StandsFor pieces cs) :
      StandsFor (.code leading :: .code trailing :: pieces) (c :: cs)

/-! ## Spellings are read as what they stand for -/

/-- A hexadecimal digit is read as its value, in capitals and small letters. -/
theorem IsHexDigit.hexDigit?_eq {d : Nat} {c : Char} (h : IsHexDigit d c) :
    Mode.hexDigit? c = some d := by
  have hcapital : ∀ d < 16, Mode.hexDigit? (Nat.digitChar d).toUpper = some d := by
    decide +kernel
  cases h with
  | small h => exact hexDigit?_digitChar d h
  | capital h => exact hcapital d h

/-- An escape that is listed is one that the reader knows, and none starts a code. -/
theorem escaped?_of_mem {name c : Char} (h : (name, c) ∈ escapes) :
    name ≠ 'u' ∧ Mode.escaped? name = some c := by
  have hall : ∀ e ∈ escapes, e.1 ≠ 'u' ∧ Mode.escaped? e.1 = some e.2 := by decide
  exact hall (name, c) h

/-- A digit of a code is read. -/
theorem scan_code {d : Nat} {c : Char} (h : IsHexDigit d c) (before : List Piece)
    (count value : Nat) (rest : List Char) :
    Token.scan (.code before count value) (c :: rest)
      = if count < 3 then Token.scan (.code before (count + 1) (value * 16 + d)) rest
        else Token.scan (.text (.code (value * 16 + d) :: before)) rest := by
  simp only [Token.scan_cons, Mode.step, h.hexDigit?_eq]
  split
  next => rfl
  next => rfl

/-- A piece is read from its spelling. -/
theorem scan_piece {piece : Piece} {cs : List Char} (h : SpellsPiece piece cs)
    (before : List Piece) (rest : List Char) :
    Token.scan (.text before) (cs ++ rest) = Token.scan (.text (piece :: before)) rest := by
  cases h with
  | plain hquote hslash hlow =>
    rw [List.singleton_append, Token.scan_cons, Mode.step, if_neg hquote, if_neg hslash,
      if_neg (Nat.not_lt.mpr hlow)]
    rfl
  | named h =>
    obtain ⟨hu, hname⟩ := escaped?_of_mem h
    rw [List.cons_append, Token.scan_cons, List.singleton_append]
    show Token.scan (.escape before) (_ :: rest) = _
    rw [Token.scan_cons, Mode.step, if_neg hu, hname]
    rfl
  | code h =>
    obtain ⟨ha, hb, hc, hd⟩ := h
    show Token.scan (.code before 0 0) (_ :: _ :: _ :: _ :: rest) = _
    rw [scan_code ha, if_pos (by decide), scan_code hb, if_pos (by decide), scan_code hc,
      if_pos (by decide), scan_code hd, if_neg (by decide), Nat.zero_mul, Nat.zero_add]

/-- The pieces of a string are read off its spelling, the latest one in front. -/
theorem scan_pieces {pieces : List Piece} {cs : List Char} (h : Spells pieces cs)
    (rest : List Char) : ∀ before : List Piece,
    Token.scan (.text before) (cs ++ rest)
      = Token.scan (.text (pieces.reverse ++ before)) rest := by
  -- By induction on the spelling, with any pieces read before.
  induction h with
  | nil => intro before; rfl
  | cons hpiece hrest ih =>
    intro before
    rw [List.append_assoc, scan_piece hpiece, ih, List.reverse_cons, List.append_assoc,
      List.singleton_append]

/-- A string is read from its spelling between quotes. -/
theorem scan_string {pieces : List Piece} {cs : List Char} (h : Spells pieces cs)
    (rest : List Char) :
    Token.scan .between ('"' :: (cs ++ '"' :: rest))
      = .str ((Piece.spelled pieces).map String.ofList) :: Token.scan .between rest := by
  show Token.scan (.text []) (cs ++ '"' :: rest) = _
  rw [scan_pieces h, List.append_nil, Token.scan_cons, Mode.step, if_pos rfl, Mode.textToken,
    List.reverse_reverse]
  rfl

/-! ## What pieces stand for -/

/-- The code of a character is no surrogate. -/
theorem not_surrogate (c : Char) :
    Piece.isTrailing c.toNat = false ∧ Piece.isLeading c.toNat = false := by
  have hvalid : c.toNat < 0xD800 ∨ 0xDFFF < c.toNat ∧ c.toNat < 0x110000 := c.valid
  simp only [Piece.isTrailing, Piece.isLeading, Bool.and_eq_false_iff, decide_eq_false_iff_not]
  omega

/-- Two surrogates join to the character whose code they split. -/
theorem joined_eq {leading trailing : Nat} {c : Char}
    (hc : c.toNat = 0x10000 + (leading - 0xD800) * 0x400 + (trailing - 0xDC00)) :
    Piece.joined leading trailing = c := by
  rw [Piece.joined, ← hc, Char.ofNat_toNat]

/-- What pieces stand for, they are read as. -/
theorem spelled_of_standsFor {pieces : List Piece} {cs : List Char} (h : StandsFor pieces cs) :
    Piece.spelled pieces = some cs := by
  -- By induction on the pieces: a character, a code that is one, or a pair of surrogates.
  induction h with
  | nil => rfl
  | char c h ih => rw [Piece.spelled, ih]; rfl
  | code c h ih =>
    obtain ⟨htrailing, hleading⟩ := not_surrogate c
    rw [Piece.spelled.eq_def]
    simp only [htrailing, hleading, Bool.false_eq_true, if_false, ih, Char.ofNat_toNat,
      Option.map_some]
  | @pair leading trailing c pieces cs hleading htrailing hc h ih =>
    have htrail : Piece.isTrailing leading = false := by
      simp only [Piece.isTrailing, Bool.and_eq_false_iff, decide_eq_false_iff_not]
      omega
    have hlead : Piece.isLeading leading = true := by
      simp only [Piece.isLeading, Bool.and_eq_true, decide_eq_true_eq]
      exact hleading
    have htrail' : Piece.isTrailing trailing = true := by
      simp only [Piece.isTrailing, Bool.and_eq_true, decide_eq_true_eq]
      exact htrailing
    rw [Piece.spelled.eq_def]
    simp only [htrail, hlead, htrail', Bool.false_eq_true, if_false, if_true, ih, joined_eq hc,
      Option.map_some]

/-- Four hexadecimal digits spell a code of sixteen bits. -/
theorem lt_of_isCode {unit : Nat} {ds : List Char} (h : IsCode unit ds) : unit < 0x10000 := by
  have hlt : ∀ {d : Nat} {c : Char}, IsHexDigit d c → d < 16 := by
    rintro d c (h | h) <;> exact h
  obtain ⟨ha, hb, hc, hd⟩ := h
  have ha := hlt ha
  have hb := hlt hb
  have hc := hlt hc
  have hd := hlt hd
  omega

/-- Every escaped code of a spelling has sixteen bits. -/
theorem lt_of_mem_of_spells {pieces : List Piece} {cs : List Char} (h : Spells pieces cs) :
    ∀ unit, .code unit ∈ pieces → unit < 0x10000 := by
  induction h with
  | nil => intro unit hunit; cases hunit
  | cons hpiece hrest ih =>
    intro unit hunit
    rcases List.mem_cons.mp hunit with rfl | hunit
    · cases hpiece with
      | code h => exact lt_of_isCode h
    · exact ih unit hunit

/-- A code that is no surrogate is the code of a character. -/
theorem toNat_ofNat_of_not_surrogate {unit : Nat} (hlt : unit < 0x10000)
    (htrailing : Piece.isTrailing unit = false) (hleading : Piece.isLeading unit = false) :
    (Char.ofNat unit).toNat = unit := by
  simp only [Piece.isTrailing, Piece.isLeading, Bool.and_eq_false_iff,
    decide_eq_false_iff_not] at htrailing hleading
  have hvalid : unit.isValidChar := by
    unfold Nat.isValidChar
    omega
  rw [Char.ofNat, dif_pos hvalid]
  rfl

/-- Two surrogates join to the character that their codes give. -/
theorem toNat_joined {leading trailing : Nat} (hleading : 0xD800 ≤ leading ∧ leading < 0xDC00)
    (htrailing : 0xDC00 ≤ trailing ∧ trailing < 0xE000) :
    (Piece.joined leading trailing).toNat
      = 0x10000 + (leading - 0xD800) * 0x400 + (trailing - 0xDC00) := by
  have hvalid : (0x10000 + (leading - 0xD800) * 0x400 + (trailing - 0xDC00)).isValidChar := by
    unfold Nat.isValidChar
    omega
  rw [Piece.joined, Char.ofNat, dif_pos hvalid]
  rfl

/-- Pieces whose codes have four digits stand for the characters they are read as. -/
theorem standsFor_of_spelled {pieces : List Piece} {cs : List Char}
    (hlt : ∀ unit, .code unit ∈ pieces → unit < 0x10000) (h : Piece.spelled pieces = some cs) :
    StandsFor pieces cs := by
  fun_induction Piece.spelled pieces generalizing cs
  case case1 =>
    obtain rfl := Option.some.inj h
    exact .nil
  case case2 c rest ih =>
    obtain ⟨ds, hds, rfl⟩ := Option.map_eq_some_iff.mp h
    exact .char c (ih (fun unit hunit => hlt unit (List.mem_cons_of_mem _ hunit)) hds)
  case case4 u htrailing hleading v rest htrailing' ih =>
    obtain ⟨ds, hds, rfl⟩ := Option.map_eq_some_iff.mp h
    have hu : 0xD800 ≤ u ∧ u < 0xDC00 := by
      simpa [Piece.isLeading] using hleading
    have hv : 0xDC00 ≤ v ∧ v < 0xE000 := by
      simpa [Piece.isTrailing] using htrailing'
    have hrest : ∀ unit, .code unit ∈ rest → unit < 0x10000 := fun unit hunit =>
      hlt unit (List.mem_cons_of_mem _ (List.mem_cons_of_mem _ hunit))
    exact .pair hu hv (toNat_joined hu hv) (ih hrest hds)
  case case7 u rest htrailing hleading ih =>
    obtain ⟨ds, hds, rfl⟩ := Option.map_eq_some_iff.mp h
    have hrest := ih (fun unit hunit => hlt unit (List.mem_cons_of_mem _ hunit)) hds
    have hcode := StandsFor.code (Char.ofNat u) hrest
    rwa [toNat_ofNat_of_not_surrogate (hlt u (List.mem_cons_self ..))
      (Bool.eq_false_iff.mpr htrailing) (Bool.eq_false_iff.mpr hleading)] at hcode
  -- The others are read as nothing.
  all_goals cases h

end StepPlan.Json
