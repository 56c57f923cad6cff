import StepPlan.Number.Basic
import StepPlan.Number.Decimal

/-!
# From characters to tokens

What a text is read into first. A text that is no JSON fails in one of two ways: it ends too early
(`Fault.truncated`), or something in it is wrong (`Fault.malformed`). A token may be flawed in a way
that matters to some readings only: a member that nobody asks for is passed over without looking at
the size of its numbers or the pairing of its surrogates, so such tokens stay in the list, with no
value. A piece of text that no reading gets past is a `Broken` token, the last of its list.

`Token.ofChars` reads a text in one pass, one character a step: `Mode` is what the reader is in the
middle of, and `Mode.step` says which tokens a character completes and what the reader is in the
middle of then. A number ends with the character after it, so a step may complete two tokens. The
first piece that is no token stops the reader.
-/

namespace StepPlan.Json

/-! ## Tokens -/

/-- Why a text is no JSON. -/
inductive Fault where
  /-- The text ends too early. -/
  | truncated
  /-- Something in the text is wrong. -/
  | malformed
deriving DecidableEq

/-- A piece of text that is no token. -/
structure Broken where
  /-- A string may start so. Where a key is wanted, any other piece is malformed. -/
  mayBeKey : Bool
  /-- Its fault where a value is wanted. -/
  strict : Fault
  /-- Its fault where anything is passed over. -/
  lax : Fault
deriving DecidableEq

/-- A token of a JSON text. -/
inductive Token where
  | openArray
  | closeArray
  | openObject
  | closeObject
  | colon
  | comma
  | null
  | bool (value : Bool)
  /-- A number; without a value when it is too large for a finite double. -/
  | num (value : Option Number)
  /-- A closed string; without a value when it has an unpaired surrogate. -/
  | str (value : Option String)
  /-- A piece of text that is no token. -/
  | broken (piece : Broken)
deriving DecidableEq

/-! ## Number literals

A number literal is read character by character: `Numeral.next?` says which characters may follow
what has been read, `Numeral.isWhole` where the literal may end, and `Numeral.value?` which number
it stands for. A literal without fraction and exponent is a whole number if that is in range and
not a negative zero; every other literal is a double, see `Decimal.double?`. -/

/-- How far a number literal has been read. -/
inductive NumeralPhase where
  | sign
  | zero
  | digits
  | point
  | fraction
  | mark
  | markSign
  | exponent
deriving DecidableEq

/-- A number literal, as far as it has been read. -/
structure Numeral where
  phase : NumeralPhase
  negative : Bool
  decimal : Decimal
  exponentNegative : Bool
  exponent : Nat
deriving DecidableEq

namespace Numeral

/-- The value of a decimal digit. -/
def digit (c : Char) : Nat :=
  c.toNat - '0'.toNat

/-- The literal of a minus sign alone. -/
def minus : Numeral :=
  ⟨.sign, true, .ofDigit 0, false, 0⟩

/-- The literal of a first digit alone. -/
def first (negative : Bool) (c : Char) : Numeral :=
  ⟨if c = '0' then .zero else .digits, negative, .ofDigit (digit c), false, 0⟩

/-- The character marks an exponent. -/
def isMark (c : Char) : Bool :=
  c == 'e' || c == 'E'

/-- The literal with one character more, if that character continues it. -/
def next? (n : Numeral) (c : Char) : Option Numeral :=
  match n.phase with
  | .sign => if c.isDigit then some (first n.negative c) else none
  | .zero =>
    if c = '.' then some { n with phase := .point }
    else if isMark c then some { n with phase := .mark }
    else none
  | .digits =>
    if c.isDigit then some { n with decimal := n.decimal.wholeDigit (digit c) }
    else if c = '.' then some { n with phase := .point, decimal := n.decimal.point }
    else if isMark c then some { n with phase := .mark }
    else none
  | .point =>
    if c.isDigit then
      some { n with phase := .fraction, decimal := n.decimal.fractionDigit (digit c) }
    else none
  | .fraction =>
    if c.isDigit then some { n with decimal := n.decimal.fractionDigit (digit c) }
    else if isMark c then some { n with phase := .mark }
    else none
  | .mark =>
    if c.isDigit then some { n with phase := .exponent, exponent := digit c }
    else if c = '+' then some { n with phase := .markSign }
    else if c = '-' then some { n with phase := .markSign, exponentNegative := true }
    else none
  | .markSign =>
    if c.isDigit then some { n with phase := .exponent, exponent := digit c } else none
  | .exponent =>
    if c.isDigit then some { n with exponent := n.exponent * 10 + digit c } else none

/-- The literal may end here. -/
def isWhole (n : Numeral) : Bool :=
  match n.phase with
  | .zero | .digits | .fraction | .exponent => true
  | .sign | .point | .mark | .markSign => false

/-- The literal is followed by this character, which does not continue it, and is whole all the
same. A leading zero is followed by no digit. -/
def endsBefore (n : Numeral) (c : Char) : Bool :=
  n.isWhole && !(n.phase == .zero && c.isDigit)

/-- The literal as a double. -/
def double? (n : Numeral) : Option Number :=
  let exponent : Int := if n.exponentNegative then -n.exponent else n.exponent
  ((n.decimal.scaled exponent).double? n.negative).map .double

/-- The number that a whole literal stands for; nothing when it is too large for a finite double. -/
def value? (n : Numeral) : Option Number :=
  match n.phase with
  | .zero | .digits =>
    let value : Int := if n.negative then -n.decimal.digits else n.decimal.digits
    if n.decimal.full ∨ (n.negative ∧ n.decimal.digits = 0) then n.double?
    else if Number.leastInt ≤ value ∧ value ≤ Number.greatestInt then some (.int value)
    else n.double?
  | _ => n.double?

end Numeral

/-! ## String literals

Strings are collected as `Piece`s, since a character outside the basic plane may be spelled as two
escapes: `spelled` joins the surrogates of a closed string, and `spoiled` tells of an unclosed one
whether it has a surrogate that nothing to come can pair. -/

/-- A character of a string literal, or an escaped code of four hexadecimal digits. -/
inductive Piece where
  | char (c : Char)
  /-- An escaped code. -/
  | code (unit : Nat)
deriving DecidableEq

namespace Piece

/-- A code that a trailing surrogate must follow. -/
def isLeading (unit : Nat) : Bool :=
  0xD800 ≤ unit && unit < 0xDC00

/-- A code that must follow a leading surrogate. -/
def isTrailing (unit : Nat) : Bool :=
  0xDC00 ≤ unit && unit < 0xE000

/-- The character that a pair of surrogates stands for. -/
def joined (leading trailing : Nat) : Char :=
  Char.ofNat (0x10000 + (leading - 0xD800) * 0x400 + (trailing - 0xDC00))

/-- The characters of a closed string; nothing when a surrogate is not paired. -/
def spelled : List Piece → Option (List Char)
  | [] => some []
  | .char c :: rest => (spelled rest).map (c :: ·)
  | .code u :: rest =>
    if isTrailing u then none
    else if isLeading u then
      match rest with
      | .code v :: rest =>
        if isTrailing v then (spelled rest).map (joined u v :: ·) else none
      | _ => none
    else (spelled rest).map (Char.ofNat u :: ·)

/-- Some surrogate is not paired, and nothing that may follow can pair it. -/
def spoiled : List Piece → Bool
  | [] => false
  | .char _ :: rest => spoiled rest
  | .code u :: rest =>
    if isTrailing u then true
    else if isLeading u then
      match rest with
      | [] => false
      | .code v :: rest => if isTrailing v then spoiled rest else true
      | .char _ :: _ => true
    else spoiled rest

end Piece

/-- What the reader of a text is in the middle of. Pieces of a string stand last first. -/
inductive Mode where
  | between
  /-- A word of which these characters are to come. -/
  | word (next : Char) (rest : List Char) (token : Token)
  | number (numeral : Numeral)
  | text (pieces : List Piece)
  /-- A string, after a backslash. -/
  | escape (pieces : List Piece)
  /-- A string, in an escaped code of which so many digits have been read. -/
  | code (pieces : List Piece) (count value : Nat)
  /-- Nothing more: the text is broken. -/
  | halted
deriving DecidableEq

namespace Mode

/-- The blanks that may stand between tokens. -/
def isBlank (c : Char) : Bool :=
  c = ' ' || c = '\t' || c = '\n' || c = '\r'

/-- The value of a hexadecimal digit in either case. -/
def hexDigit? (c : Char) : Option Nat :=
  if c.isDigit then some (c.toNat - '0'.toNat)
  else if 'a' ≤ c ∧ c ≤ 'f' then some (c.toNat - 'a'.toNat + 10)
  else if 'A' ≤ c ∧ c ≤ 'F' then some (c.toNat - 'A'.toNat + 10)
  else none

/-- The character that a backslash and this one stand for. -/
def escaped? (c : Char) : Option Char :=
  match c with
  | '"' => some '"'
  | '\\' => some '\\'
  | '/' => some '/'
  | 'b' => some '\x08'
  | 'f' => some '\x0c'
  | 'n' => some '\n'
  | 'r' => some '\r'
  | 't' => some '\t'
  | _ => none

/-- A piece outside strings that is no token. -/
def brokenWord (fault : Fault) : Token :=
  .broken ⟨false, fault, fault⟩

/-- A number that is cut short: passed over, it is malformed in any case. -/
def brokenNumber (fault : Fault) : Token :=
  .broken ⟨false, fault, .malformed⟩

/-- A string that breaks off. Where its value is wanted, an unpaired surrogate comes first. -/
def brokenText (pieces : List Piece) (fault : Fault) : Token :=
  .broken ⟨true, if Piece.spoiled pieces.reverse then .malformed else fault, fault⟩

/-- The token of a closed string. -/
def textToken (pieces : List Piece) : Token :=
  .str ((Piece.spelled pieces.reverse).map String.ofList)

/-- The first character of a token, or a blank. -/
def start (c : Char) : List Token × Mode :=
  match c with
  | '[' => ([.openArray], .between)
  | ']' => ([.closeArray], .between)
  | '{' => ([.openObject], .between)
  | '}' => ([.closeObject], .between)
  | ':' => ([.colon], .between)
  | ',' => ([.comma], .between)
  | 'n' => ([], .word 'u' ['l', 'l'] .null)
  | 't' => ([], .word 'r' ['u', 'e'] (.bool true))
  | 'f' => ([], .word 'a' ['l', 's', 'e'] (.bool false))
  | '"' => ([], .text [])
  | '-' => ([], .number .minus)
  | c =>
    if isBlank c then ([], .between)
    else if c.isDigit then ([], .number (.first false c))
    else ([brokenWord .malformed], .halted)

/-- The number of bytes that some characters take in UTF-8. -/
def byteCount (cs : List Char) : Nat :=
  cs.foldr (fun c count => c.utf8Size + count) 0

/-- The tokens that the character `c` completes, and what the reader is in the middle of after it.
The characters behind `c` matter to a faulty escape alone: a code is cut short when fewer than four
bytes are left for it. -/
def step (m : Mode) (c : Char) (behind : List Char) : List Token × Mode :=
  match m with
  | .between => start c
  | .word next rest token =>
    if c = next then
      match rest with
      | [] => ([token], .between)
      | next :: rest => ([], .word next rest token)
    else ([brokenWord .malformed], .halted)
  | .number n =>
    match n.next? c with
    | some n => ([], .number n)
    | none =>
      if n.endsBefore c then
        -- The number ends before `c`, which is read for itself.
        let (tokens, m) := start c
        (.num n.value? :: tokens, m)
      else ([brokenNumber .malformed], .halted)
  | .text pieces =>
    if c = '"' then ([textToken pieces], .between)
    else if c = '\\' then ([], .escape pieces)
    else if c.toNat < 0x20 then ([brokenText pieces .malformed], .halted)
    else ([], .text (.char c :: pieces))
  | .escape pieces =>
    if c = 'u' then ([], .code pieces 0 0)
    else
      match escaped? c with
      | some e => ([], .text (.char e :: pieces))
      | none => ([brokenText pieces .malformed], .halted)
  | .code pieces count value =>
    match hexDigit? c with
    | some d =>
      if count < 3 then ([], .code pieces (count + 1) (value * 16 + d))
      else ([], .text (.code (value * 16 + d) :: pieces))
    | none =>
      -- The digits that were read count among the four bytes.
      let left := count + byteCount ((c :: behind).take 4)
      ([brokenText pieces (if left < 4 then .truncated else .malformed)], .halted)
  | .halted => ([], .halted)

/-- The tokens that the end of the text completes. -/
def finish : Mode → List Token
  | .between => []
  | .word _ _ _ => [brokenWord .truncated]
  | .number n => if n.isWhole then [.num n.value?] else [brokenNumber .truncated]
  | .text pieces | .escape pieces | .code pieces _ _ => [brokenText pieces .truncated]
  | .halted => []

end Mode

namespace Token

/-- The tokens of a text from what the reader is in the middle of. -/
def scan : Mode → List Char → List Token
  | m, [] => m.finish
  | m, c :: cs =>
    match m.step c cs with
    | ([], m) => scan m cs
    | (tokens, m) => tokens ++ scan m cs

@[simp] theorem scan_nil (m : Mode) : scan m [] = m.finish := rfl

/-- A step completes its tokens before those of the rest of the text. -/
theorem scan_cons (m : Mode) (c : Char) (cs : List Char) :
    scan m (c :: cs) = (m.step c cs).1 ++ scan (m.step c cs).2 cs := by
  rw [scan]
  split <;> simp [*]

/-- The tokens of a text. -/
def ofChars (cs : List Char) : List Token :=
  scan .between cs

end Token

end StepPlan.Json
