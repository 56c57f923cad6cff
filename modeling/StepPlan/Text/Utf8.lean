import StepPlan.Number.Double

/-!
# UTF-8

Texts as bytes and back. A character takes one to four bytes: the first one says how many, and
every other one lies in `80..BF`; after some first bytes the second one is bounded more tightly,
which rules out overlong forms, surrogates and codes beyond the last plane.

`decode` reads the bytes one by one with a `Reader`. It says of bytes that are no text where the
valid part ends and how long the piece is that cannot start any character; it gives no length when
the bytes end inside a character. Main statement: the bytes of characters are decoded to them
(`decode_encode`).
-/

namespace StepPlan.Text.Utf8

/-- The bytes of a character. -/
def encodeChar (c : Char) : List UInt8 :=
  let n := c.toNat
  if n < 0x80 then [.ofNat n]
  else if n < 0x800 then [.ofNat (0xC0 + n / 0x40), .ofNat (0x80 + n % 0x40)]
  else if n < 0x10000 then
    [.ofNat (0xE0 + n / 0x1000), .ofNat (0x80 + n / 0x40 % 0x40), .ofNat (0x80 + n % 0x40)]
  else
    [.ofNat (0xF0 + n / 0x40000), .ofNat (0x80 + n / 0x1000 % 0x40),
      .ofNat (0x80 + n / 0x40 % 0x40), .ofNat (0x80 + n % 0x40)]

/-- The bytes of some characters. -/
def encode (cs : List Char) : List UInt8 :=
  cs.flatMap encodeChar

/-- Why bytes are no text. -/
structure Invalid where
  /-- The number of bytes in front that are text. -/
  validUpTo : Nat
  /-- The length of the piece behind them that starts no character; none when the bytes end inside a
  character. -/
  errorLength : Option Nat
deriving DecidableEq

/-- The byte continues a character. -/
def isContinuation (b : UInt8) : Bool :=
  0x80 ≤ b.toNat && b.toNat < 0xC0

/-- The number of bytes of a character with this first byte; zero when no character starts so. -/
def width (a : UInt8) : Nat :=
  let n := a.toNat
  if n < 0x80 then 1
  else if n < 0xC2 then 0
  else if n < 0xE0 then 2
  else if n < 0xF0 then 3
  else if n < 0xF5 then 4
  else 0

/-- The byte `b` may be the second one after `a`. -/
def isSecond (a b : UInt8) : Bool :=
  let n := b.toNat
  match a.toNat with
  | 0xE0 => 0xA0 ≤ n && n < 0xC0
  | 0xED => 0x80 ≤ n && n < 0xA0
  | 0xF0 => 0x90 ≤ n && n < 0xC0
  | 0xF4 => 0x80 ≤ n && n < 0x90
  | _ => isContinuation b

/-- A character of which some bytes have been read. -/
structure Part where
  first : UInt8
  seen : Nat
  left : Nat
  bits : Nat

namespace Part

/-- The part that a first byte makes. -/
def ofFirst (a : UInt8) : Part :=
  ⟨a, 1, width a - 1, if width a = 1 then a.toNat else a.toNat % 2 ^ (7 - width a)⟩

/-- The byte may come next. -/
def accepts (p : Part) (b : UInt8) : Bool :=
  if p.seen = 1 then isSecond p.first b else isContinuation b

/-- The part with one byte more. -/
def push (p : Part) (b : UInt8) : Part :=
  ⟨p.first, p.seen + 1, p.left - 1, p.bits * 0x40 + b.toNat % 0x40⟩

end Part

/-- How far bytes have been decoded: where the character at hand starts, and what has been read of
it. -/
structure Reader where
  start : Nat
  part : Option Part

namespace Reader

/-- A part is complete when no byte is to come; then it is a character. -/
def settle (r : Reader) (p : Part) : Option Char × Reader :=
  if p.left = 0 then (some (Char.ofNat p.bits), ⟨r.start + p.seen, none⟩)
  else (none, ⟨r.start, some p⟩)

/-- Reads a byte, which may complete a character. -/
def step (r : Reader) (b : UInt8) : Except Invalid (Option Char × Reader) :=
  match r.part with
  | none => if width b = 0 then .error ⟨r.start, some 1⟩ else .ok (r.settle (.ofFirst b))
  | some p =>
    if p.accepts b then .ok (r.settle (p.push b)) else .error ⟨r.start, some p.seen⟩

/-- The characters of the bytes to come. -/
def run (r : Reader) : List UInt8 → Except Invalid (List Char)
  | [] =>
    match r.part with
    | none => .ok []
    | some _ => .error ⟨r.start, none⟩
  | b :: bytes =>
    match r.step b with
    | .error e => .error e
    | .ok (none, r) => r.run bytes
    | .ok (some c, r) => (c :: ·) <$> r.run bytes

end Reader

/-- The characters of some bytes. -/
def decode (bytes : List UInt8) : Except Invalid (List Char) :=
  Reader.run ⟨0, none⟩ bytes

/-! ## Bytes of characters are read as those characters -/

/-- A character is no surrogate and lies in the seventeen planes. -/
theorem char_range (c : Char) : c.toNat < 0xD800 ∨ 0xDFFF < c.toNat ∧ c.toNat < 0x110000 :=
  c.valid

/-- A number below 256 is its own byte. -/
theorem toNat_byte {n : Nat} (h : n < 0x100) : (UInt8.ofNat n).toNat = n :=
  UInt8.toNat_ofNat_of_lt' h

/-- A byte below 0x80 is read as a character of its own. -/
private theorem run_one {a : UInt8} {c : Char} (start : Nat) (rest : List UInt8)
    (ha : a.toNat = c.toNat) (hc : c.toNat < 0x80) :
    Reader.run ⟨start, none⟩ (a :: rest) = (c :: ·) <$> Reader.run ⟨start + 1, none⟩ rest := by
  have hw : width a = 1 := by simp [width, ha, hc]
  simp [Reader.run, Reader.step, Reader.settle, Part.ofFirst, hw, ha]

/-- Two bytes are read as the character whose eleven bits they carry. -/
private theorem run_two {a b : UInt8} {c : Char} (start : Nat) (rest : List UInt8)
    (ha : a.toNat = 0xC0 + c.toNat / 0x40) (hb : b.toNat = 0x80 + c.toNat % 0x40)
    (hlow : 0x80 ≤ c.toNat) (hhigh : c.toNat < 0x800) :
    Reader.run ⟨start, none⟩ (a :: b :: rest)
      = (c :: ·) <$> Reader.run ⟨start + 2, none⟩ rest := by
  have hw : width a = 2 := by grind [width]
  have hs : isSecond a b = true := by grind [isSecond, isContinuation]
  have hbits : a.toNat % 32 * 64 + b.toNat % 64 = c.toNat := by omega
  simp [Reader.run, Reader.step, Reader.settle, Part.ofFirst, Part.accepts, Part.push, hw, hs,
    hbits]

/-- Three bytes are read as the character whose sixteen bits they carry: it is no surrogate, so the
second byte is let through. -/
private theorem run_three {a b d : UInt8} {c : Char} (start : Nat) (rest : List UInt8)
    (ha : a.toNat = 0xE0 + c.toNat / 0x1000) (hb : b.toNat = 0x80 + c.toNat / 0x40 % 0x40)
    (hd : d.toNat = 0x80 + c.toNat % 0x40) (hlow : 0x800 ≤ c.toNat) (hhigh : c.toNat < 0x10000) :
    Reader.run ⟨start, none⟩ (a :: b :: d :: rest)
      = (c :: ·) <$> Reader.run ⟨start + 3, none⟩ rest := by
  have hc := char_range c
  have hw : width a = 3 := by grind [width]
  have hs : isSecond a b = true := by grind [isSecond, isContinuation]
  have hk : isContinuation d = true := by grind [isContinuation]
  have hbits : (a.toNat % 16 * 64 + b.toNat % 64) * 64 + d.toNat % 64 = c.toNat := by omega
  simp [Reader.run, Reader.step, Reader.settle, Part.ofFirst, Part.accepts, Part.push, hw, hs, hk,
    hbits]

/-- Four bytes are read as the character whose 21 bits they carry. -/
private theorem run_four {a b d e : UInt8} {c : Char} (start : Nat) (rest : List UInt8)
    (ha : a.toNat = 0xF0 + c.toNat / 0x40000) (hb : b.toNat = 0x80 + c.toNat / 0x1000 % 0x40)
    (hd : d.toNat = 0x80 + c.toNat / 0x40 % 0x40) (he : e.toNat = 0x80 + c.toNat % 0x40)
    (hlow : 0x10000 ≤ c.toNat) :
    Reader.run ⟨start, none⟩ (a :: b :: d :: e :: rest)
      = (c :: ·) <$> Reader.run ⟨start + 4, none⟩ rest := by
  have hc := char_range c
  have hw : width a = 4 := by grind [width]
  have hs : isSecond a b = true := by grind [isSecond, isContinuation]
  have hk : isContinuation d = true := by grind [isContinuation]
  have hl : isContinuation e = true := by grind [isContinuation]
  have hbits : ((a.toNat % 8 * 64 + b.toNat % 64) * 64 + d.toNat % 64) * 64 + e.toNat % 64
      = c.toNat := by omega
  simp [Reader.run, Reader.step, Reader.settle, Part.ofFirst, Part.accepts, Part.push, hw, hs, hk,
    hl, hbits]

/-- The bytes of a character are read as it, whatever follows. -/
theorem run_encodeChar (c : Char) (start : Nat) (rest : List UInt8) :
    Reader.run ⟨start, none⟩ (encodeChar c ++ rest)
      = (c :: ·) <$> Reader.run ⟨start + (encodeChar c).length, none⟩ rest := by
  have hc := char_range c
  rw [encodeChar]
  split
  · exact run_one start rest (toNat_byte (by omega)) (by omega)
  · split
    · exact run_two start rest (toNat_byte (by omega)) (toNat_byte (by omega)) (by omega)
        (by omega)
    · split
      · exact run_three start rest (toNat_byte (by omega)) (toNat_byte (by omega))
          (toNat_byte (by omega)) (by omega) (by omega)
      · exact run_four start rest (toNat_byte (by omega)) (toNat_byte (by omega))
          (toNat_byte (by omega)) (toNat_byte (by omega)) (by omega)

/-- Whatever is encoded is read back, from any position on. -/
theorem run_encode (cs : List Char) (start : Nat) :
    Reader.run ⟨start, none⟩ (encode cs) = .ok cs := by
  induction cs generalizing start with
  | nil => rfl
  | cons c cs ih =>
    simp only [encode, List.flatMap_cons] at ih ⊢
    rw [run_encodeChar, ih]
    rfl

/-- The bytes of characters are decoded to them. -/
theorem decode_encode (cs : List Char) : decode (encode cs) = .ok cs :=
  run_encode cs 0

end StepPlan.Text.Utf8
