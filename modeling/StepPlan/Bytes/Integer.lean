import StepPlan.Bytes.Decoder

/-!
# Integers of varying length

A number below 251 is its own byte. Larger ones follow a marker that tells their width, least byte
first: `FB` for two bytes, `FC` for four, `FD` for eight. Writing takes the shortest form that fits;
reading takes any. Main statement: the shortest form of a number of 64 bits is read as it, whatever
follows (`Decoder.natural_encodeNat`).
-/

namespace StepPlan.Bytes

/-- A number in so many bytes, the least one first. -/
def littleEndian : Nat → Nat → List UInt8
  | 0, _ => []
  | width + 1, n => .ofNat (n % 256) :: littleEndian width (n / 256)

/-- The number that some bytes stand for. -/
def ofLittleEndian : List UInt8 → Nat
  | [] => 0
  | b :: bs => b.toNat + 256 * ofLittleEndian bs

/-- A number of a given width takes that many bytes. -/
@[simp] theorem length_littleEndian (width n : Nat) : (littleEndian width n).length = width := by
  induction width generalizing n with
  | zero => rfl
  | succ width ih => simp [littleEndian, ih]

/-- A number that fits its width is read back from its bytes. -/
theorem ofLittleEndian_littleEndian {width n : Nat} (h : n < 256 ^ width) :
    ofLittleEndian (littleEndian width n) = n := by
  induction width generalizing n with
  | zero =>
    rw [Nat.pow_zero] at h
    rw [littleEndian, ofLittleEndian]
    omega
  | succ width ih =>
    have hq : n / 256 < 256 ^ width := by
      rw [Nat.pow_succ] at h
      exact Nat.div_lt_of_lt_mul (by omega)
    have hb : (UInt8.ofNat (n % 256)).toNat = n % 256 := Text.Utf8.toNat_byte (by omega)
    rw [littleEndian, ofLittleEndian, hb, ih hq]
    omega

/-- The shortest form of a number of 64 bits. -/
def encodeNat (n : Nat) : List UInt8 :=
  if n < 251 then [.ofNat n]
  else if n < 2 ^ (16 : Nat) then 0xFB :: littleEndian 2 n
  else if n < 2 ^ (32 : Nat) then 0xFC :: littleEndian 4 n
  else 0xFD :: littleEndian 8 n

namespace Decoder

/-- Takes a number in so many bytes. -/
def fixed (width : Nat) : Decoder Nat := do
  let bytes ← take width
  return ofLittleEndian bytes

/-- Takes a number of at most 64 bits. A marker of no such number is reported with the type
`wanted`. -/
def natural (wanted : IntegerType) : Decoder Nat := do
  let marker ← byte
  if marker.toNat < 251 then return marker.toNat
  else if marker = 0xFB then fixed 2
  else if marker = 0xFC then fixed 4
  else if marker = 0xFD then fixed 8
  else if marker = 0xFE then fail (.integerType wanted .u128)
  else fail (.integerType wanted .reserved)

/-- Takes the length of a list. -/
def length : Decoder Nat :=
  natural .usize

/-- Takes a word of 64 bits, or the length of a string. What a wrong marker is reported as depends
on how much is left: with nine bytes or more, a word of 32 bits was wanted. -/
def word : Decoder Nat := do
  let n ← left
  natural (if n < 9 then .u64 else .u32)

/-- Takes the number of a variant, in at most 32 bits. -/
def index : Decoder Nat := do
  let marker ← byte
  if marker.toNat < 251 then return marker.toNat
  else if marker = 0xFB then fixed 2
  else if marker = 0xFC then fixed 4
  else if marker = 0xFD then fail (.integerType .u32 .u64)
  else if marker = 0xFE then fail (.integerType .u32 .u128)
  else fail (.integerType .u32 .reserved)

/-- A number that fits its width is taken from its bytes, whatever follows. -/
theorem fixed_littleEndian {width n : Nat} (h : n < 256 ^ width) (rest : List UInt8) :
    fixed width (littleEndian width n ++ rest) = .ok (n, rest) := by
  have ht := take_append (littleEndian width n) rest
  rw [length_littleEndian] at ht
  rw [fixed, bind_ok ht, ofLittleEndian_littleEndian h, pure_apply]

/-- The shortest form of a number is read as it. -/
theorem natural_encodeNat (wanted : IntegerType) {n : Nat} (h : n < 2 ^ (64 : Nat))
    (rest : List UInt8) :
    natural wanted (encodeNat n ++ rest) = .ok (n, rest) := by
  rw [encodeNat]
  split
  · next hn =>
    have hb : (UInt8.ofNat n).toNat = n := Text.Utf8.toNat_byte (by omega)
    rw [natural, List.singleton_append, bind_ok (byte_cons _ rest), hb, if_pos hn, pure_apply]
  · split
    · next hn =>
      have hw : n < 256 ^ (2 : Nat) := hn
      exact fixed_littleEndian hw rest
    · split
      · next hn =>
        have hw : n < 256 ^ (4 : Nat) := hn
        exact fixed_littleEndian hw rest
      · have hw : n < 256 ^ (8 : Nat) := h
        exact fixed_littleEndian hw rest

end Decoder

end StepPlan.Bytes
