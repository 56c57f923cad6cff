import StepPlan.Text.Utf8

/-!
# Decoding bytes

A decoder takes what it needs from the front of the bytes and leaves the rest, or says what is
wrong. The first thing wrong in the order of reading is what counts.
-/

namespace StepPlan.Bytes

/-- Types of integers, as messages name them. -/
inductive IntegerType where
  | u32
  | u64
  | u128
  | usize
  /-- No integer at all. -/
  | reserved
deriving DecidableEq

/-- The name of an integer type. -/
def IntegerType.name : IntegerType → String
  | .u32 => "U32"
  | .u64 => "U64"
  | .u128 => "U128"
  | .usize => "Usize"
  | .reserved => "Reserved"

/-- What is wrong with some bytes. -/
inductive DecodeError where
  /-- So many bytes more were needed. -/
  | unexpectedEnd (additional : Nat)
  | integerType (wanted found : IntegerType)
  | notBoolean (byte : UInt8)
  | notOption (byte : UInt8)
  | noVariant (index count : Nat)
  | notText (reason : Text.Utf8.Invalid)
deriving DecidableEq

/-- The message of an error. Braces are written by their code. -/
def DecodeError.message : DecodeError → String
  | .unexpectedEnd n => "UnexpectedEnd \x7b additional: " ++ Nat.repr n ++ " \x7d"
  | .integerType wanted found =>
    "InvalidIntegerType \x7b expected: " ++ wanted.name ++ ", found: " ++ found.name ++ " \x7d"
  | .notBoolean b => "InvalidBooleanValue(" ++ Nat.repr b.toNat ++ ")"
  | .notOption b =>
    "UnexpectedVariant \x7b type_name: \"Option<T>\", "
      ++ "allowed: Range \x7b min: 0, max: 1 \x7d, found: " ++ Nat.repr b.toNat ++ " \x7d"
  | .noVariant index count =>
    "OtherString(\"invalid value: integer `" ++ Nat.repr index
      ++ "`, expected variant index 0 <= i < " ++ Nat.repr count ++ "\")"
  | .notText reason =>
    "Utf8 \x7b inner: Utf8Error \x7b valid_up_to: " ++ Nat.repr reason.validUpTo ++ ", error_len: "
      ++ (match reason.errorLength with
        | some n => "Some(" ++ Nat.repr n ++ ")"
        | none => "None")
      ++ " \x7d \x7d"

/-- Takes a value from the front of the bytes. -/
def Decoder (α : Type) : Type :=
  List UInt8 → Except DecodeError (α × List UInt8)

namespace Decoder

/-- Takes nothing. -/
protected def pure {α : Type} (a : α) : Decoder α :=
  fun bytes => .ok (a, bytes)

/-- Takes one value and then another. -/
protected def bind {α β : Type} (x : Decoder α) (f : α → Decoder β) : Decoder β :=
  fun bytes =>
    match x bytes with
    | .ok (a, rest) => f a rest
    | .error e => .error e

instance : Monad Decoder where
  pure := Decoder.pure
  bind := Decoder.bind

@[simp] theorem pure_apply {α : Type} (a : α) (bytes : List UInt8) :
    (pure a : Decoder α) bytes = .ok (a, bytes) := rfl

/-- What stands second goes on with what the first one left. -/
theorem bind_ok {α β : Type} {x : Decoder α} {f : α → Decoder β} {bytes rest : List UInt8} {a : α}
    (h : x bytes = .ok (a, rest)) : (x >>= f) bytes = f a rest := by
  show Decoder.bind x f bytes = f a rest
  rw [Decoder.bind, h]

/-- What the first one fails with is what both fail with. -/
theorem bind_error {α β : Type} {x : Decoder α} {f : α → Decoder β} {bytes : List UInt8}
    {e : DecodeError} (h : x bytes = .error e) : (x >>= f) bytes = .error e := by
  show Decoder.bind x f bytes = .error e
  rw [Decoder.bind, h]

/-- Always fails. -/
def fail {α : Type} (e : DecodeError) : Decoder α :=
  fun _ => .error e

/-- Takes so many bytes. -/
def take (n : Nat) : Decoder (List UInt8) :=
  fun bytes =>
    if bytes.length < n then .error (.unexpectedEnd (n - bytes.length))
    else .ok (bytes.splitAt n)

/-- So many bytes as stand in front are what is taken. -/
theorem take_append (front rest : List UInt8) :
    take front.length (front ++ rest) = .ok (front, rest) := by
  simp [take, List.splitAt_eq]

/-- Takes one byte. -/
def byte : Decoder UInt8
  | [] => .error (.unexpectedEnd 1)
  | b :: rest => .ok (b, rest)

@[simp] theorem byte_cons (b : UInt8) (rest : List UInt8) :
    byte (b :: rest) = .ok (b, rest) := rfl

/-- The number of bytes that are left. -/
def left : Decoder Nat :=
  fun bytes => .ok (bytes.length, bytes)

/-- Takes so many values. -/
def replicate {α : Type} (x : Decoder α) : Nat → Decoder (List α)
  | 0 => pure []
  | n + 1 => do
    let a ← x
    let as ← replicate x n
    return a :: as

/-- If values are read back from their bytes one by one, then all of them from all their bytes. -/
theorem replicate_flatMap {α : Type} {x : Decoder α} {encode : α → List UInt8} {as : List α}
    (h : ∀ a ∈ as, ∀ rest, x (encode a ++ rest) = .ok (a, rest)) (rest : List UInt8) :
    replicate x as.length (as.flatMap encode ++ rest) = .ok (as, rest) := by
  induction as with
  | nil => rfl
  | cons a as ih =>
    have hrest := ih fun b hb => h b (List.mem_cons_of_mem a hb)
    simp only [List.flatMap_cons, List.length_cons, List.append_assoc, replicate]
    rw [bind_ok (h a (List.mem_cons_self ..) _), bind_ok hrest, pure_apply]

/-- The value at the front of the bytes, whatever follows it. -/
def run {α : Type} (x : Decoder α) (bytes : List UInt8) : Except DecodeError α :=
  match x bytes with
  | .ok (a, _) => .ok a
  | .error e => .error e

end Decoder

end StepPlan.Bytes
