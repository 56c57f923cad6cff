import StepPlan.Bytes.Value
import StepPlan.Proofs.Text.Utf8

/-!
# Bytes that are read as a value

`Decoder.Reads x bytes a` says that the decoder `x` takes exactly `bytes` and makes `a` of them,
whatever stands behind. Decoders that are run one after the other read the bytes of all
(`Reads.bind`), so the fields of a record are dealt with one at a time. Every value of the format is
read from what it is written as, provided its length is a word of 64 bits.
-/

namespace StepPlan.Bytes.Decoder

variable {α β : Type}

/-- The decoder takes these bytes and no more, and makes `a` of them. -/
def Reads (x : Decoder α) (bytes : List UInt8) (a : α) : Prop :=
  ∀ rest, x (bytes ++ rest) = .ok (a, rest)

/-- One decoder after another. -/
theorem Reads.bind {x : Decoder α} {f : α → Decoder β} {bs cs : List UInt8} {a : α} {b : β}
    (hx : Reads x bs a) (hf : Reads (f a) cs b) : Reads (x >>= f) (bs ++ cs) b := by
  intro rest
  rw [List.append_assoc, bind_ok (hx (cs ++ rest))]
  exact hf rest

theorem reads_pure (a : α) : Reads (pure a) [] a :=
  fun _ => rfl

/-- What is made of a value takes no bytes. -/
theorem Reads.bind_pure {x : Decoder α} {bs : List UInt8} {a : α} (hx : Reads x bs a)
    (f : α → β) : Reads (x >>= fun a => pure (f a)) bs (f a) := by
  have h := hx.bind (f := fun a => pure (f a)) (reads_pure (f a))
  rwa [List.append_nil] at h

/-- Two decoders that succeed one after the other succeed one by one. -/
theorem exists_of_bind_ok {x : Decoder α} {f : α → Decoder β} {bytes rest : List UInt8} {b : β}
    (h : (x >>= f) bytes = .ok (b, rest)) :
    ∃ a more, x bytes = .ok (a, more) ∧ f a more = .ok (b, rest) := by
  cases hx : x bytes with
  | error e =>
    rw [bind_error hx] at h
    cases h
  | ok p =>
    rw [bind_ok hx] at h
    exact ⟨p.1, p.2, rfl, h⟩

/-! ## Numbers -/

/-- A number of 64 bits is read from its shortest form. -/
theorem reads_natural (wanted : IntegerType) {n : Nat} (h : n < 2 ^ (64 : Nat)) :
    Reads (natural wanted) (encodeNat n) n :=
  natural_encodeNat wanted h

/-- The bytes that are left make no difference to a number that is in order. -/
theorem reads_word {n : Nat} (h : n < 2 ^ (64 : Nat)) : Reads word (encodeNat n) n := by
  intro rest
  have hleft : left (encodeNat n ++ rest)
      = .ok ((encodeNat n ++ rest).length, encodeNat n ++ rest) := rfl
  rw [word, bind_ok hleft]
  exact natural_encodeNat _ h rest

/-- The number of a variant has no form of eight bytes, and needs none. -/
theorem reads_index {n : Nat} (h : n < 2 ^ (32 : Nat)) : Reads index (encodeNat n) n := by
  intro rest
  rw [encodeNat]
  split
  next hn =>
    have hb : (UInt8.ofNat n).toNat = n := Text.Utf8.toNat_byte (by omega)
    rw [index, List.singleton_append, bind_ok (byte_cons _ rest), hb, if_pos hn, pure_apply]
  next =>
    split
    next hn =>
      have hw : n < 256 ^ (2 : Nat) := hn
      exact fixed_littleEndian hw rest
    next =>
      have hw : n < 256 ^ (4 : Nat) := h
      exact fixed_littleEndian hw rest

/-! ## Everything else -/

/-- A truth value is read back. -/
theorem reads_bool (b : Bool) : Reads bool (encodeBool b) b := by
  intro rest
  cases b <;> rfl

/-- A text is read back if its length fits a word. The length counts bytes, not characters. -/
theorem reads_string {s : String} (h : s.utf8ByteSize < 2 ^ (64 : Nat)) :
    Reads string (encodeString s) s := by
  rw [← Text.Utf8.length_encode] at h
  refine (reads_word h).bind ?_
  -- Behind the length stands the text itself, which decoding undoes.
  intro rest
  rw [bind_ok (take_append _ rest), Text.Utf8.decode_encode]
  show Except.ok (String.ofList s.toList, rest) = _
  rw [String.ofList_toList]

/-- An option is read back if what it holds is. -/
theorem reads_option {x : Decoder α} {encode : α → List UInt8} {o : Option α}
    (h : ∀ a, o = some a → Reads x (encode a) a) :
    Reads (option x) (encodeOption encode o) o := by
  cases o with
  | none => intro rest; rfl
  | some a =>
    intro rest
    show (x >>= fun a => pure (some a)) (encode a ++ rest) = _
    exact (h a rfl).bind_pure some rest

/-- Whether something is there is told right, whatever then becomes of it. -/
theorem isNone_of_option_ok {x : Decoder α} {encode : α → List UInt8} {o o' : Option α}
    {rest more : List UInt8} (h : option x (encodeOption encode o ++ rest) = .ok (o', more)) :
    o'.isNone = o.isNone := by
  cases o with
  | none =>
    cases h
    rfl
  | some a =>
    have hsome : (x >>= fun a => pure (some a)) (encode a ++ rest) = .ok (o', more) := h
    obtain ⟨a', _, _, ha'⟩ := exists_of_bind_ok hsome
    cases ha'
    rfl

/-- A list is read back if its members are and its length fits a word. -/
theorem reads_list {x : Decoder α} {encode : α → List UInt8} {as : List α}
    (hlength : as.length < 2 ^ (64 : Nat)) (h : ∀ a ∈ as, Reads x (encode a) a) :
    Reads (list x) (encodeList encode as) as :=
  (reads_natural .usize hlength).bind (replicate_flatMap h)

end StepPlan.Bytes.Decoder
