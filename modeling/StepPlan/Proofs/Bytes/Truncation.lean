import StepPlan.Proofs.Bytes.Reads

/-!
# Bytes that are cut short

A decoder looks at its bytes from the front, so what it makes of them is settled as soon as it has
seen enough: with more bytes behind, a value stays that value and an error stays an error. Only
running out of bytes settles nothing. `Decoder.Anticipates` says so of two decoders, the second one
for the longer bytes, since what a wrong marker is reported as depends on how much is left
(`Decoder.word`).

Main statement: `Decoder.Anticipates.error_of_prefix`. Bytes that are read to their end are not read
when they are cut short; what is missing is what the error tells.
-/

namespace StepPlan.Bytes

/-- More bytes were needed. -/
def DecodeError.EndsEarly (e : DecodeError) : Prop :=
  ∃ n, e = .unexpectedEnd n

namespace Decoder

variable {α β : Type}

/-- What `x` makes of some bytes `y` makes of them with more behind, unless `x` runs out. -/
def Anticipates (x y : Decoder α) : Prop :=
  ∀ bytes more,
    match x bytes with
    | .ok (a, rest) => y (bytes ++ more) = .ok (a, rest ++ more)
    | .error e => e.EndsEarly ∨ ∃ e', y (bytes ++ more) = .error e'

/-- Bytes that are read to their end are not read when they are cut short. -/
theorem Anticipates.error_of_prefix {x : Decoder α} {bytes front : List UInt8} {a : α}
    (hx : Anticipates x x) (hread : x bytes = .ok (a, [])) (hfront : front <+: bytes)
    (hne : front ≠ bytes) : ∃ n, x front = .error (.unexpectedEnd n) := by
  obtain ⟨more, rfl⟩ := hfront
  have hsettled := hx front more
  cases hcut : x front with
  | ok p =>
    -- A value is there with all bytes, too, and then what was cut off is left behind.
    rw [hcut] at hsettled
    obtain ⟨-, hrest⟩ := Prod.mk.inj (Except.ok.inj (hsettled.symm.trans hread))
    obtain rfl : more = [] := (List.append_eq_nil_iff.mp hrest).2
    exact absurd (List.append_nil front).symm hne
  | error e =>
    rw [hcut] at hsettled
    rcases hsettled with ⟨n, rfl⟩ | ⟨e', he'⟩
    · exact ⟨n, rfl⟩
    · rw [hread] at he'
      cases he'

/-! ## How decoders are put together -/

/-- What takes nothing makes the same of longer bytes. -/
theorem anticipates_pure (a : α) : Anticipates (pure a) (pure a) :=
  fun _ _ => rfl

/-- What always fails does so on longer bytes, perhaps with another error. -/
theorem anticipates_fail (e e' : DecodeError) : Anticipates (α := α) (fail e) (fail e') :=
  fun _ _ => .inr ⟨e', rfl⟩

/-- Settled in both parts, settled in the whole. -/
theorem Anticipates.bind {x y : Decoder α} {f g : α → Decoder β} (hx : Anticipates x y)
    (hf : ∀ a, Anticipates (f a) (g a)) : Anticipates (x >>= f) (y >>= g) := by
  intro bytes more
  have hsettled := hx bytes more
  cases hxb : x bytes with
  | ok p =>
    rw [hxb] at hsettled
    rw [bind_ok hxb, bind_ok hsettled]
    exact hf p.1 p.2 more
  | error e =>
    rw [hxb] at hsettled
    rw [bind_error hxb]
    rcases hsettled with hend | ⟨e', he'⟩
    · exact .inl hend
    · exact .inr ⟨e', bind_error he'⟩

/-- Settled on both branches, settled on the one taken. -/
theorem Anticipates.ite {c : Prop} [Decidable c] {x y x' y' : Decoder α} (hx : Anticipates x y)
    (hx' : Anticipates x' y') : Anticipates (if c then x else x') (if c then y else y') := by
  by_cases h : c
  · rw [if_pos h, if_pos h]
    exact hx
  · rw [if_neg h, if_neg h]
    exact hx'

/-- A byte that is there is there with more behind. -/
theorem anticipates_byte : Anticipates byte byte := by
  intro bytes more
  cases bytes with
  | nil => exact .inl ⟨1, rfl⟩
  | cons b rest => rfl

/-- Bytes that are there are there with more behind; too few end early. -/
theorem anticipates_take (n : Nat) : Anticipates (take n) (take n) := by
  intro bytes more
  -- Either the bytes are too few, or what is behind them is out of reach.
  by_cases h : bytes.length < n
  · rw [take, if_pos h]
    exact .inl ⟨n - bytes.length, rfl⟩
  · have hle : n ≤ bytes.length := Nat.le_of_not_lt h
    have hlong : ¬(bytes ++ more).length < n := by
      rw [List.length_append]
      omega
    rw [take, if_neg h]
    simp only [take, if_neg hlong, List.splitAt_eq, List.take_append_of_le_length hle,
      List.drop_append_of_le_length hle]

/-- Values taken one by one are settled one by one. -/
theorem anticipates_replicate {x : Decoder α} (hx : Anticipates x x) :
    ∀ n, Anticipates (replicate x n) (replicate x n)
  | 0 => anticipates_pure []
  | n + 1 => hx.bind fun _ => (anticipates_replicate hx n).bind fun _ => anticipates_pure _

/-! ## The values of the format -/

/-- A number of fixed width is settled once its bytes are there. -/
theorem anticipates_fixed (width : Nat) : Anticipates (fixed width) (fixed width) :=
  (anticipates_take width).bind fun _ => anticipates_pure _

/-- Which type of number is wanted matters to errors alone. -/
theorem anticipates_natural (wanted wanted' : IntegerType) :
    Anticipates (natural wanted) (natural wanted') :=
  anticipates_byte.bind fun _ => .ite (anticipates_pure _) <|
    .ite (anticipates_fixed 2) <| .ite (anticipates_fixed 4) <| .ite (anticipates_fixed 8) <|
    .ite (anticipates_fail _ _) (anticipates_fail _ _)

/-- A word is wanted as one type or the other; only its errors tell. -/
theorem anticipates_word : Anticipates word word := by
  intro bytes more
  exact anticipates_natural (if bytes.length < 9 then .u64 else .u32)
    (if (bytes ++ more).length < 9 then .u64 else .u32) bytes more

/-- The number of a variant is settled once its bytes are there. -/
theorem anticipates_index : Anticipates index index :=
  anticipates_byte.bind fun _ => .ite (anticipates_pure _) <|
    .ite (anticipates_fixed 2) <| .ite (anticipates_fixed 4) <| .ite (anticipates_fail _ _) <|
    .ite (anticipates_fail _ _) (anticipates_fail _ _)

/-- A truth value is settled by its byte. -/
theorem anticipates_bool : Anticipates bool bool :=
  anticipates_byte.bind fun _ => .ite (anticipates_pure _) <|
    .ite (anticipates_pure _) (anticipates_fail _ _)

/-- A text is settled once its length and so many bytes are there. -/
theorem anticipates_string : Anticipates string string := by
  refine anticipates_word.bind fun n => (anticipates_take n).bind fun bytes => ?_
  -- Whether the text decodes depends on the bytes taken, which stay the same.
  cases Text.Utf8.decode bytes with
  | ok cs => exact anticipates_pure _
  | error reason => exact anticipates_fail _ _

/-- An option is settled by its first byte and what that announces. -/
theorem anticipates_option {x : Decoder α} (hx : Anticipates x x) :
    Anticipates (option x) (option x) :=
  anticipates_byte.bind fun _ => .ite (anticipates_pure _) <|
    .ite (hx.bind fun _ => anticipates_pure _) (anticipates_fail _ _)

/-- A list is settled once its length and its members are. -/
theorem anticipates_list {x : Decoder α} (hx : Anticipates x x) : Anticipates (list x) (list x) :=
  (anticipates_natural .usize .usize).bind fun n => anticipates_replicate hx n

end Decoder

end StepPlan.Bytes
