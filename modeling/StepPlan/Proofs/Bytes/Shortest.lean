import StepPlan.Proofs.Bytes.Reads

/-!
# The shortest bytes of a value

A number may be read from more bytes than it is written in, and nothing else may: a truth value, an
option and the text of a string have one form each. So what a decoder takes is either just what its
value is written as, or longer (`AtLeast`). `Decoder.Takes` says what a decoder takes from the front
of its bytes when it succeeds; it goes from the parts of a record to the whole by `Takes.bind`.

Lengths come from words of 64 bits, so what is read is short enough to be written again.
-/

namespace StepPlan.Bytes

/-- The bytes are the ones in question, or there are more of them. -/
def AtLeast (shortest bytes : List UInt8) : Prop :=
  bytes = shortest ∨ shortest.length < bytes.length

theorem atLeast_self (bytes : List UInt8) : AtLeast bytes bytes :=
  .inl rfl

/-- Nothing is shorter than no bytes at all. -/
theorem atLeast_nil (bytes : List UInt8) : AtLeast [] bytes := by
  cases bytes with
  | nil => exact .inl rfl
  | cons b bytes => exact .inr (Nat.succ_pos _)

/-- Parts that are at least as long make a whole that is; one longer part makes the whole longer. -/
theorem AtLeast.append {as bs as' bs' : List UInt8} (ha : AtLeast as as') (hb : AtLeast bs bs') :
    AtLeast (as ++ bs) (as' ++ bs') := by
  simp only [AtLeast, List.length_append] at ha hb ⊢
  -- The whole is as short as can be only if both parts are.
  rcases ha with rfl | ha
  · rcases hb with rfl | hb
    · exact .inl rfl
    · exact .inr (by omega)
  · rcases hb with rfl | hb
    · exact .inr (by omega)
    · exact .inr (by omega)

namespace Decoder

variable {α β : Type}

/-- When the decoder makes a value of some bytes, the value and what is taken for it are so
related. -/
def Takes (x : Decoder α) (P : List UInt8 → α → Prop) : Prop :=
  ∀ bytes rest a, x bytes = .ok (a, rest) → ∃ front, bytes = front ++ rest ∧ P front a

/-- What takes nothing is related to no bytes. -/
theorem takes_pure {P : List UInt8 → α → Prop} {a : α} (h : P [] a) : Takes (pure a) P := by
  intro bytes rest b hb
  obtain ⟨rfl, rfl⟩ := Prod.mk.inj (Except.ok.inj hb)
  exact ⟨[], rfl, h⟩

/-- What always fails takes nothing. -/
theorem takes_fail (e : DecodeError) {P : List UInt8 → α → Prop} : Takes (fail e) P := by
  intro bytes rest a h
  cases h

/-- One decoder after another: the second one takes what stands behind the bytes of the first. -/
theorem Takes.bind {x : Decoder α} {f : α → Decoder β} {P : List UInt8 → α → Prop}
    {Q : List UInt8 → β → Prop} (hx : Takes x P)
    (hf : ∀ front a, P front a → Takes (f a) fun more b => Q (front ++ more) b) :
    Takes (x >>= f) Q := by
  intro bytes rest b h
  obtain ⟨a, behind, hxa, hfb⟩ := exists_of_bind_ok h
  obtain ⟨front, rfl, hfront⟩ := hx bytes behind a hxa
  obtain ⟨more, rfl, hmore⟩ := hf front a hfront behind rest b hfb
  exact ⟨front ++ more, (List.append_assoc _ _ _).symm, hmore⟩

/-- Of two decoders the one that the condition selects counts. -/
theorem Takes.ite {c : Prop} [Decidable c] {x y : Decoder α} {P : List UInt8 → α → Prop}
    (hx : c → Takes x P) (hy : ¬c → Takes y P) : Takes (if c then x else y) P := by
  by_cases h : c
  · rw [if_pos h]
    exact hx h
  · rw [if_neg h]
    exact hy h

/-- What holds of the bytes taken may be weakened. -/
theorem Takes.mono {x : Decoder α} {P Q : List UInt8 → α → Prop} (hx : Takes x P)
    (h : ∀ front a, P front a → Q front a) : Takes x Q := by
  intro bytes rest a ha
  obtain ⟨front, hbytes, hfront⟩ := hx bytes rest a ha
  exact ⟨front, hbytes, h front a hfront⟩

/-- One byte is taken for a byte. -/
theorem takes_byte : Takes byte fun front b => front = [b] := by
  intro bytes rest b h
  cases bytes with
  | nil => cases h
  | cons a bytes =>
    obtain ⟨rfl, rfl⟩ := Prod.mk.inj (Except.ok.inj h)
    exact ⟨[a], rfl, rfl⟩

/-- The bytes taken are the ones in front, as many as were asked for. -/
theorem takes_take (n : Nat) :
    Takes (take n) fun front taken => front = taken ∧ taken.length = n := by
  intro bytes rest taken h
  rw [take] at h
  split at h
  next => cases h
  next hn =>
    rw [List.splitAt_eq] at h
    obtain ⟨rfl, rfl⟩ := Prod.mk.inj (Except.ok.inj h)
    refine ⟨bytes.take n, (List.take_append_drop n bytes).symm, rfl, ?_⟩
    rw [List.length_take]
    omega

/-! ## Numbers -/

/-- Bytes are the form of the number that is read from them, which fits their width. -/
theorem littleEndian_ofLittleEndian (bytes : List UInt8) :
    littleEndian bytes.length (ofLittleEndian bytes) = bytes
      ∧ ofLittleEndian bytes < 256 ^ bytes.length := by
  induction bytes with
  | nil => exact ⟨rfl, by decide⟩
  | cons b bytes ih =>
    obtain ⟨hbytes, hlt⟩ := ih
    have hb := b.toNat_lt
    have hmod : (b.toNat + 256 * ofLittleEndian bytes) % 256 = b.toNat := by omega
    have hdiv : (b.toNat + 256 * ofLittleEndian bytes) / 256 = ofLittleEndian bytes := by omega
    rw [List.length_cons, littleEndian, ofLittleEndian, hmod, hdiv, hbytes, UInt8.ofNat_toNat,
      Nat.pow_succ]
    exact ⟨rfl, by omega⟩

/-- A number is taken in its own form of that width. -/
theorem takes_fixed (width : Nat) :
    Takes (fixed width) fun front n => front = littleEndian width n ∧ n < 256 ^ width := by
  refine (takes_take width).bind fun front taken h => takes_pure ?_
  obtain ⟨rfl, rfl⟩ := h
  obtain ⟨hbytes, hlt⟩ := littleEndian_ofLittleEndian front
  exact ⟨by rw [List.append_nil, hbytes], hlt⟩

/-- Any form of a number is at least as long as the shortest one. -/
theorem atLeast_two {n : Nat} (h : n < 256 ^ (2 : Nat)) :
    AtLeast (encodeNat n) (0xFB :: littleEndian 2 n) := by
  have hfits : n < 2 ^ (16 : Nat) := h
  rw [encodeNat, if_pos hfits]
  split
  · exact .inr (by simp)
  · exact atLeast_self _

/-- A form of four bytes behind its marker is the shortest one, or the number has a shorter. -/
theorem atLeast_four {n : Nat} (h : n < 256 ^ (4 : Nat)) :
    AtLeast (encodeNat n) (0xFC :: littleEndian 4 n) := by
  have hfits : n < 2 ^ (32 : Nat) := h
  rw [encodeNat, if_pos hfits]
  split
  · exact .inr (by simp)
  · split
    · exact .inr (by simp)
    · exact atLeast_self _

/-- A form of eight bytes behind its marker is the shortest one, or the number has a shorter. -/
theorem atLeast_eight (n : Nat) : AtLeast (encodeNat n) (0xFD :: littleEndian 8 n) := by
  rw [encodeNat]
  split
  · exact .inr (by simp)
  · split
    · exact .inr (by simp)
    · split
      · exact .inr (by simp)
      · exact atLeast_self _

/-- A byte that is no marker is the shortest form of its number. -/
theorem encodeNat_toNat {marker : UInt8} (h : marker.toNat < 251) :
    encodeNat marker.toNat = [marker] := by
  rw [encodeNat, if_pos h, UInt8.ofNat_toNat]

/-- Whatever its form, a number is taken in no fewer bytes than it is written in. -/
theorem takes_natural (wanted : IntegerType) :
    Takes (natural wanted) fun front n => AtLeast (encodeNat n) front ∧ n < 2 ^ (64 : Nat) := by
  refine takes_byte.bind fun front marker hfront => ?_
  subst hfront
  refine .ite (fun hsmall => takes_pure ?_) fun _ => .ite ?_ fun _ => .ite ?_ fun _ => .ite ?_
    fun _ => .ite (fun _ => takes_fail _) fun _ => takes_fail _
  -- One case a marker: the number itself, then two, four and eight bytes behind one.
  · rw [encodeNat_toNat hsmall]
    exact ⟨atLeast_self _, by omega⟩
  · rintro rfl
    refine (takes_fixed 2).mono ?_
    rintro more n ⟨rfl, hn⟩
    exact ⟨atLeast_two hn, by omega⟩
  · rintro rfl
    refine (takes_fixed 4).mono ?_
    rintro more n ⟨rfl, hn⟩
    exact ⟨atLeast_four hn, by omega⟩
  · rintro rfl
    refine (takes_fixed 8).mono ?_
    rintro more n ⟨rfl, hn⟩
    exact ⟨atLeast_eight n, hn⟩

/-- A word is taken in no fewer bytes than it is written in. -/
theorem takes_word :
    Takes word fun front n => AtLeast (encodeNat n) front ∧ n < 2 ^ (64 : Nat) := by
  intro bytes
  exact takes_natural (if bytes.length < 9 then .u64 else .u32) bytes

/-- The number of a variant is taken in no fewer bytes than it is written in. -/
theorem takes_index : Takes index fun front n => AtLeast (encodeNat n) front := by
  refine takes_byte.bind fun front marker hfront => ?_
  subst hfront
  refine .ite (fun hsmall => takes_pure ?_) fun _ => .ite ?_ fun _ => .ite ?_ fun _ =>
    .ite (fun _ => takes_fail _) fun _ => .ite (fun _ => takes_fail _) fun _ => takes_fail _
  · rw [encodeNat_toNat hsmall]
    exact atLeast_self _
  · rintro rfl
    refine (takes_fixed 2).mono ?_
    rintro more n ⟨rfl, hn⟩
    exact atLeast_two hn
  · rintro rfl
    refine (takes_fixed 4).mono ?_
    rintro more n ⟨rfl, hn⟩
    exact atLeast_four hn

/-! ## Everything else -/

/-- A truth value is taken in the one form it has. -/
theorem takes_bool : Takes bool fun front b => AtLeast (encodeBool b) front := by
  refine takes_byte.bind fun front b hfront => ?_
  subst hfront
  refine .ite ?_ fun _ => .ite ?_ fun _ => takes_fail _
  · rintro rfl
    exact takes_pure (atLeast_self _)
  · rintro rfl
    exact takes_pure (atLeast_self _)

/-- A text is taken in its one form, behind a length that may have a longer one. -/
theorem takes_string : Takes string fun front s =>
    AtLeast (encodeString s) front ∧ s.utf8ByteSize < 2 ^ (64 : Nat) := by
  refine takes_word.bind fun front n hn => (takes_take n).bind fun text bytes htext => ?_
  obtain ⟨hfront, hlt⟩ := hn
  obtain ⟨rfl, rfl⟩ := htext
  -- Decoding succeeds on encoded text alone, so the bytes are those the text is written in.
  cases hdecode : Text.Utf8.decode text with
  | error reason => exact takes_fail _
  | ok cs =>
    obtain rfl := Text.Utf8.decode_eq_ok_iff.mp hdecode
    refine takes_pure ⟨?_, ?_⟩
    · rw [List.append_nil, encodeString, String.toList_ofList]
      exact hfront.append (atLeast_self _)
    · rw [← Text.Utf8.length_encode, String.toList_ofList]
      exact hlt

section

variable {x : Decoder α} {encode : α → List UInt8} {P : α → Prop}
  (hx : Takes x fun front a => AtLeast (encode a) front ∧ P a)

include hx

/-- What is said of a decoder holds of what an option takes by it. -/
theorem takes_option : Takes (option x) fun front o =>
    AtLeast (encodeOption encode o) front ∧ ∀ a, o = some a → P a := by
  refine takes_byte.bind fun front b hfront => ?_
  subst hfront
  refine .ite ?_ fun _ => .ite ?_ fun _ => takes_fail _
  · rintro rfl
    exact takes_pure ⟨atLeast_self _, nofun⟩
  · rintro rfl
    refine hx.bind fun front a ha => takes_pure ?_
    obtain ⟨hfront, hP⟩ := ha
    rw [List.append_nil]
    refine ⟨(atLeast_self [1]).append hfront, ?_⟩
    rintro b heq
    obtain rfl := Option.some.inj heq
    exact hP

/-- What is said of a decoder holds of the members of a list that it takes one by one. -/
theorem takes_replicate (n : Nat) : Takes (replicate x n) fun front as =>
    as.length = n ∧ AtLeast (as.flatMap encode) front ∧ ∀ a ∈ as, P a := by
  -- By induction on the number of values, one more in front each time.
  induction n with
  | zero => exact takes_pure ⟨rfl, atLeast_self _, List.forall_mem_nil _⟩
  | succ n ih =>
    refine hx.bind fun front a ha => ih.bind fun more as has => takes_pure ?_
    obtain ⟨hfront, hP⟩ := ha
    obtain ⟨rfl, hmore, hall⟩ := has
    rw [List.append_nil, List.flatMap_cons, List.forall_mem_cons]
    exact ⟨rfl, hfront.append hmore, hP, hall⟩

/-- What is said of a decoder holds of the members of a list, and the length fits a word. -/
theorem takes_list : Takes (list x) fun front as =>
    AtLeast (encodeList encode as) front ∧ as.length < 2 ^ (64 : Nat) ∧ ∀ a ∈ as, P a := by
  refine (takes_natural .usize).bind fun front n hn => (takes_replicate hx n).mono ?_
  obtain ⟨hfront, hlt⟩ := hn
  rintro more as ⟨rfl, hmore, hall⟩
  exact ⟨hfront.append hmore, hlt, hall⟩

end

end Decoder

end StepPlan.Bytes
