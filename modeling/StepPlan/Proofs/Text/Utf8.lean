import StepPlan.Text.Utf8

/-!
# The bytes of texts

Different texts have different bytes (`encode_injective`), as many as the text says it takes
(`length_encode`). No text holds the byte `FF` (`ne_FF_of_mem_encode`): the greatest first byte of a
character is `F4`, and every other byte lies below `C0`. So a text followed by `FF` ends where the
first `FF` stands.

Conversely, bytes that are read as text are the bytes of that text (`decode_eq_ok_iff`): no
character has two forms.
-/

namespace StepPlan.Text.Utf8

/-- Different texts have different bytes, since decoding tells them apart. -/
theorem encode_injective {cs ds : List Char} (h : encode cs = encode ds) : cs = ds := by
  have hdecode : decode (encode cs) = decode (encode ds) := congrArg decode h
  rw [decode_encode, decode_encode] at hdecode
  exact Except.ok.inj hdecode

/-- A character takes as many bytes as its size says. -/
theorem length_encodeChar (c : Char) : (encodeChar c).length = c.utf8Size := by
  have hle : ∀ {n : UInt32}, c.val ≤ n ↔ c.toNat < n.toNat + 1 := by
    intro n
    rw [UInt32.le_iff_toNat_le]
    exact Nat.lt_succ_iff.symm
  show _ = if c.val ≤ 0x7F then 1 else if c.val ≤ 0x7FF then 2 else if c.val ≤ 0xFFFF then 3 else 4
  simp only [encodeChar, hle]
  show _ = if c.toNat < 0x80 then 1 else if c.toNat < 0x800 then 2 else
    if c.toNat < 0x10000 then 3 else 4
  split
  next => rfl
  next =>
    split
    next => rfl
    next => split <;> rfl

/-- A text takes as many bytes as its string says. -/
theorem length_encode (s : String) : (encode s.toList).length = s.utf8ByteSize := by
  -- The size of a string is known by its characters, so it is compared over lists of them.
  suffices h : ∀ cs : List Char, (encode cs).length = (String.ofList cs).utf8ByteSize by
    rw [h, String.ofList_toList]
  intro cs
  induction cs with
  | nil => rfl
  | cons c cs ih =>
    rw [String.ofList_cons, String.utf8ByteSize_append, String.utf8ByteSize_singleton, ← ih,
      ← length_encodeChar, encode, List.flatMap_cons, List.length_append]
    rfl

/-- No byte of a character is greater than `F7`. -/
theorem lt_of_mem_encodeChar {c : Char} {b : UInt8} (hb : b ∈ encodeChar c) : b.toNat < 0xF8 := by
  have hc := char_range c
  have hbyte : ∀ {n : Nat}, n < 0xF8 → (UInt8.ofNat n).toNat < 0xF8 := by
    intro n hn
    rw [toNat_byte (by omega)]
    exact hn
  -- One case for each number of bytes, and in each one every byte by itself.
  simp only [encodeChar] at hb
  split at hb
  next => obtain rfl := List.mem_singleton.mp hb; exact hbyte (by omega)
  next =>
    split at hb
    next =>
      simp only [List.mem_cons, List.not_mem_nil, or_false] at hb
      rcases hb with rfl | rfl <;> exact hbyte (by omega)
    next =>
      split at hb
      next =>
        simp only [List.mem_cons, List.not_mem_nil, or_false] at hb
        rcases hb with rfl | rfl | rfl <;> exact hbyte (by omega)
      next =>
        simp only [List.mem_cons, List.not_mem_nil, or_false] at hb
        rcases hb with rfl | rfl | rfl | rfl <;> exact hbyte (by omega)

/-- The byte `FF` stands in no text. -/
theorem ne_FF_of_mem_encode {cs : List Char} {b : UInt8} (hb : b ∈ encode cs) : b ≠ 0xFF := by
  obtain ⟨c, -, hc⟩ := List.mem_flatMap.mp hb
  intro h
  have hlt := lt_of_mem_encodeChar hc
  rw [h] at hlt
  exact absurd hlt (by decide)

/-! ## Bytes that are read as text -/

/-- A valid code point is that of its character. -/
theorem toNat_ofNat {n : Nat} (h : n.isValidChar) : (Char.ofNat n).toNat = n := by
  rw [Char.ofNat, dif_pos h]
  rfl

theorem ofNat_eq {n : Nat} {b : UInt8} (h : n = b.toNat) : UInt8.ofNat n = b := by
  rw [h, UInt8.ofNat_toNat]

/-- A byte that makes a character by itself is all of its form. -/
theorem encodeChar_one {a : UInt8} (hw : width a = 1) :
    encodeChar (Char.ofNat a.toNat) = [a] := by
  have ha : a.toNat < 0x80 := by grind [width]
  have hvalid : a.toNat.isValidChar := .inl (by omega)
  rw [encodeChar, toNat_ofNat hvalid, if_pos ha, ofNat_eq rfl]

/-- Two bytes that make a character are its form: a first byte below `C2` is not let through. -/
theorem encodeChar_two {a b : UInt8} (hw : width a = 2) (hb : isSecond a b = true) :
    encodeChar (Char.ofNat (a.toNat % 2 ^ (5 : Nat) * 0x40 + b.toNat % 0x40)) = [a, b] := by
  have ha : 0xC2 ≤ a.toNat ∧ a.toNat < 0xE0 := by grind [width]
  have hb : 0x80 ≤ b.toNat ∧ b.toNat < 0xC0 := by grind [isSecond, isContinuation]
  generalize hn : a.toNat % 2 ^ (5 : Nat) * 0x40 + b.toNat % 0x40 = n
  have hvalid : n.isValidChar := .inl (by omega)
  rw [encodeChar, toNat_ofNat hvalid, if_neg (by omega), if_pos (by omega), ofNat_eq (b := a),
    ofNat_eq (b := b)] <;> omega

/-- Three bytes that make a character are its form: the second one excludes overlong forms and
surrogates. -/
theorem encodeChar_three {a b d : UInt8} (hw : width a = 3) (hb : isSecond a b = true)
    (hd : isContinuation d = true) :
    encodeChar (Char.ofNat
      ((a.toNat % 2 ^ (4 : Nat) * 0x40 + b.toNat % 0x40) * 0x40 + d.toNat % 0x40)) = [a, b, d] := by
  have ha : 0xE0 ≤ a.toNat ∧ a.toNat < 0xF0 := by grind [width]
  -- The narrower range of the second byte is what keeps the code valid and not overlong.
  have hb : 0x80 ≤ b.toNat ∧ b.toNat < 0xC0 ∧ (a.toNat = 0xE0 → 0xA0 ≤ b.toNat)
      ∧ (a.toNat = 0xED → b.toNat < 0xA0) := by grind [isSecond, isContinuation]
  have hd : 0x80 ≤ d.toNat ∧ d.toNat < 0xC0 := by grind [isContinuation]
  generalize hn : (a.toNat % 2 ^ (4 : Nat) * 0x40 + b.toNat % 0x40) * 0x40 + d.toNat % 0x40 = n
  have hvalid : n.isValidChar := by unfold Nat.isValidChar; omega
  rw [encodeChar, toNat_ofNat hvalid, if_neg (by omega), if_neg (by omega), if_pos (by omega),
    ofNat_eq (b := a), ofNat_eq (b := b), ofNat_eq (b := d)] <;> omega

/-- Four bytes that make a character are its form: the second one excludes overlong forms and what
lies beyond the last plane. -/
theorem encodeChar_four {a b d e : UInt8} (hw : width a = 4) (hb : isSecond a b = true)
    (hd : isContinuation d = true) (he : isContinuation e = true) :
    encodeChar (Char.ofNat
      (((a.toNat % 2 ^ (3 : Nat) * 0x40 + b.toNat % 0x40) * 0x40 + d.toNat % 0x40) * 0x40
        + e.toNat % 0x40)) = [a, b, d, e] := by
  have ha : 0xF0 ≤ a.toNat ∧ a.toNat < 0xF5 := by grind [width]
  have hb : 0x80 ≤ b.toNat ∧ b.toNat < 0xC0 ∧ (a.toNat = 0xF0 → 0x90 ≤ b.toNat)
      ∧ (a.toNat = 0xF4 → b.toNat < 0x90) := by grind [isSecond, isContinuation]
  have hd : 0x80 ≤ d.toNat ∧ d.toNat < 0xC0 := by grind [isContinuation]
  have he : 0x80 ≤ e.toNat ∧ e.toNat < 0xC0 := by grind [isContinuation]
  generalize hn : ((a.toNat % 2 ^ (3 : Nat) * 0x40 + b.toNat % 0x40) * 0x40 + d.toNat % 0x40) * 0x40
    + e.toNat % 0x40 = n
  have hvalid : n.isValidChar := by unfold Nat.isValidChar; omega
  rw [encodeChar, toNat_ofNat hvalid, if_neg (by omega), if_neg (by omega), if_neg (by omega),
    ofNat_eq (b := a), ofNat_eq (b := b), ofNat_eq (b := d), ofNat_eq (b := e)] <;> omega

/-- What is left to read once some bytes have made the part `p`: if it is a whole character, the
characters behind it, and else the rest of it, too. -/
def ReadsOn (start : Nat) (p : Part) (bytes : List UInt8) (cs : List Char) : Prop :=
  if p.left = 0 then
    ∃ tail, cs = Char.ofNat p.bits :: tail
      ∧ Reader.run ⟨start + p.seen, none⟩ bytes = .ok tail
  else Reader.run ⟨start, some p⟩ bytes = .ok cs

/-- A step that leaves a part leaves the rest of the bytes to be read on from it. -/
theorem readsOn_of_run {r : Reader} {p : Part} {b : UInt8} {bytes : List UInt8} {cs : List Char}
    (hstep : r.step b = .ok (r.settle p)) (h : r.run (b :: bytes) = .ok cs) :
    ReadsOn r.start p bytes cs := by
  rw [Reader.run, hstep, Reader.settle] at h
  rw [ReadsOn]
  by_cases hleft : p.left = 0
  · rw [if_pos hleft] at h ⊢
    cases hrest : Reader.run ⟨r.start + p.seen, none⟩ bytes with
    | error e => simp only [hrest] at h; cases h
    | ok tail =>
      simp only [hrest] at h
      exact ⟨tail, (Except.ok.inj h).symm, rfl⟩
  · rw [if_neg hleft] at h ⊢
    exact h

/-- Text that is not at its end starts with a byte that may start a character. -/
theorem readsOn_first {start : Nat} {a : UInt8} {bytes : List UInt8} {cs : List Char}
    (h : Reader.run ⟨start, none⟩ (a :: bytes) = .ok cs) :
    width a ≠ 0 ∧ ReadsOn start (.ofFirst a) bytes cs := by
  by_cases hw : width a = 0
  · simp [Reader.run, Reader.step, hw] at h
  · have hstep : Reader.step ⟨start, none⟩ a = .ok (Reader.settle ⟨start, none⟩ (.ofFirst a)) :=
      if_neg hw
    exact ⟨hw, readsOn_of_run hstep h⟩

/-- Inside a character another byte must come. -/
theorem readsOn_next {start : Nat} {p : Part} {bytes : List UInt8} {cs : List Char}
    (hleft : p.left ≠ 0) (h : ReadsOn start p bytes cs) :
    ∃ b rest, bytes = b :: rest ∧ p.accepts b = true ∧ ReadsOn start (p.push b) rest cs := by
  rw [ReadsOn, if_neg hleft] at h
  cases bytes with
  | nil => cases h
  | cons b rest =>
    by_cases hb : p.accepts b = true
    · have hstep : Reader.step ⟨start, some p⟩ b
          = .ok (Reader.settle ⟨start, some p⟩ (p.push b)) := if_pos hb
      exact ⟨b, rest, rfl, hb, readsOn_of_run hstep h⟩
    · simp [Reader.run, Reader.step, hb] at h

/-- Bytes that are read as text start with those of its first character. -/
theorem exists_of_run_cons {start : Nat} {a : UInt8} {bytes : List UInt8} {cs : List Char}
    (h : Reader.run ⟨start, none⟩ (a :: bytes) = .ok cs) :
    ∃ c tail more next, cs = c :: tail ∧ a :: bytes = encodeChar c ++ more
      ∧ Reader.run ⟨next, none⟩ more = .ok tail := by
  obtain ⟨hw, h⟩ := readsOn_first h
  have hcases : width a = 1 ∨ width a = 2 ∨ width a = 3 ∨ width a = 4 := by grind [width]
  -- The width of the first byte says how many more `readsOn_next` has to fetch.
  rcases hcases with hw | hw | hw | hw
  · simp only [ReadsOn, Part.ofFirst, hw] at h
    obtain ⟨tail, rfl, hrest⟩ := h
    exact ⟨_, tail, bytes, _, rfl, by rw [if_pos trivial, encodeChar_one hw]; rfl, hrest⟩
  · obtain ⟨b, bytes, rfl, hb, h⟩ := readsOn_next (by simp [Part.ofFirst, hw]) h
    simp only [ReadsOn, Part.ofFirst, Part.push, hw] at h
    obtain ⟨tail, rfl, hrest⟩ := h
    exact ⟨_, tail, bytes, _, rfl, by rw [if_neg (by decide), encodeChar_two hw hb]; rfl, hrest⟩
  · obtain ⟨b, bytes, rfl, hb, h⟩ := readsOn_next (by simp [Part.ofFirst, hw]) h
    obtain ⟨d, bytes, rfl, hd, h⟩ := readsOn_next (by simp [Part.ofFirst, Part.push, hw]) h
    simp only [ReadsOn, Part.ofFirst, Part.push, hw] at h
    obtain ⟨tail, rfl, hrest⟩ := h
    exact ⟨_, tail, bytes, _, rfl, by rw [if_neg (by decide), encodeChar_three hw hb hd]; rfl,
      hrest⟩
  · obtain ⟨b, bytes, rfl, hb, h⟩ := readsOn_next (by simp [Part.ofFirst, hw]) h
    obtain ⟨d, bytes, rfl, hd, h⟩ := readsOn_next (by simp [Part.ofFirst, Part.push, hw]) h
    obtain ⟨e, bytes, rfl, he, h⟩ := readsOn_next (by simp [Part.ofFirst, Part.push, hw]) h
    simp only [ReadsOn, Part.ofFirst, Part.push, hw] at h
    obtain ⟨tail, rfl, hrest⟩ := h
    exact ⟨_, tail, bytes, _, rfl, by rw [if_neg (by decide), encodeChar_four hw hb hd he]; rfl,
      hrest⟩

/-- Bytes that are read as text are those that the text is written in. -/
theorem eq_encode_of_run {cs : List Char} {start : Nat} {bytes : List UInt8}
    (h : Reader.run ⟨start, none⟩ bytes = .ok cs) : bytes = encode cs := by
  -- By induction on the characters that come out: each step takes those bytes off that one fills.
  induction cs generalizing start bytes with
  | nil =>
    cases bytes with
    | nil => rfl
    | cons a bytes =>
      obtain ⟨c, tail, more, next, hcs, -⟩ := exists_of_run_cons h
      cases hcs
  | cons c cs ih =>
    cases bytes with
    | nil => cases h
    | cons a bytes =>
      obtain ⟨c', tail, more, next, hcs, hbytes, hrest⟩ := exists_of_run_cons h
      obtain ⟨rfl, rfl⟩ := List.cons.inj hcs
      rw [hbytes, ih hrest]
      rfl

/-- Bytes are read as characters exactly when they are the bytes of these characters. -/
theorem decode_eq_ok_iff {bytes : List UInt8} {cs : List Char} :
    decode bytes = .ok cs ↔ bytes = encode cs := by
  constructor
  · exact eq_encode_of_run
  · rintro rfl
    exact decode_encode cs

end StepPlan.Text.Utf8
