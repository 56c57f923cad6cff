import StepPlan.Json.Lexer
import StepPlan.Json.Value

/-!
# The text of strings

How a string is told from its JSON text. A character is spelled in one of three ways
(`escapedChar_cases`): as itself, as a backslash and one character that names it, or as a backslash
and a code of four digits. No spelling is the beginning of another and none is a quote, so the
closing quote is where it seems to be: `stringChars_append_inj`.
-/

namespace StepPlan.Json

/-- A digit is read back. -/
theorem hexDigit?_digitChar : ∀ n < 16, Mode.hexDigit? (Nat.digitChar n) = some n := by
  decide +kernel

/-- Hexadecimal digits are told from their characters. -/
theorem digitChar_inj {m n : Nat} (hm : m < 16) (hn : n < 16)
    (h : Nat.digitChar m = Nat.digitChar n) : m = n := by
  have hread := congrArg Mode.hexDigit? h
  rw [hexDigit?_digitChar m hm, hexDigit?_digitChar n hn] at hread
  exact Option.some.inj hread

/-- The three ways to spell a character: as itself, by a name, or by its code. -/
theorem escapedChar_cases (c : Char) :
    (escapedChar c = [c] ∧ c ≠ '\\' ∧ c ≠ '"' ∧ 0x20 ≤ c.toNat)
      ∨ (∃ name, escapedChar c = ['\\', name] ∧ name ≠ 'u' ∧ Mode.escaped? name = some c)
      ∨ (escapedChar c
            = ['\\', 'u', '0', '0', Nat.digitChar (c.toNat / 16), Nat.digitChar (c.toNat % 16)]
          ∧ c.toNat < 0x20) := by
  unfold escapedChar
  split
  next => exact .inr (.inl ⟨'"', rfl, by decide, rfl⟩)
  next => exact .inr (.inl ⟨'\\', rfl, by decide, rfl⟩)
  next => exact .inr (.inl ⟨'b', rfl, by decide, rfl⟩)
  next => exact .inr (.inl ⟨'f', rfl, by decide, rfl⟩)
  next => exact .inr (.inl ⟨'n', rfl, by decide, rfl⟩)
  next => exact .inr (.inl ⟨'r', rfl, by decide, rfl⟩)
  next => exact .inr (.inl ⟨'t', rfl, by decide, rfl⟩)
  next hquote hslash _ _ _ _ _ =>
    -- The other controls are spelled by their code.
    by_cases hlow : c.toNat < 0x20
    · rw [if_pos hlow]
      exact .inr (.inr ⟨rfl, hlow⟩)
    · rw [if_neg hlow]
      exact .inl ⟨rfl, hslash, hquote, Nat.le_of_not_lt hlow⟩

/-- No spelling starts with the quote. -/
theorem escapedChar_ne_quote (c : Char) (x y : List Char) : escapedChar c ++ x ≠ '"' :: y := by
  intro h
  rcases escapedChar_cases c with ⟨he, -, hquote, -⟩ | ⟨name, he, -, -⟩ | ⟨he, -⟩
  · rw [he] at h
    exact hquote (List.cons.inj h).1
  · rw [he] at h
    exact absurd (List.cons.inj h).1 (by decide)
  · rw [he] at h
    exact absurd (List.cons.inj h).1 (by decide)

/-- No spelling is the beginning of the spelling of another character. -/
theorem escapedChar_append_inj {c d : Char} {x y : List Char}
    (h : escapedChar c ++ x = escapedChar d ++ y) : c = d ∧ x = y := by
  -- Spellings of two sorts differ in the first character or in the second.
  rcases escapedChar_cases c with ⟨hc, hcs, -, -⟩ | ⟨cname, hc, hcu, hcn⟩ | ⟨hc, hclow⟩ <;>
  rcases escapedChar_cases d with ⟨hd, hds, -, -⟩ | ⟨dname, hd, hdu, hdn⟩ | ⟨hd, hdlow⟩ <;>
  rw [hc, hd] at h <;> simp only [List.cons_append, List.nil_append, List.cons.injEq] at h
  · exact h
  · exact absurd h.1 hcs
  · exact absurd h.1 hcs
  · exact absurd h.1.symm hds
  · obtain ⟨-, rfl, hrest⟩ := h
    exact ⟨Option.some.inj (hcn.symm.trans hdn), hrest⟩
  · exact absurd h.2.1 hcu
  · exact absurd h.1.symm hds
  · exact absurd h.2.1.symm hdu
  · obtain ⟨-, -, -, -, hhigh, hlow, hrest⟩ := h
    have hdiv := digitChar_inj (by omega) (by omega) hhigh
    have hmod := digitChar_inj (by omega) (by omega) hlow
    exact ⟨Char.toNat_inj.mp (by omega), hrest⟩

/-- The characters of a string are told from their spellings up to the closing quote, and so is what
stands behind it. -/
theorem escapedChars_append_inj :
    ∀ {cs ds x y : List Char},
      cs.flatMap escapedChar ++ '"' :: x = ds.flatMap escapedChar ++ '"' :: y → cs = ds ∧ x = y
  | [], [], _, _, h => ⟨rfl, (List.cons.inj h).2⟩
  | [], d :: ds, x, y, h => by
    rw [List.flatMap_cons, List.append_assoc] at h
    exact absurd h.symm (escapedChar_ne_quote d _ x)
  | c :: cs, [], x, y, h => by
    rw [List.flatMap_cons, List.append_assoc] at h
    exact absurd h (escapedChar_ne_quote c _ y)
  | c :: cs, d :: ds, x, y, h => by
    rw [List.flatMap_cons, List.flatMap_cons, List.append_assoc, List.append_assoc] at h
    obtain ⟨rfl, hrest⟩ := escapedChar_append_inj h
    obtain ⟨rfl, hxy⟩ := escapedChars_append_inj hrest
    exact ⟨rfl, hxy⟩

/-- A string is told from its text, and so is what stands behind it. -/
theorem stringChars_append_inj {s t : String} {x y : List Char}
    (h : stringChars s ++ x = stringChars t ++ y) : s = t ∧ x = y := by
  simp only [stringChars, List.cons_append, List.append_assoc, List.nil_append,
    List.cons.injEq, true_and] at h
  obtain ⟨hchars, hxy⟩ := escapedChars_append_inj h
  exact ⟨String.toList_injective hchars, hxy⟩

/-- Strings of the same spelling are the same. -/
theorem stringChars_injective {s t : String} (h : stringChars s = stringChars t) : s = t :=
  (stringChars_append_inj (x := []) (y := []) (by rw [h])).1

end StepPlan.Json
