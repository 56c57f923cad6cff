import StepPlan.Proofs.Json.StringText
import StepPlan.Proofs.Number.TextValue

/-!
# Values told from their texts

A value is told from its text, and so is what stands behind it as long as that ends a number: every
other piece shows its own end. So no two values have one text (`Json.text_injective`).
-/

namespace StepPlan

/-! ## Numbers -/

/-- Where the characters of one sort end is told from the list. -/
theorem append_inj_of_alphabet {α : Type} {p : α → Prop} :
    ∀ {xs ys x y : List α}, (∀ c ∈ xs, p c) → (∀ c ∈ ys, p c) → (∀ c ∈ x.head?, ¬p c) →
      (∀ c ∈ y.head?, ¬p c) → xs ++ x = ys ++ y → xs = ys ∧ x = y
  | [], [], _, _, _, _, _, _, h => ⟨rfl, h⟩
  | [], b :: ys, _, _, _, hys, hx, _, h => by
    rw [List.nil_append] at h
    exact absurd (hys b List.mem_cons_self) (hx b (by rw [h]; rfl))
  | a :: xs, [], _, _, hxs, _, _, hy, h => by
    rw [List.nil_append] at h
    exact absurd (hxs a List.mem_cons_self) (hy a (by rw [← h]; rfl))
  | a :: xs, b :: ys, _, _, hxs, hys, hx, hy, h => by
    obtain ⟨rfl, hrest⟩ := List.cons.inj h
    obtain ⟨rfl, hxy⟩ := append_inj_of_alphabet (fun c hc => hxs c (List.mem_cons_of_mem _ hc))
      (fun c hc => hys c (List.mem_cons_of_mem _ hc)) hx hy hrest
    exact ⟨rfl, hxy⟩

namespace Json

/-- Nothing, or a character that ends a number. -/
def EndsValue (rest : List Char) : Prop :=
  rest = [] ∨ ∃ c cs, rest = c :: cs ∧ (c = ',' ∨ c = ']' ∨ c = '}')

/-- What ends a value is not part of a number. -/
theorem EndsValue.not_isNumeral {rest : List Char} (h : EndsValue rest) :
    ∀ c ∈ rest.head?, ¬isNumeral c := by
  rcases h with rfl | ⟨d, ds, rfl, hd⟩
  · simp
  · intro c hc
    obtain rfl : d = c := Option.some.inj hc
    rcases hd with rfl | rfl | rfl <;> unfold isNumeral <;> decide

/-- A number is told from its text, and so is what stands behind it. -/
theorem number_append_inj {m n : Number} {x y : List Char} (hx : EndsValue x) (hy : EndsValue y)
    (h : m.chars ++ x = n.chars ++ y) : m = n ∧ x = y := by
  obtain ⟨hchars, hxy⟩ := append_inj_of_alphabet (fun _ => Number.isNumeral_of_mem_chars)
    (fun _ => Number.isNumeral_of_mem_chars) hx.not_isNumeral hy.not_isNumeral h
  exact ⟨Number.chars_injective hchars, hxy⟩

/-! ## Values -/

/-- The sort of a value. -/
def sort : Json → Nat
  | .null => 0
  | .bool _ => 1
  | .num _ => 2
  | .str _ => 3
  | .arr _ => 4
  | .obj _ => 5

instance : DecidablePred isNumeral := fun c =>
  inferInstanceAs (Decidable (c.isDigit = true ∨ c = '-' ∨ c = '.' ∨ c = 'e' ∨ c = '+'))

/-- The sort of a value whose text starts with this character; no sort for a character that starts
no value. -/
def sortOf (c : Char) : Nat :=
  if c = 'n' then 0
  else if c = 't' ∨ c = 'f' then 1
  else if isNumeral c then 2
  else if c = '"' then 3
  else if c = '[' then 4
  else if c = '{' then 5
  else 6

/-- What a number is written in starts no value of another sort. -/
theorem sortOf_of_isNumeral {c : Char} (h : isNumeral c) : sortOf c = 2 := by
  have hne : ∀ d, ¬isNumeral d → c ≠ d := by
    rintro d hd rfl
    exact hd h
  have hword : ¬(c = 't' ∨ c = 'f') := fun hc =>
    hc.elim (hne 't' (by decide)) (hne 'f' (by decide))
  rw [sortOf, if_neg (hne 'n' (by decide)), if_neg hword, if_pos h]

/-- A number is written with at least one character. -/
theorem number_chars_ne_nil (n : Number) : n.chars ≠ [] := by
  cases n with
  | double d =>
    obtain ⟨c, hc, -⟩ := d.exists_mark_chars
    exact List.ne_nil_of_mem hc
  | int i =>
    cases i with
    | ofNat n => exact List.ne_nil_of_length_pos Nat.length_toDigits_pos
    | negSucc n => exact List.cons_ne_nil _ _

/-- The first character of a text tells the sort of the value. -/
theorem exists_sortOf (j : Json) : ∃ c cs, j.chars = c :: cs ∧ sortOf c = j.sort := by
  match j with
  | .null => exact ⟨'n', _, rfl, rfl⟩
  | .bool true => exact ⟨'t', _, rfl, rfl⟩
  | .bool false => exact ⟨'f', _, rfl, rfl⟩
  | .num n =>
    obtain ⟨c, cs, hc⟩ := List.exists_cons_of_ne_nil (number_chars_ne_nil n)
    refine ⟨c, cs, hc, sortOf_of_isNumeral (Number.isNumeral_of_mem_chars (n := n) ?_)⟩
    rw [hc]
    exact List.mem_cons_self
  | .str s => exact ⟨'"', _, rfl, rfl⟩
  | .arr [] => exact ⟨'[', _, rfl, rfl⟩
  | .arr (item :: items) => exact ⟨'[', _, by rw [chars], rfl⟩
  | .obj [] => exact ⟨'{', _, rfl, rfl⟩
  | .obj ((key, value) :: members) => exact ⟨'{', _, by rw [chars], rfl⟩

/-- Values of two sorts differ in their first characters. -/
theorem sort_eq_of_append {a b : Json} {x y : List Char} (h : a.chars ++ x = b.chars ++ y) :
    a.sort = b.sort := by
  obtain ⟨c, cs, hc, hsort⟩ := exists_sortOf a
  obtain ⟨d, ds, hd, hsort'⟩ := exists_sortOf b
  rw [hc, hd] at h
  rw [← hsort, ← hsort', (List.cons.inj h).1]

/-- No value starts with a closing bracket. -/
theorem chars_append_ne_closing (j : Json) (x y : List Char) : ']' :: x ≠ j.chars ++ y := by
  intro h
  obtain ⟨c, cs, hc, hsort⟩ := exists_sortOf j
  rw [hc] at h
  have hnone : sortOf c = 6 := by rw [← (List.cons.inj h).1]; decide
  cases j <;> exact absurd (hnone.symm.trans hsort) (by simp [sort])

/-- Behind an item stands a comma or the closing bracket. -/
theorem endsValue_itemChars (items : List Json) (rest : List Char) :
    EndsValue (itemChars items ++ rest) := by
  cases items with
  | nil => exact .inr ⟨']', rest, rfl, .inr (.inl rfl)⟩
  | cons item items => exact .inr ⟨',', _, by rw [itemChars]; rfl, .inl rfl⟩

/-- Behind a member stands a comma or the closing brace. -/
theorem endsValue_memberChars (members : List (String × Json)) (rest : List Char) :
    EndsValue (memberChars members ++ rest) := by
  cases members with
  | nil => exact .inr ⟨'}', rest, rfl, .inr (.inr rfl)⟩
  | cons m members =>
    obtain ⟨key, value⟩ := m
    exact .inr ⟨',', _, by rw [memberChars]; rfl, .inl rfl⟩

mutual

/-- A value is told from its text, and so is what stands behind it. -/
theorem chars_append_inj : ∀ {a b : Json} {x y : List Char}, a.sort = b.sort → EndsValue x →
    EndsValue y → a.chars ++ x = b.chars ++ y → a = b ∧ x = y
  | .null, .null, _, _, _, _, _, h => ⟨rfl, List.append_cancel_left h⟩
  | .bool true, .bool true, _, _, _, _, _, h => ⟨rfl, List.append_cancel_left h⟩
  | .bool false, .bool false, _, _, _, _, _, h => ⟨rfl, List.append_cancel_left h⟩
  | .bool true, .bool false, _, _, _, _, _, h => absurd (List.cons.inj h).1 (by decide)
  | .bool false, .bool true, _, _, _, _, _, h => absurd (List.cons.inj h).1 (by decide)
  | .num m, .num n, _, _, _, hx, hy, h => by
    obtain ⟨rfl, hxy⟩ := number_append_inj hx hy h
    exact ⟨rfl, hxy⟩
  | .str s, .str t, _, _, _, _, _, h => by
    obtain ⟨rfl, hxy⟩ := stringChars_append_inj h
    exact ⟨rfl, hxy⟩
  | .arr [], .arr [], _, _, _, _, _, h => ⟨rfl, List.append_cancel_left h⟩
  -- An empty array closes where another one has its first item.
  | .arr [], .arr (b :: bs), x, y, _, _, _, h => by
    simp only [chars, List.cons_append, List.append_assoc, List.nil_append] at h
    exact absurd (List.cons.inj h).2 (chars_append_ne_closing b _ _)
  | .arr (a :: as), .arr [], x, y, _, _, _, h => by
    simp only [chars, List.cons_append, List.append_assoc, List.nil_append] at h
    exact absurd (List.cons.inj h).2.symm (chars_append_ne_closing a _ _)
  | .arr (a :: as), .arr (b :: bs), x, y, _, _, _, h => by
    rw [chars, chars, List.cons_append, List.cons_append, List.append_assoc, List.append_assoc,
      List.cons_inj_right] at h
    -- What stands behind the first item ends it, so the item is told first and the others then.
    obtain ⟨rfl, hrest⟩ := chars_append_inj (sort_eq_of_append h) (endsValue_itemChars as x)
      (endsValue_itemChars bs y) h
    obtain ⟨rfl, hxy⟩ := itemChars_append_inj hrest
    exact ⟨rfl, hxy⟩
  | .obj [], .obj [], _, _, _, _, _, h => ⟨rfl, List.append_cancel_left h⟩
  | .obj [], .obj ((_, _) :: _), _, _, _, _, _, h =>
    absurd (List.cons.inj (List.cons.inj h).2).1 (by decide)
  | .obj ((_, _) :: _), .obj [], _, _, _, _, _, h =>
    absurd (List.cons.inj (List.cons.inj h).2).1 (by decide)
  | .obj ((k, a) :: as), .obj ((l, b) :: bs), x, y, _, _, _, h => by
    rw [chars, chars, List.cons_append, List.cons_append, List.append_assoc, List.append_assoc,
      List.cons_inj_right, List.cons_append, List.cons_append, List.append_assoc,
      List.append_assoc] at h
    obtain ⟨rfl, hvalue⟩ := stringChars_append_inj h
    rw [List.cons_inj_right] at hvalue
    obtain ⟨rfl, hrest⟩ := chars_append_inj (sort_eq_of_append hvalue)
      (endsValue_memberChars as x) (endsValue_memberChars bs y) hvalue
    obtain ⟨rfl, hxy⟩ := memberChars_append_inj hrest
    exact ⟨rfl, hxy⟩

/-- Items are told from their text, and so is what stands behind them. -/
theorem itemChars_append_inj : ∀ {as bs : List Json} {x y : List Char},
    itemChars as ++ x = itemChars bs ++ y → as = bs ∧ x = y
  | [], [], _, _, h => ⟨rfl, List.append_cancel_left h⟩
  | [], _ :: _, _, _, h => absurd (List.cons.inj h).1 (by decide)
  | _ :: _, [], _, _, h => absurd (List.cons.inj h).1 (by decide)
  | a :: as, b :: bs, x, y, h => by
    rw [itemChars, itemChars, List.cons_append, List.cons_append, List.append_assoc,
      List.append_assoc, List.cons_inj_right] at h
    obtain ⟨rfl, hrest⟩ := chars_append_inj (sort_eq_of_append h) (endsValue_itemChars as x)
      (endsValue_itemChars bs y) h
    obtain ⟨rfl, hxy⟩ := itemChars_append_inj hrest
    exact ⟨rfl, hxy⟩

/-- Members are told from their text, and so is what stands behind them. -/
theorem memberChars_append_inj : ∀ {as bs : List (String × Json)} {x y : List Char},
    memberChars as ++ x = memberChars bs ++ y → as = bs ∧ x = y
  | [], [], _, _, h => ⟨rfl, List.append_cancel_left h⟩
  | [], (_, _) :: _, _, _, h => absurd (List.cons.inj h).1 (by decide)
  | (_, _) :: _, [], _, _, h => absurd (List.cons.inj h).1 (by decide)
  | (k, a) :: as, (l, b) :: bs, x, y, h => by
    rw [memberChars, memberChars, List.cons_append, List.cons_append, List.append_assoc,
      List.append_assoc, List.cons_inj_right, List.cons_append, List.cons_append,
      List.append_assoc, List.append_assoc] at h
    obtain ⟨rfl, hvalue⟩ := stringChars_append_inj h
    rw [List.cons_inj_right] at hvalue
    obtain ⟨rfl, hrest⟩ := chars_append_inj (sort_eq_of_append hvalue)
      (endsValue_memberChars as x) (endsValue_memberChars bs y) hvalue
    obtain ⟨rfl, hxy⟩ := memberChars_append_inj hrest
    exact ⟨rfl, hxy⟩

end

/-- Values of the same characters are the same. -/
theorem chars_injective {a b : Json} (h : a.chars = b.chars) : a = b := by
  have happend : a.chars ++ [] = b.chars ++ [] := by rw [h]
  exact (chars_append_inj (sort_eq_of_append happend) (.inl rfl) (.inl rfl) happend).1

/-- No two values have one text. -/
theorem text_injective {a b : Json} (h : a.text = b.text) : a = b :=
  chars_injective (String.ofList_injective h)

end Json

end StepPlan
