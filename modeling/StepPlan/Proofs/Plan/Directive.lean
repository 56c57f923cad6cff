import StepPlan.Plan.Compile
import StepPlan.Proofs.Json.StringText
import StepPlan.Proofs.Number.Alphabet

/-!
# The directive and its text

The redirect directive is read from a value, while a snapshot and a fingerprint know a value by its
JSON text alone. The text is enough: no other value looks like a string or a truth value, so values
of one text state the same truth value and are shown alike (`readDirective_eq_of_text_eq`).
-/

namespace StepPlan

namespace Json

theorem chars_arr (items : List Json) : ∃ cs, (arr items).chars = '[' :: cs := by
  cases items with
  | nil => exact ⟨_, rfl⟩
  | cons item items => exact ⟨_, by rw [chars]⟩

theorem chars_obj (members : List (String × Json)) : ∃ cs, (obj members).chars = '{' :: cs := by
  cases members with
  | nil => exact ⟨_, rfl⟩
  | cons m members =>
    obtain ⟨key, value⟩ := m
    exact ⟨_, by rw [chars]⟩

/-- Only a string starts with a quote. -/
theorem eq_str_of_chars {j : Json} {cs : List Char} (h : j.chars = '"' :: cs) :
    ∃ s, j = .str s := by
  cases j with
  | str s => exact ⟨s, rfl⟩
  | null => exact absurd (List.cons.inj h).1 (by decide)
  | bool b => cases b <;> exact absurd (List.cons.inj h).1 (by decide)
  | num n =>
    have hquote : '"' ∈ (num n).chars := by rw [h]; exact List.mem_cons_self ..
    exact absurd (Number.isNumeral_of_mem_chars hquote) (by unfold isNumeral; decide)
  | arr items =>
    obtain ⟨ds, hds⟩ := chars_arr items
    exact absurd (List.cons.inj (hds.symm.trans h)).1 (by decide)
  | obj members =>
    obtain ⟨ds, hds⟩ := chars_obj members
    exact absurd (List.cons.inj (hds.symm.trans h)).1 (by decide)

/-- The words `true` and `false` have a letter that no number has. -/
theorem exists_not_isNumeral (b : Bool) : ∃ c ∈ (Json.bool b).chars, ¬ isNumeral c := by
  cases b with
  | false => exact ⟨'l', by decide, by unfold isNumeral; decide⟩
  | true => exact ⟨'u', by decide, by unfold isNumeral; decide⟩

/-- Only a truth value is spelled as one. -/
theorem eq_bool_of_chars {j : Json} {b : Bool} (h : j.chars = (Json.bool b).chars) :
    j = .bool b := by
  cases j with
  | bool c => cases b <;> cases c <;> first | rfl | exact absurd h (by decide)
  | num n =>
    obtain ⟨c, hc, hno⟩ := exists_not_isNumeral b
    rw [← h] at hc
    exact absurd (Number.isNumeral_of_mem_chars hc) hno
  | null => cases b <;> exact absurd h (by decide)
  | str s => cases b <;> exact absurd (List.cons.inj h).1 (by decide)
  | arr items =>
    obtain ⟨ds, hds⟩ := chars_arr items
    cases b <;> exact absurd (List.cons.inj (hds.symm.trans h)).1 (by decide)
  | obj members =>
    obtain ⟨ds, hds⟩ := chars_obj members
    cases b <;> exact absurd (List.cons.inj (hds.symm.trans h)).1 (by decide)

/-- Values of one text are the same value, as far as strings and truth values go. -/
theorem eq_of_chars_eq {a b : Json} (h : a.chars = b.chars)
    (ha : (∃ s, a = .str s) ∨ ∃ flag, a = .bool flag) : a = b := by
  rcases ha with ⟨s, rfl⟩ | ⟨flag, rfl⟩
  · obtain ⟨t, rfl⟩ := eq_str_of_chars h.symm
    rw [stringChars_injective h]
  · exact (eq_bool_of_chars h.symm).symm

theorem asFlag?_eq_none {j : Json} (hs : ∀ s, j ≠ .str s) (hb : ∀ flag, j ≠ .bool flag) :
    j.asFlag? = none := by
  cases j with
  | str s => exact absurd rfl (hs s)
  | bool flag => exact absurd rfl (hb flag)
  | null => rfl
  | num n => rfl
  | arr items => rfl
  | obj members => rfl

theorem shown_eq_text {j : Json} (hs : ∀ s, j ≠ .str s) : j.shown = j.text := by
  cases j with
  | str s => exact absurd rfl (hs s)
  | bool flag => rfl
  | null => rfl
  | num n => rfl
  | arr items => rfl
  | obj members => rfl

/-- Values of one text state the same truth value and are shown alike. -/
theorem asFlag?_shown_eq_of_text_eq {a b : Json} (h : a.text = b.text) :
    a.asFlag? = b.asFlag? ∧ a.shown = b.shown := by
  have hchars : a.chars = b.chars := String.ofList_injective h
  by_cases ha : (∃ s, a = .str s) ∨ ∃ flag, a = .bool flag
  · rw [eq_of_chars_eq hchars ha]
    exact ⟨rfl, rfl⟩
  · -- If neither is a string or a truth value, both say nothing and are shown as their text.
    by_cases hb : (∃ s, b = .str s) ∨ ∃ flag, b = .bool flag
    · rw [eq_of_chars_eq hchars.symm hb]
      exact ⟨rfl, rfl⟩
    · simp only [not_or, not_exists] at ha hb
      rw [asFlag?_eq_none ha.1 ha.2, asFlag?_eq_none hb.1 hb.2, shown_eq_text ha.1,
        shown_eq_text hb.1, h]
      exact ⟨rfl, rfl⟩

end Json

/-- A directive is read from the text of its value. -/
theorem readDirective_eq_of_text_eq {v w : Option Json} (h : v.map Json.text = w.map Json.text) :
    readDirective v = readDirective w := by
  cases v with
  | none => rw [Option.map_eq_none_iff.mp h.symm]
  | some a =>
    obtain ⟨b, rfl, hb⟩ := Option.map_eq_some_iff.mp h.symm
    obtain ⟨hflag, hshown⟩ := Json.asFlag?_shown_eq_of_text_eq hb
    simp only [readDirective, Option.bind_some, Option.map_some, hflag, hshown]

end StepPlan
