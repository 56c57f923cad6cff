import StepPlan.Proofs.Json.StringText
import StepPlan.Proofs.Number.Alphabet

/-!
# How deep a text nests

The nesting of a text is the greatest number of brackets and braces that are open at one place of
it, those inside strings not counted (`nesting`). In the text of a value that is how deep its arrays
and objects stand in each other: `nesting_text`.
-/

namespace StepPlan.Json

/-! ## Texts -/

/-- The brackets of a text, as far as it has been read. -/
structure Brackets where
  /-- So many brackets are open. -/
  opened : Nat
  /-- The most that have been open. -/
  deepest : Nat
  /-- A string is open. -/
  quoted : Bool
  /-- A backslash has just been read in a string. -/
  escaped : Bool
deriving DecidableEq

namespace Brackets

/-- Reads a character. -/
def step (b : Brackets) (c : Char) : Brackets :=
  if b.escaped then { b with escaped := false }
  else if b.quoted then
    if c = '\\' then { b with escaped := true }
    else if c = '"' then { b with quoted := false }
    else b
  else if c = '"' then { b with quoted := true }
  else if c = '[' ∨ c = '{' then
    { b with opened := b.opened + 1, deepest := max b.deepest (b.opened + 1) }
  else if c = ']' ∨ c = '}' then { b with opened := b.opened - 1 }
  else b

/-- Reads some characters. -/
def run (b : Brackets) (cs : List Char) : Brackets :=
  cs.foldl step b

@[simp] theorem run_nil (b : Brackets) : b.run [] = b := rfl

@[simp] theorem run_cons (b : Brackets) (c : Char) (cs : List Char) :
    b.run (c :: cs) = (b.step c).run cs := rfl

/-- Brackets are counted from left to right. -/
@[simp] theorem run_append (b : Brackets) (cs ds : List Char) :
    b.run (cs ++ ds) = (b.run cs).run ds :=
  List.foldl_append

/-- Outside strings, with so many brackets open and at most so many before. -/
def between (opened deepest : Nat) : Brackets :=
  ⟨opened, deepest, false, false⟩

end Brackets

/-- The greatest number of brackets that are open at one place of a text. -/
def nesting (s : String) : Nat :=
  ((Brackets.between 0 0).run s.toList).deepest

/-! ## Values -/

mutual

/-- How deep arrays and objects stand in each other. -/
def depth : Json → Nat
  | .null | .bool _ | .num _ | .str _ => 0
  | .arr items => itemDepth items + 1
  | .obj members => memberDepth members + 1

/-- The depth of the deepest item. -/
def itemDepth : List Json → Nat
  | [] => 0
  | item :: items => max (depth item) (itemDepth items)

/-- The depth of the deepest member. -/
def memberDepth : List (String × Json) → Nat
  | [] => 0
  | (_, value) :: members => max (depth value) (memberDepth members)

end

/-! ## The nesting of the text of a value is its depth -/

namespace Brackets

/-- Nothing in a number opens or closes anything. -/
theorem step_of_isNumeral {opened deepest : Nat} {c : Char} (h : isNumeral c) :
    (between opened deepest).step c = between opened deepest := by
  have hquote : c ≠ '"' := by rintro rfl; exact absurd h (by unfold isNumeral; decide)
  have hopen : ¬(c = '[' ∨ c = '{') := by
    rintro (rfl | rfl) <;> exact absurd h (by unfold isNumeral; decide)
  have hclose : ¬(c = ']' ∨ c = '}') := by
    rintro (rfl | rfl) <;> exact absurd h (by unfold isNumeral; decide)
  simp [step, between, hquote, hopen, hclose]

/-- A number opens and closes nothing. -/
theorem run_number (n : Number) (opened deepest : Nat) :
    (between opened deepest).run n.chars = between opened deepest := by
  suffices h : ∀ cs : List Char, (∀ c ∈ cs, isNumeral c) →
      (between opened deepest).run cs = between opened deepest from
    h n.chars fun c hc => Number.isNumeral_of_mem_chars hc
  intro cs
  induction cs with
  | nil => intro _; rfl
  | cons c cs ih =>
    intro hall
    rw [run_cons, step_of_isNumeral (hall c (List.mem_cons_self ..))]
    exact ih fun d hd => hall d (List.mem_cons_of_mem c hd)

/-- A character of a string leaves the string open. -/
theorem run_escapedChar (c : Char) (opened deepest : Nat) :
    run ⟨opened, deepest, true, false⟩ (escapedChar c) = ⟨opened, deepest, true, false⟩ := by
  rcases escapedChar_cases c with ⟨he, hslash, hquote, -⟩ | ⟨name, he, -, -⟩ | ⟨he, hlow⟩
  · simp [he, step, hslash, hquote]
  · simp [he, step]
  · have hdigit : ∀ n < 16, Nat.digitChar n ≠ '\\' ∧ Nat.digitChar n ≠ '"' := by decide
    obtain ⟨hhs, hhq⟩ := hdigit (c.toNat / 16) (by omega)
    obtain ⟨hls, hlq⟩ := hdigit (c.toNat % 16) (by omega)
    simp [he, step, hhs, hhq, hls, hlq]

/-- A string opens and closes nothing, whatever brackets it holds. -/
theorem run_stringChars (s : String) (opened deepest : Nat) :
    (between opened deepest).run (stringChars s) = between opened deepest := by
  have hchars : ∀ cs : List Char, run ⟨opened, deepest, true, false⟩ (cs.flatMap escapedChar)
      = ⟨opened, deepest, true, false⟩ := by
    intro cs
    induction cs with
    | nil => rfl
    | cons c cs ih => rw [List.flatMap_cons, run_append, run_escapedChar, ih]
  rw [stringChars, run_cons, run_append]
  show run (run ⟨opened, deepest, true, false⟩ (s.toList.flatMap escapedChar)) ['"'] = _
  rw [hchars]
  rfl

mutual

/-- A value leaves as many brackets open as before, and has been as deep as it is deep. -/
theorem run_chars : ∀ (j : Json) {opened deepest : Nat}, opened ≤ deepest →
    (between opened deepest).run j.chars = between opened (max deepest (opened + j.depth))
  | .null, _, _, h => by rw [depth, Nat.add_zero, Nat.max_eq_left h]; rfl
  | .bool true, _, _, h => by rw [depth, Nat.add_zero, Nat.max_eq_left h]; rfl
  | .bool false, _, _, h => by rw [depth, Nat.add_zero, Nat.max_eq_left h]; rfl
  | .num n, opened, deepest, h => by
    rw [depth, Nat.add_zero, Nat.max_eq_left h]
    exact run_number n opened deepest
  | .str s, opened, deepest, h => by
    rw [depth, Nat.add_zero, Nat.max_eq_left h]
    exact run_stringChars s opened deepest
  | .arr [], _, _, _ => rfl
  | .arr (item :: items), opened, deepest, _ => by
    rw [chars, run_cons, run_append]
    show ((between (opened + 1) (max deepest (opened + 1))).run item.chars).run
      (itemChars items) = _
    -- One bracket deeper, the items reach their own depth above it.
    rw [run_chars item (Nat.le_max_right ..), run_itemChars items (by omega), depth, itemDepth]
    congr 1
    omega
  | .obj [], _, _, _ => rfl
  | .obj ((key, value) :: members), opened, deepest, _ => by
    rw [chars, run_cons, run_append]
    show ((between (opened + 1) (max deepest (opened + 1))).run (stringChars key)).run _ = _
    rw [run_stringChars, run_cons, run_append]
    show ((between (opened + 1) (max deepest (opened + 1))).run value.chars).run
      (memberChars members) = _
    rw [run_chars value (Nat.le_max_right ..), run_memberChars members (by omega), depth,
      memberDepth]
    congr 1
    omega

/-- The items behind the first one, up to the bracket that closes the array around them. -/
theorem run_itemChars : ∀ (items : List Json) {opened deepest : Nat}, opened + 1 ≤ deepest →
    (between (opened + 1) deepest).run (itemChars items)
      = between opened (max deepest (opened + 1 + itemDepth items))
  | [], opened, deepest, h => by
    rw [itemDepth, Nat.add_zero, Nat.max_eq_left h]
    rfl
  | item :: items, opened, deepest, h => by
    rw [itemChars, run_cons, run_append]
    show ((between (opened + 1) deepest).run item.chars).run (itemChars items) = _
    rw [run_chars item h, run_itemChars items (by omega), itemDepth]
    congr 1
    omega

/-- The members behind the first one, up to the brace that closes the object around them. -/
theorem run_memberChars : ∀ (members : List (String × Json)) {opened deepest : Nat},
    opened + 1 ≤ deepest →
    (between (opened + 1) deepest).run (memberChars members)
      = between opened (max deepest (opened + 1 + memberDepth members))
  | [], opened, deepest, h => by
    rw [memberDepth, Nat.add_zero, Nat.max_eq_left h]
    rfl
  | (key, value) :: members, opened, deepest, h => by
    rw [memberChars, run_cons, run_append]
    show ((between (opened + 1) deepest).run (stringChars key)).run _ = _
    rw [run_stringChars, run_cons, run_append]
    show ((between (opened + 1) deepest).run value.chars).run (memberChars members) = _
    rw [run_chars value h, run_memberChars members (by omega), memberDepth]
    congr 1
    omega

end

end Brackets

/-- The text of a value nests as deep as the value. -/
theorem nesting_text (j : Json) : nesting j.text = j.depth := by
  rw [nesting, text, String.toList_ofList, Brackets.run_chars j (Nat.le_refl 0)]
  show max 0 (0 + j.depth) = j.depth
  omega

end StepPlan.Json
