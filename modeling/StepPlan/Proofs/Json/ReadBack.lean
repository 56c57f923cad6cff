import StepPlan.Json.Reading
import StepPlan.Proofs.Json.Nesting
import StepPlan.Proofs.Json.Parsing

/-!
# Written values are read back

Reading the text of a value gives the value, if it is nested no deeper than asked for, and a fault
if it is: `Doc.value_ofJson`. Reading keeps the members of an object in increasing order of key,
each key once, so this is about values whose objects are kept so (`Json.isSorted`), as all values
are that have been read.
-/

namespace StepPlan.Json

/-- Reading the text of a value of whole numbers is reading its document. -/
theorem readText_text {α : Type} (read : Doc → Except ReadError α) {j : Json}
    (h : j.isWhole = true) : readText read j.text = read (Doc.ofJson j) :=
  readText_of_isWritten read (Doc.isWritten_text h)

/-! ## Members in order -/

/-- The members stand in increasing order of key. -/
def inOrder (members : List (String × Json)) : Prop :=
  members.Pairwise fun a b => a.1 < b.1

instance (members : List (String × Json)) : Decidable (inOrder members) :=
  inferInstanceAs (Decidable (members.Pairwise _))

mutual

/-- In every object of a value the members stand in increasing order of key. -/
def isSorted : Json → Bool
  | .null | .bool _ | .num _ | .str _ => true
  | .arr items => areSorted items
  | .obj members => decide (inOrder members) && haveSorted members

/-- Some items are sorted. -/
def areSorted : List Json → Bool
  | [] => true
  | item :: items => isSorted item && areSorted items

/-- The values of some members are sorted. -/
def haveSorted : List (String × Json) → Bool
  | [] => true
  | (_, value) :: members => isSorted value && haveSorted members

end

/-- A member whose key is greater than all others goes to the end. -/
theorem insertMember_of_lt {key : String} {value : Json} {members : List (String × Json)}
    (h : ∀ m ∈ members, m.1 < key) :
    insertMember key value members = members ++ [(key, value)] := by
  induction members with
  | nil => rfl
  | cons m members ih =>
    obtain ⟨k, v⟩ := m
    have hk : k < key := h (k, v) (List.mem_cons_self ..)
    rw [insertMember, if_neg (String.lt_asymm hk), if_neg (String.ne_of_lt hk).symm,
      ih fun m hm => h m (List.mem_cons_of_mem _ hm), List.cons_append]

/-! ## Reading within a depth -/

section

variable {α β ε : Type} {x : α} {y : β} {e : ε} {n : Nat}

/-- What reads no deeper than allowed goes on with what it read. -/
theorem bind_within {f : α → Except ε β} {a b : Nat}
    (hf : f x = if b ≤ n then .ok y else .error e) :
    ((if a ≤ n then Except.ok x else .error e) >>= f)
      = if max a b ≤ n then .ok y else .error e := by
  by_cases ha : a ≤ n
  · rw [if_pos ha]
    refine hf.trans ?_
    simp only [Nat.max_le, ha, true_and]
  · have hdeep : ¬max a b ≤ n := by omega
    rw [if_neg ha, if_neg hdeep]
    rfl

/-- What follows a check that may fail is made only when it passes. -/
theorem bind_within_ok {f : α → Except ε β} {a : Nat} (hf : f x = .ok y) :
    ((if a ≤ n then Except.ok x else .error e) >>= f) = if a ≤ n then .ok y else .error e := by
  split
  · exact hf
  · rfl

end

/-! ## Values -/

namespace Doc

mutual

/-- A value is read back if it is nested no deeper than allowed. -/
theorem value_ofJson : ∀ (j : Json) (n : Nat), j.isSorted = true →
    value n (ofJson j) = if j.depth ≤ n then .ok j else .error .malformed
  | .null, _, _ => rfl
  | .bool _, _, _ => rfl
  | .num _, _, _ => rfl
  | .str _, _, _ => rfl
  | .arr _, 0, _ => rfl
  | .arr items, n + 1, h => by
    rw [ofJson, value, values_ofItems items n h, depth]
    simp only [Nat.add_le_add_iff_right]
    exact bind_within_ok rfl
  | .obj _, 0, _ => rfl
  | .obj members, n + 1, h => by
    obtain ⟨horder, hsorted⟩ := Bool.and_eq_true_iff.mp h
    rw [ofJson, value, memberValues_ofMembers members n [] hsorted (of_decide_eq_true horder),
      depth]
    simp only [Nat.add_le_add_iff_right]
    exact bind_within_ok rfl

/-- Items are read back if none is too deep. -/
theorem values_ofItems : ∀ (items : List Json) (n : Nat), areSorted items = true →
    values n (ofItems items) = if itemDepth items ≤ n then .ok items else .error .malformed
  | [], _, _ => rfl
  | item :: items, n, h => by
    obtain ⟨hitem, hitems⟩ := Bool.and_eq_true_iff.mp h
    rw [ofItems, values, value_ofJson item n hitem, values_ofItems items n hitems, itemDepth]
    exact bind_within (bind_within_ok rfl)

/-- Members that go on in increasing order from those read before are put behind them. -/
theorem memberValues_ofMembers : ∀ (members : List (String × Json)) (n : Nat)
    (before : List (String × Json)), haveSorted members = true → inOrder (before ++ members) →
    memberValues n before (ofMembers members)
      = if memberDepth members ≤ n then .ok (before ++ members) else .error .malformed
  | [], _, before, _, _ => by
    rw [List.append_nil]
    rfl
  | (key, item) :: members, n, before, h, horder => by
    obtain ⟨hitem, hmembers⟩ := Bool.and_eq_true_iff.mp h
    have hlast : ∀ m ∈ before, m.1 < key := fun m hm =>
      (List.pairwise_append.mp horder).2.2 m hm (key, item) (List.mem_cons_self ..)
    have hmore : before ++ (key, item) :: members = (before ++ [(key, item)]) ++ members := by
      rw [List.append_assoc, List.singleton_append]
    rw [hmore] at horder ⊢
    have hrest := memberValues_ofMembers members n _ hmembers horder
    rw [ofMembers, memberValues, value_ofJson item n hitem, memberDepth]
    exact bind_within (by rw [insertMember_of_lt hlast, hrest])

end

end Doc

end StepPlan.Json
