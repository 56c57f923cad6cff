import StepPlan.Proofs.Json.Saying

/-!
# Values that have been read

A value that has been read keeps the members of its objects in increasing order of key, each key
once, and is nested no deeper than was allowed, whatever the text looked like: members in any order,
keys that come twice. Main statement: `Doc.isKept_of_value`. With `Doc.value_ofJson` such a value is
read back from its own text.
-/

namespace StepPlan.Json

/-! ## Members that are put in their places -/

/-- What stands among the members afterwards is the new one or was there. -/
theorem mem_insertMember {key : String} {value : Json} {members : List (String × Json)}
    {m : String × Json} (h : m ∈ insertMember key value members) :
    m = (key, value) ∨ m ∈ members := by
  induction members with
  | nil => exact .inl (List.mem_singleton.mp h)
  | cons first members ih =>
    obtain ⟨k, v⟩ := first
    rw [insertMember] at h
    split at h
    · exact List.mem_cons.mp h
    · split at h
      · exact (List.mem_cons.mp h).imp_right (List.mem_cons_of_mem _)
      · rcases List.mem_cons.mp h with rfl | h
        · exact .inr (List.mem_cons_self ..)
        · exact (ih h).imp_right (List.mem_cons_of_mem _)

/-- Members in order stay so when another one is put among them. -/
theorem inOrder_insertMember {members : List (String × Json)} (h : inOrder members)
    (key : String) (value : Json) : inOrder (insertMember key value members) := by
  -- By induction on the members, which come before or after the new key or share it.
  induction members with
  | nil => exact List.pairwise_singleton _ _
  | cons first members ih =>
    obtain ⟨k, v⟩ := first
    obtain ⟨hfirst, hmembers⟩ := List.pairwise_cons.mp h
    rw [insertMember]
    by_cases hlt : key < k
    · rw [if_pos hlt]
      refine List.pairwise_cons.mpr ⟨fun m hm => ?_, h⟩
      rcases List.mem_cons.mp hm with rfl | hm
      · exact hlt
      · exact String.lt_trans hlt (hfirst m hm)
    · rw [if_neg hlt]
      by_cases heq : key = k
      · rw [if_pos heq, heq]
        exact List.pairwise_cons.mpr ⟨hfirst, hmembers⟩
      · rw [if_neg heq]
        refine List.pairwise_cons.mpr ⟨fun m hm => ?_, ih hmembers⟩
        rcases mem_insertMember hm with rfl | hm
        · rcases Std.lt_trichotomy key k with h | h | h
          · exact absurd h hlt
          · exact absurd h heq
          · exact h
        · exact hfirst m hm

/-- Items are sorted when each of them is. -/
theorem areSorted_iff {items : List Json} :
    areSorted items = true ↔ ∀ j ∈ items, j.isSorted = true := by
  induction items with
  | nil => simp [areSorted]
  | cons item items ih => simp [areSorted, ih]

/-- Members are sorted when the value of each of them is. -/
theorem haveSorted_iff {members : List (String × Json)} :
    haveSorted members = true ↔ ∀ m ∈ members, m.2.isSorted = true := by
  induction members with
  | nil => simp [haveSorted]
  | cons m members ih => simp [haveSorted, ih]

/-- Items are as deep as the deepest of them. -/
theorem itemDepth_le_iff {items : List Json} {n : Nat} :
    itemDepth items ≤ n ↔ ∀ j ∈ items, j.depth ≤ n := by
  induction items with
  | nil => simp [itemDepth]
  | cons item items ih => simp only [itemDepth, Nat.max_le, ih, List.forall_mem_cons]

/-- Members are as deep as the deepest of them. -/
theorem memberDepth_le_iff {members : List (String × Json)} {n : Nat} :
    memberDepth members ≤ n ↔ ∀ m ∈ members, m.2.depth ≤ n := by
  induction members with
  | nil => simp [memberDepth]
  | cons m members ih => simp only [memberDepth, Nat.max_le, ih, List.forall_mem_cons]

/-! ## Readings -/

/-- The value is sorted and nested at most so deep. -/
structure IsKept (n : Nat) (v : Json) : Prop where
  isSorted : v.isSorted = true
  depth_le : v.depth ≤ n

/-- An array of values that are kept is kept, one level deeper. -/
theorem isKept_arr {n : Nat} {items : List Json} (h : ∀ j ∈ items, j.IsKept n) :
    (arr items).IsKept (n + 1) where
  isSorted := areSorted_iff.mpr fun j hj => (h j hj).isSorted
  depth_le := Nat.succ_le_succ (itemDepth_le_iff.mpr fun j hj => (h j hj).depth_le)

/-- An object of values that are kept is kept, one level deeper, if its keys are in order. -/
theorem isKept_obj {n : Nat} {members : List (String × Json)} (horder : inOrder members)
    (h : ∀ m ∈ members, m.2.IsKept n) : (obj members).IsKept (n + 1) where
  isSorted := Bool.and_eq_true_iff.mpr
    ⟨decide_eq_true horder, haveSorted_iff.mpr fun m hm => (h m hm).isSorted⟩
  depth_le := Nat.succ_le_succ (memberDepth_le_iff.mpr fun m hm => (h m hm).depth_le)

namespace Doc

mutual

/-- Whatever is read as a value is sorted and nested no deeper than allowed. -/
theorem isKept_of_value : ∀ (d : Doc) {n : Nat} {v : Json}, d.value n = .ok v → v.IsKept n
  | .null, n, v, h => by
    obtain rfl := Except.ok.inj h
    exact ⟨rfl, Nat.zero_le n⟩
  | .bool b, n, v, h => by
    obtain rfl := Except.ok.inj h
    exact ⟨rfl, Nat.zero_le n⟩
  | .num none, _, _, h => by cases h
  | .num (some number), n, v, h => by
    obtain rfl := Except.ok.inj h
    exact ⟨rfl, Nat.zero_le n⟩
  | .str none, _, _, h => by cases h
  | .str (some s), n, v, h => by
    obtain rfl := Except.ok.inj h
    exact ⟨rfl, Nat.zero_le n⟩
  | .arr items ending, 0, _, h => by cases h
  | .arr items ending, n + 1, v, h => by
    rw [value] at h
    obtain ⟨js, hjs, h⟩ := bind_eq_ok_iff.mp h
    obtain ⟨u, -, h⟩ := bind_eq_ok_iff.mp h
    obtain rfl := Except.ok.inj h
    exact isKept_arr (areKept_of_values items hjs)
  | .obj members ending, 0, _, h => by cases h
  | .obj members ending, n + 1, v, h => by
    rw [value] at h
    obtain ⟨ms, hms, h⟩ := bind_eq_ok_iff.mp h
    obtain ⟨u, -, h⟩ := bind_eq_ok_iff.mp h
    obtain rfl := Except.ok.inj h
    obtain ⟨horder, hkept⟩ := haveKept_of_memberValues members .nil (List.forall_mem_nil _) hms
    exact isKept_obj horder hkept
  | .broken piece, _, _, h => by cases h

/-- Items that are read are kept as they are. -/
theorem areKept_of_values : ∀ (items : List Doc) {n : Nat} {js : List Json},
    values n items = .ok js → ∀ j ∈ js, j.IsKept n
  | [], n, js, h => by
    obtain rfl := Except.ok.inj h
    exact List.forall_mem_nil _
  | item :: items, n, js, h => by
    rw [values] at h
    obtain ⟨j, hj, h⟩ := bind_eq_ok_iff.mp h
    obtain ⟨rest, hrest, h⟩ := bind_eq_ok_iff.mp h
    obtain rfl := Except.ok.inj h
    exact List.forall_mem_cons.mpr ⟨isKept_of_value item hj, areKept_of_values items hrest⟩

/-- Members get to their places among those read before, which are in order. -/
theorem haveKept_of_memberValues : ∀ (members : List (Key × Doc)) {n : Nat}
    {before after : List (String × Json)}, inOrder before → (∀ m ∈ before, m.2.IsKept n) →
      memberValues n before members = .ok after → inOrder after ∧ ∀ m ∈ after, m.2.IsKept n
  | [], n, before, after, horder, hbefore, h => by
    obtain rfl := Except.ok.inj h
    exact ⟨horder, hbefore⟩
  | (key, item) :: members, n, before, after, horder, hbefore, h => by
    rw [memberValues] at h
    obtain ⟨name, -, h⟩ := bind_eq_ok_iff.mp h
    obtain ⟨j, hj, h⟩ := bind_eq_ok_iff.mp h
    refine haveKept_of_memberValues members (inOrder_insertMember horder name j) ?_ h
    intro m hm
    rcases mem_insertMember hm with rfl | hm
    · exact isKept_of_value item hj
    · exact hbefore m hm

end

end Doc

end StepPlan.Json
