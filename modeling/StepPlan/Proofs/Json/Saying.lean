import StepPlan.Proofs.Json.ReadBack

/-!
# What a document says

`Doc.SaysValue` tells which value a document says, and how deep its arrays and objects may be nested
for that. The members of an object stand in any order, each key once. Such a document is read as
that value: `Doc.value_of_saysValue`.

The order does not matter because reading two members of different keys one after the other comes to
the same either way. `foldlM_of_perm` says so of any such reading.
-/

namespace StepPlan

section

variable {ε α β σ μ : Type}

/-- Two parts succeed when the first one does and then the second. -/
theorem bind_eq_ok_iff {x : Except ε α} {f : α → Except ε β} {b : β} :
    (x >>= f) = .ok b ↔ ∃ a, x = .ok a ∧ f a = .ok b := by
  cases x with
  | error e =>
    constructor
    · intro h
      cases h
    · rintro ⟨a, ha, -⟩
      cases ha
  | ok a =>
    constructor
    · intro h
      exact ⟨a, rfl, h⟩
    · rintro ⟨a', ha, h⟩
      cases ha
      exact h

/-- What is made of a result is there when the result is. -/
theorem map_eq_ok_iff {x : Except ε α} {f : α → β} {b : β} :
    f <$> x = .ok b ↔ ∃ a, x = .ok a ∧ f a = b := by
  rw [map_eq_pure_bind, bind_eq_ok_iff]
  simp only [pure, Except.pure, Except.ok.injEq]

/-- What goes through in one order goes through in any other and comes to the same, if that is so
of any two steps. -/
theorem foldlM_of_perm {step : σ → μ → Except ε σ} {R : μ → μ → Prop}
    (hsymm : ∀ {a b : μ}, R a b → R b a)
    (hswap : ∀ {a b : μ}, R a b → ∀ {s r : σ},
      (step s a >>= fun s => step s b) = .ok r → (step s b >>= fun s => step s a) = .ok r)
    {ms ms' : List μ} (hperm : ms.Perm ms') :
    ms.Pairwise R → ∀ {s r : σ}, ms.foldlM step s = .ok r → ms'.foldlM step s = .ok r := by
  -- By induction on the rearrangement; only where two neighbours change places do they matter.
  induction hperm with
  | nil =>
    intro _ s r h
    exact h
  | cons m hperm ih =>
    intro hpair s r h
    rw [List.foldlM_cons, bind_eq_ok_iff] at h ⊢
    obtain ⟨s', hs', hrest⟩ := h
    exact ⟨s', hs', ih (List.pairwise_cons.mp hpair).2 hrest⟩
  | swap a b ms =>
    intro hpair s r h
    have hab : R b a := (List.pairwise_cons.mp hpair).1 a (List.mem_cons_self ..)
    simp only [List.foldlM_cons, ← bind_assoc] at h ⊢
    rw [bind_eq_ok_iff] at h ⊢
    obtain ⟨s', hs', hrest⟩ := h
    exact ⟨s', hswap hab hs', hrest⟩
  | trans hperm hperm' ih ih' =>
    intro hpair s r h
    exact ih' (hperm.pairwise hpair hsymm) (ih hpair h)

end

namespace Json

/-- Faults make no difference to success. -/
theorem liftFault_eq_ok_iff {α : Type} {x : Except Fault α} {a : α} :
    liftFault x = .ok a ↔ x = .ok a := by
  cases x with
  | error f =>
    constructor
    · intro h
      cases h
    · intro h
      cases h
  | ok b => simp only [liftFault, Except.ok.injEq]

/-! ## Members in any order -/

/-- Members of different keys get to their places one after the other, in either order. -/
theorem insertMember_insertMember {k l : String} (h : k < l) (v w : Json)
    (members : List (String × Json)) :
    insertMember k v (insertMember l w members) = insertMember l w (insertMember k v members) := by
  have hne : l ≠ k := fun heq => String.ne_of_lt h heq.symm
  have hafter : ¬l < k := String.lt_asymm h
  induction members with
  | nil => simp [insertMember, h, hne, hafter]
  | cons m members ih =>
    obtain ⟨x, u⟩ := m
    -- The place of the greater key is before `x`, at `x` or behind it.
    rcases Std.lt_trichotomy l x with hl | rfl | hl
    · have hk : k < x := String.lt_trans h hl
      simp [insertMember, h, hl, hk, hne, hafter]
    · simp [insertMember, h, hne, hafter]
    · have hlx : ¬l < x := String.lt_asymm hl
      have hlne : l ≠ x := fun heq => String.ne_of_lt hl heq.symm
      rcases Std.lt_trichotomy k x with hk | rfl | hk
      · simp [insertMember, hlx, hlne, hk, hne, hafter]
      · simp [insertMember, hne, hafter]
      · have hkx : ¬k < x := String.lt_asymm hk
        have hkne : k ≠ x := fun heq => String.ne_of_lt hk heq.symm
        simp [insertMember, hlx, hlne, hkx, hkne, ih]

/-- Members of two keys may be put in either order. -/
theorem insertMember_comm {k l : String} (h : k ≠ l) (v w : Json)
    (members : List (String × Json)) :
    insertMember k v (insertMember l w members) = insertMember l w (insertMember k v members) := by
  rcases Std.lt_trichotomy k l with hlt | heq | hlt
  · exact insertMember_insertMember hlt v w members
  · exact absurd heq h
  · exact (insertMember_insertMember hlt w v members).symm

/-- A key is read when it is a string that stands for a text. -/
theorem Key.read_eq_ok_iff {key : Key} {s : String} : key.read = .ok s ↔ key = .text (some s) := by
  constructor
  · intro h
    cases key with
    | broken piece => cases h
    | text value =>
      cases value with
      | none => cases h
      | some value =>
        obtain rfl := Except.ok.inj h
        rfl
  · rintro rfl
    rfl

namespace Doc

/-- Reads a member and puts it among those read before. -/
def readMember (n : Nat) (before : List (String × Json)) (m : Key × Doc) :
    Except Fault (List (String × Json)) := do
  let key ← m.1.read
  let item ← value n m.2
  return insertMember key item before

/-- Members are read one after the other. -/
theorem memberValues_eq_foldlM (n : Nat) (members : List (Key × Doc))
    (before : List (String × Json)) :
    memberValues n before members = members.foldlM (readMember n) before := by
  induction members generalizing before with
  | nil => rfl
  | cons m members ih =>
    obtain ⟨key, item⟩ := m
    rw [memberValues, List.foldlM_cons, readMember]
    cases key.read with
    | error e => rfl
    | ok k =>
      cases value n item with
      | error e => rfl
      | ok v => exact ih _

/-- A member is read when its key and its value are, and it is put among the others. -/
theorem readMember_eq_ok_iff {n : Nat} {before after : List (String × Json)} {m : Key × Doc} :
    readMember n before m = .ok after
      ↔ ∃ key item, m.1 = .text (some key) ∧ value n m.2 = .ok item
          ∧ insertMember key item before = after := by
  unfold readMember
  simp only [bind_eq_ok_iff, Key.read_eq_ok_iff, pure, Except.pure, Except.ok.injEq,
    exists_and_left]

/-- Members of different keys are read in any order. -/
theorem memberValues_of_perm {n : Nat} {members members' : List (Key × Doc)}
    (hperm : members.Perm members') (hkeys : members.Pairwise fun a b => a.1 ≠ b.1)
    {before after : List (String × Json)} (h : memberValues n before members = .ok after) :
    memberValues n before members' = .ok after := by
  rw [memberValues_eq_foldlM] at h ⊢
  refine foldlM_of_perm (fun hne => hne.symm) ?_ hperm hkeys h
  intro a b hne s r hread
  obtain ⟨s', hs', hr⟩ := bind_eq_ok_iff.mp hread
  obtain ⟨k, v, hk, hv, rfl⟩ := readMember_eq_ok_iff.mp hs'
  obtain ⟨l, w, hl, hw, rfl⟩ := readMember_eq_ok_iff.mp hr
  have hkl : k ≠ l := by
    intro heq
    exact hne (by rw [hk, hl, heq])
  refine bind_eq_ok_iff.mpr ⟨insertMember l w s, readMember_eq_ok_iff.mpr ⟨l, w, hl, hw, rfl⟩, ?_⟩
  exact readMember_eq_ok_iff.mpr ⟨k, v, hk, hv, insertMember_comm hkl v w s⟩

/-! ## Values -/

mutual

/-- The document says the value, with arrays and objects nested at most so deep. -/
inductive SaysValue : Nat → Doc → Json → Prop where
  | null {n : Nat} : SaysValue n .null .null
  | bool {n : Nat} (b : Bool) : SaysValue n (.bool b) (.bool b)
  | num {n : Nat} (v : Number) : SaysValue n (.num (some v)) (.num v)
  | str {n : Nat} (s : String) : SaysValue n (.str (some s)) (.str s)
  | arr {n : Nat} {docs : List Doc} {items : List Json} (h : SaysItems n docs items) :
      SaysValue (n + 1) (.arr docs .closed) (.arr items)
  /-- The members stand in any order; no two have the same key. -/
  | obj {n : Nat} {docs ordered : List (Key × Doc)} {members : List (String × Json)}
      (hperm : docs.Perm ordered) (h : SaysMembers n ordered members) (horder : inOrder members) :
      SaysValue (n + 1) (.obj docs .closed) (.obj members)

/-- The documents say the values, one by one. -/
inductive SaysItems : Nat → List Doc → List Json → Prop where
  | nil {n : Nat} : SaysItems n [] []
  | cons {n : Nat} {doc : Doc} {docs : List Doc} {item : Json} {items : List Json}
      (h : SaysValue n doc item) (hrest : SaysItems n docs items) :
      SaysItems n (doc :: docs) (item :: items)

/-- The members of a document say the members of an object, one by one. -/
inductive SaysMembers : Nat → List (Key × Doc) → List (String × Json) → Prop where
  | nil {n : Nat} : SaysMembers n [] []
  | cons {n : Nat} {key : String} {doc : Doc} {docs : List (Key × Doc)} {item : Json}
      {members : List (String × Json)} (h : SaysValue n doc item)
      (hrest : SaysMembers n docs members) :
      SaysMembers n ((.text (some key), doc) :: docs) ((key, item) :: members)

end

/-- Members are said under their own keys. -/
theorem keys_of_saysMembers {n : Nat} {docs : List (Key × Doc)} {members : List (String × Json)} :
    SaysMembers n docs members →
    docs.map Prod.fst = members.map fun m => Key.text (some m.1)
  | .nil => rfl
  | .cons _ hrest => by
    rw [List.map_cons, List.map_cons, keys_of_saysMembers hrest]

/-- Members in increasing order of key have different keys. -/
theorem pairwise_keys_of_saysMembers {n : Nat} {docs : List (Key × Doc)}
    {members : List (String × Json)} (h : SaysMembers n docs members) (horder : inOrder members) :
    docs.Pairwise fun a b => a.1 ≠ b.1 := by
  have hkeys : (members.map fun m => Key.text (some m.1)).Pairwise (· ≠ ·) := by
    rw [List.pairwise_map]
    refine horder.imp ?_
    intro a b hlt heq
    injection heq with heq
    injection heq with heq
    exact String.ne_of_lt hlt heq
  rw [← keys_of_saysMembers h, List.pairwise_map] at hkeys
  exact hkeys

mutual

/-- A document that says a value is read as that value. -/
theorem value_of_saysValue : ∀ {n : Nat} {d : Doc} {j : Json}, SaysValue n d j →
    value n d = .ok j
  | _, _, _, .null => rfl
  | _, _, _, .bool _ => rfl
  | _, _, _, .num _ => rfl
  | _, _, _, .str _ => rfl
  | _, _, _, .arr h => by
    rw [value, values_of_saysItems h]
    rfl
  | _, _, _, .obj hperm h horder => by
    have hordered : memberValues _ [] _ = .ok ([] ++ _) := memberValues_of_saysMembers h horder
    have hread := memberValues_of_perm hperm.symm (pairwise_keys_of_saysMembers h horder) hordered
    rw [value, hread]
    rfl

/-- What says items is read as them. -/
theorem values_of_saysItems : ∀ {n : Nat} {docs : List Doc} {items : List Json},
    SaysItems n docs items → values n docs = .ok items
  | _, _, _, .nil => rfl
  | _, _, _, .cons h hrest => by
    rw [values, value_of_saysValue h, values_of_saysItems hrest]
    rfl

/-- Members in order go behind those read before. -/
theorem memberValues_of_saysMembers : ∀ {n : Nat} {docs : List (Key × Doc)}
    {members before : List (String × Json)}, SaysMembers n docs members →
    inOrder (before ++ members) → memberValues n before docs = .ok (before ++ members)
  | _, _, _, before, .nil, _ => by
    rw [List.append_nil]
    rfl
  | n, _, _, before, @SaysMembers.cons _ key _ _ item members h hrest, horder => by
    have hlast : ∀ m ∈ before, m.1 < key := fun m hm =>
      (List.pairwise_append.mp horder).2.2 m hm (key, item) (List.mem_cons_self ..)
    have hmore : before ++ (key, item) :: members = (before ++ [(key, item)]) ++ members := by
      rw [List.append_assoc, List.singleton_append]
    rw [hmore] at horder ⊢
    rw [memberValues, value_of_saysValue h]
    show memberValues n (insertMember key item before) _ = _
    rw [insertMember_of_lt hlast, memberValues_of_saysMembers hrest horder]

end

mutual

/-- The document that a value is written as says the value. -/
theorem saysValue_ofJson : ∀ (j : Json) {n : Nat}, j.isSorted = true → j.depth ≤ n →
    SaysValue n (ofJson j) j
  | .null, _, _, _ => .null
  | .bool b, _, _, _ => .bool b
  | .num v, _, _, _ => .num v
  | .str s, _, _, _ => .str s
  | .arr items, 0, _, hdepth => absurd hdepth (Nat.not_succ_le_zero _)
  | .arr items, n + 1, h, hdepth =>
    .arr (saysItems_ofItems items h (Nat.le_of_succ_le_succ hdepth))
  | .obj members, 0, _, hdepth => absurd hdepth (Nat.not_succ_le_zero _)
  | .obj members, n + 1, h, hdepth => by
    obtain ⟨horder, hsorted⟩ := Bool.and_eq_true_iff.mp h
    exact .obj (.refl _) (saysMembers_ofMembers members hsorted (Nat.le_of_succ_le_succ hdepth))
      (of_decide_eq_true horder)

/-- Items are said by their documents, one by one. -/
theorem saysItems_ofItems : ∀ (items : List Json) {n : Nat}, areSorted items = true →
    itemDepth items ≤ n → SaysItems n (ofItems items) items
  | [], _, _, _ => .nil
  | item :: items, n, h, hdepth => by
    obtain ⟨hitem, hitems⟩ := Bool.and_eq_true_iff.mp h
    obtain ⟨hfirst, hrest⟩ := Nat.max_le.mp hdepth
    exact .cons (saysValue_ofJson item hitem hfirst) (saysItems_ofItems items hitems hrest)

/-- Members are said by their documents, one by one. -/
theorem saysMembers_ofMembers : ∀ (members : List (String × Json)) {n : Nat},
    haveSorted members = true → memberDepth members ≤ n →
    SaysMembers n (ofMembers members) members
  | [], _, _, _ => .nil
  | (key, item) :: members, n, h, hdepth => by
    obtain ⟨hitem, hmembers⟩ := Bool.and_eq_true_iff.mp h
    obtain ⟨hfirst, hrest⟩ := Nat.max_le.mp hdepth
    exact .cons (saysValue_ofJson item hitem hfirst)
      (saysMembers_ofMembers members hmembers hrest)

end

end Doc

end Json

end StepPlan
