import StepPlan.Proofs.Json.Building
import StepPlan.Proofs.Json.ReadValues

/-!
# The range of whole numbers

A whole number is read as one only if it is in the range in which whole numbers are kept; outside of
it a double is read. So a value that has been read and holds no double holds nothing but whole
numbers of that range: `isWhole_of_value`.
-/

namespace StepPlan

/-- A double, or a whole number in the range in which whole numbers are kept. -/
def Number.isInRange : Number → Bool
  | .int i => decide (leastInt ≤ i ∧ i ≤ greatestInt)
  | .double _ => true

namespace Json

/-! ## Tokens -/

/-- A whole number that a literal stands for is in range. -/
theorem Numeral.isInRange_of_value? {n : Numeral} {v : Number} (h : n.value? = some v) :
    v.isInRange = true := by
  have hdouble : n.double? = some v → v.isInRange = true := by
    intro hv
    obtain ⟨d, -, rfl⟩ := Option.map_eq_some_iff.mp hv
    rfl
  -- The range is checked before the literal is taken for a whole number.
  have hwhole : ∀ i : Int, (if n.decimal.full ∨ (n.negative ∧ n.decimal.digits = 0) then n.double?
      else if Number.leastInt ≤ i ∧ i ≤ Number.greatestInt then some (.int i) else n.double?)
        = some v → v.isInRange = true := by
    intro i hi
    split at hi
    · exact hdouble hi
    · split at hi
      next hrange =>
        obtain rfl := Option.some.inj hi
        exact decide_eq_true hrange
      next => exact hdouble hi
  rw [value?] at h
  cases hphase : n.phase with
  | zero | digits =>
    simp only [hphase] at h
    exact hwhole _ h
  | _ =>
    simp only [hphase] at h
    exact hdouble h

/-- A number of the token, if it has one, is in range. -/
def Token.isInRange : Token → Bool
  | .num (some v) => v.isInRange
  | _ => true

/-- The token of a literal is in range. -/
theorem Token.isInRange_num (n : Numeral) : (Token.num n.value?).isInRange = true := by
  cases h : n.value? with
  | none => rfl
  | some v => exact Numeral.isInRange_of_value? h

namespace Mode

/-- The token of a word that has begun is in range. -/
def isInRange : Mode → Bool
  | .word _ _ token => token.isInRange
  | _ => true

/-- A first character completes no number, and starts one at most. -/
theorem isInRange_start (c : Char) :
    (∀ t ∈ (start c).1, t.isInRange = true) ∧ (start c).2.isInRange = true := by
  unfold start
  split
  all_goals try exact ⟨by simp [Token.isInRange], rfl⟩
  split
  · exact ⟨List.forall_mem_nil _, rfl⟩
  · split
    · exact ⟨List.forall_mem_nil _, rfl⟩
    · exact ⟨by simp [Token.isInRange, brokenWord], rfl⟩

/-- Each step completes tokens in range only. -/
theorem isInRange_step {m : Mode} (hm : m.isInRange = true) (c : Char) (behind : List Char) :
    (∀ t ∈ (m.step c behind).1, t.isInRange = true) ∧ (m.step c behind).2.isInRange = true := by
  have hbroken : ∀ piece, ∀ t ∈ [Token.broken piece], t.isInRange = true := by
    intro piece
    exact List.forall_mem_singleton.mpr rfl
  -- Only inside a number can a step complete one; every other mode completes tokens of other sorts.
  cases m with
  | between => exact isInRange_start c
  | word next rest token =>
    simp only [step]
    split
    · cases rest with
      | nil => exact ⟨List.forall_mem_singleton.mpr hm, rfl⟩
      | cons next rest => exact ⟨List.forall_mem_nil _, hm⟩
    · exact ⟨hbroken _, rfl⟩
  | number n =>
    rw [step]
    split
    · exact ⟨List.forall_mem_nil _, rfl⟩
    · split
      · obtain ⟨htokens, hafter⟩ := isInRange_start c
        exact ⟨List.forall_mem_cons.mpr ⟨Token.isInRange_num n, htokens⟩, hafter⟩
      · exact ⟨hbroken _, rfl⟩
  | text pieces =>
    rw [step]
    split
    · exact ⟨List.forall_mem_singleton.mpr rfl, rfl⟩
    · split
      · exact ⟨List.forall_mem_nil _, rfl⟩
      · split
        · exact ⟨hbroken _, rfl⟩
        · exact ⟨List.forall_mem_nil _, rfl⟩
  | escape pieces =>
    rw [step]
    split
    · exact ⟨List.forall_mem_nil _, rfl⟩
    · split
      · exact ⟨List.forall_mem_nil _, rfl⟩
      · exact ⟨hbroken _, rfl⟩
  | code pieces count value =>
    rw [step]
    split
    · split
      · exact ⟨List.forall_mem_nil _, rfl⟩
      · exact ⟨List.forall_mem_nil _, rfl⟩
    · exact ⟨hbroken _, rfl⟩
  | halted => exact ⟨List.forall_mem_nil _, rfl⟩

/-- The end of the text completes tokens in range only. -/
theorem isInRange_finish (m : Mode) : ∀ t ∈ m.finish, t.isInRange = true := by
  cases m with
  | between | halted => exact List.forall_mem_nil _
  | number n =>
    rw [finish]
    split
    · exact List.forall_mem_singleton.mpr (Token.isInRange_num n)
    · exact List.forall_mem_singleton.mpr rfl
  | word next rest token | text pieces | escape pieces | code pieces count value =>
    exact List.forall_mem_singleton.mpr rfl

end Mode

/-- All tokens of a text are in range. -/
theorem Token.isInRange_of_mem_scan {m : Mode} (hm : m.isInRange = true) (cs : List Char) :
    ∀ t ∈ scan m cs, t.isInRange = true := by
  induction cs generalizing m with
  | nil => exact m.isInRange_finish
  | cons c cs ih =>
    obtain ⟨htokens, hafter⟩ := Mode.isInRange_step hm c cs
    rw [scan_cons]
    exact List.forall_mem_append.mpr ⟨htokens, ih hafter⟩

/-! ## Documents and values -/

/-- The number stands somewhere in the document. -/
inductive Doc.Has (n : Number) : Doc → Prop where
  | num : Has n (.num (some n))
  | arr {items : List Doc} {ending : Ending} {d : Doc} (hd : d ∈ items) (h : Has n d) :
      Has n (.arr items ending)
  | obj {members : List (Key × Doc)} {ending : Ending} {m : Key × Doc} (hm : m ∈ members)
      (h : Has n m.2) : Has n (.obj members ending)

/-- The number stands somewhere in the value. -/
inductive Has (n : Number) : Json → Prop where
  | num : Has n (.num n)
  | arr {items : List Json} {j : Json} (hj : j ∈ items) (h : Has n j) : Has n (.arr items)
  | obj {members : List (String × Json)} {m : String × Json} (hm : m ∈ members) (h : Has n m.2) :
      Has n (.obj members)

namespace Doc

/-- All numbers of the document are in range. -/
def InRange (d : Doc) : Prop :=
  ∀ n, d.Has n → n.isInRange = true

/-- An array or object holds the numbers that its parts hold. -/
theorem spreads_inRange : Spreads InRange where
  broken := by
    intro piece n h
    cases h
  arr := by
    intro items ending h n hn
    cases hn with
    | arr hd hn => exact h _ hd n hn
  obj := by
    intro members ending h n hn
    cases hn with
    | obj hm hn => exact h _ hm n hn

/-- All numbers of the document of a text are in range. -/
theorem inRange_ofText (s : String) : (ofText s).root.InRange := by
  refine root_ofTokens spreads_inRange fun t ht d hd => ?_
  have hrange := Token.isInRange_of_mem_scan (m := .between) rfl s.toList t ht
  cases t with
  | num v =>
    obtain rfl := Option.some.inj hd
    intro n hn
    cases hn
    exact hrange
  | null | bool b | str v =>
    obtain rfl := Option.some.inj hd
    intro n hn
    cases hn
  | _ => cases hd

mutual

/-- A value has no numbers but those of the document that it is read from. -/
theorem has_of_value : ∀ (d : Doc) {n : Nat} {v : Json} {x : Number}, d.value n = .ok v →
    v.Has x → d.Has x
  | .null, _, _, _, h, hx => by
    obtain rfl := Except.ok.inj h
    cases hx
  | .bool b, _, _, _, h, hx => by
    obtain rfl := Except.ok.inj h
    cases hx
  | .num none, _, _, _, h, _ => by cases h
  | .num (some number), _, _, _, h, hx => by
    obtain rfl := Except.ok.inj h
    cases hx
    exact .num
  | .str none, _, _, _, h, _ => by cases h
  | .str (some s), _, _, _, h, hx => by
    obtain rfl := Except.ok.inj h
    cases hx
  | .arr items ending, 0, _, _, h, _ => by cases h
  | .arr items ending, n + 1, v, x, h, hx => by
    rw [value] at h
    obtain ⟨js, hjs, h⟩ := bind_eq_ok_iff.mp h
    obtain ⟨u, -, h⟩ := bind_eq_ok_iff.mp h
    obtain rfl := Except.ok.inj h
    cases hx with
    | arr hj hx =>
      obtain ⟨d, hd, hx⟩ := has_of_values items hjs hj hx
      exact .arr hd hx
  | .obj members ending, 0, _, _, h, _ => by cases h
  | .obj members ending, n + 1, v, x, h, hx => by
    rw [value] at h
    obtain ⟨ms, hms, h⟩ := bind_eq_ok_iff.mp h
    obtain ⟨u, -, h⟩ := bind_eq_ok_iff.mp h
    obtain rfl := Except.ok.inj h
    cases hx with
    | obj hm hx =>
      rcases has_of_memberValues members hms hm hx with hnil | ⟨m, hm, hx⟩
      · cases hnil
      · exact .obj hm hx
  | .broken piece, _, _, _, h, _ => by cases h

/-- The numbers among values come from the items that these are read from. -/
theorem has_of_values : ∀ (items : List Doc) {n : Nat} {js : List Json} {j : Json} {x : Number},
    values n items = .ok js → j ∈ js → j.Has x → ∃ d ∈ items, d.Has x
  | [], _, _, _, _, h, hj, _ => by
    obtain rfl := Except.ok.inj h
    cases hj
  | item :: items, n, js, j, x, h, hj, hx => by
    rw [values] at h
    obtain ⟨first, hfirst, h⟩ := bind_eq_ok_iff.mp h
    obtain ⟨rest, hrest, h⟩ := bind_eq_ok_iff.mp h
    obtain rfl := Except.ok.inj h
    rcases List.mem_cons.mp hj with rfl | hj
    · exact ⟨item, List.mem_cons_self .., has_of_value item hfirst hx⟩
    · obtain ⟨d, hd, hx⟩ := has_of_values items hrest hj hx
      exact ⟨d, List.mem_cons_of_mem _ hd, hx⟩

/-- The numbers among members come from where these are read, or were there before. -/
theorem has_of_memberValues : ∀ (members : List (Key × Doc)) {n : Nat}
    {before after : List (String × Json)} {m : String × Json} {x : Number},
    memberValues n before members = .ok after → m ∈ after → m.2.Has x →
      m ∈ before ∨ ∃ m' ∈ members, m'.2.Has x
  | [], _, _, _, _, _, h, hm, _ => by
    obtain rfl := Except.ok.inj h
    exact .inl hm
  | (key, item) :: members, n, before, after, m, x, h, hm, hx => by
    rw [memberValues] at h
    obtain ⟨name, -, h⟩ := bind_eq_ok_iff.mp h
    obtain ⟨j, hj, h⟩ := bind_eq_ok_iff.mp h
    rcases has_of_memberValues members h hm hx with hm | ⟨m', hm', hx⟩
    · rcases mem_insertMember hm with rfl | hm
      · exact .inr ⟨(key, item), List.mem_cons_self .., has_of_value item hj hx⟩
      · exact .inl hm
    · exact .inr ⟨m', List.mem_cons_of_mem _ hm', hx⟩

end

end Doc

mutual

/-- A value is one of whole numbers if each of its numbers is whole and in range. -/
theorem isWhole_of_forall : ∀ (v : Json), (∀ x, v.Has x → x.isWhole = true) → v.isWhole = true
  | .null, _ => rfl
  | .bool _, _ => rfl
  | .num n, h => h n .num
  | .str _, _ => rfl
  | .arr items, h => areWhole_of_forall items fun _ hj x hx => h x (.arr hj hx)
  | .obj members, h => haveWhole_of_forall members fun _ hm x hx => h x (.obj hm hx)

/-- Items that hold whole numbers only hold no double. -/
theorem areWhole_of_forall : ∀ (items : List Json),
    (∀ j ∈ items, ∀ x, j.Has x → x.isWhole = true) → areWhole items = true
  | [], _ => rfl
  | item :: items, h => by
    obtain ⟨hitem, hitems⟩ := List.forall_mem_cons.mp h
    rw [areWhole, isWhole_of_forall item hitem, areWhole_of_forall items hitems]
    rfl

/-- Members that hold whole numbers only hold no double. -/
theorem haveWhole_of_forall : ∀ (members : List (String × Json)),
    (∀ m ∈ members, ∀ x, m.2.Has x → x.isWhole = true) → haveWhole members = true
  | [], _ => rfl
  | (key, item) :: members, h => by
    obtain ⟨hitem, hmembers⟩ := List.forall_mem_cons.mp h
    rw [haveWhole, isWhole_of_forall item hitem, haveWhole_of_forall members hmembers]
    rfl

end

/-- No number of the value is a double. -/
def HasNoDouble (v : Json) : Prop :=
  ∀ d, ¬v.Has (.double d)

/-- A value that is read from numbers in range and has no double is one of whole numbers. -/
theorem isWhole_of_value {d : Doc} {n : Nat} {v : Json} (hd : d.InRange) (h : d.value n = .ok v)
    (hv : v.HasNoDouble) : v.isWhole = true := by
  refine isWhole_of_forall v fun x hx => ?_
  cases x with
  | int i => exact hd _ (Doc.has_of_value d h hx)
  | double x => exact absurd hx (hv x)

end Json

end StepPlan
