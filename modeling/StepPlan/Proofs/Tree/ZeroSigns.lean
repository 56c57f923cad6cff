import StepPlan.Proofs.Snapshot.Currency
import StepPlan.Proofs.Tree.Injective

/-!
# Equal trees and their fingerprints

Trees are compared by their values, and fingerprints are made from the texts of these. The two
disagree over one thing: a double that is zero equals the zero of the other sign, and `0.0` and
`-0.0` are two texts. So a tree is told from an equal one by the signs of its zeros
(`Tree.zeroSigns`) and by nothing else (`Tree.fingerprint_eq_of_same`).
-/

namespace StepPlan

namespace Double

/-- The sign of a zero; nothing of any other double. -/
def zeroSigns (d : Double) : List Bool :=
  if d.mantissa = 0 then [d.negative] else []

/-- All zeros have one form. -/
theorem scale_eq_zero {d : Double} (h : d.mantissa = 0) : d.scale = 0 := by
  rcases d.normal with hscale | hmantissa
  · exact hscale
  · omega

/-- Equal doubles are the same one, unless they are zeros of two signs. -/
theorem eq_of_same_append {a b : Double} {x y : List Bool} (h : a.same b = true)
    (hsigns : a.zeroSigns ++ x = b.zeroSigns ++ y) : a = b ∧ x = y := by
  rcases Bool.or_eq_true_iff.mp h with heq | hzero
  · obtain rfl := beq_iff_eq.mp heq
    exact ⟨rfl, List.append_cancel_left hsigns⟩
  · obtain ⟨ha, hb⟩ : a.mantissa = 0 ∧ b.mantissa = 0 := by simpa using hzero
    have hsa := scale_eq_zero ha
    have hsb := scale_eq_zero hb
    rw [zeroSigns, zeroSigns, if_pos ha, if_pos hb] at hsigns
    obtain ⟨hnegative, hxy⟩ := List.cons.inj hsigns
    refine ⟨?_, hxy⟩
    obtain ⟨negative, mantissa, scale, _, _, _⟩ := a
    obtain ⟨negative', mantissa', scale', _, _, _⟩ := b
    obtain rfl : negative = negative' := hnegative
    obtain rfl : mantissa = mantissa' := ha.trans hb.symm
    obtain rfl : scale = scale' := hsa.trans hsb.symm
    rfl

end Double

/-! ## Values -/

namespace Json

mutual

/-- The signs of the zeros among the doubles of a value, in the order of its text. -/
def zeroSigns : Json → List Bool
  | .num (.double d) => d.zeroSigns
  | .null | .bool _ | .num (.int _) | .str _ => []
  | .arr items => itemZeroSigns items
  | .obj members => memberZeroSigns members

/-- The signs of the zeros in the items of an array. -/
def itemZeroSigns : List Json → List Bool
  | [] => []
  | item :: items => zeroSigns item ++ itemZeroSigns items

/-- The signs of the zeros in the members of an object. -/
def memberZeroSigns : List (String × Json) → List Bool
  | [] => []
  | (_, value) :: members => zeroSigns value ++ memberZeroSigns members

end

mutual

/-- Equal values whose zeros have the same signs are the same value. The signs may stand in front of
others, as those of an item stand in front of those of the next. -/
theorem eq_of_same_append : ∀ {a b : Json} {x y : List Bool}, a.same b = true →
    a.zeroSigns ++ x = b.zeroSigns ++ y → a = b ∧ x = y
  | .num (.double a), .num (.double b), x, y, h, hsigns => by
    obtain ⟨rfl, hxy⟩ := Double.eq_of_same_append h hsigns
    exact ⟨rfl, hxy⟩
  | .arr as, .arr bs, x, y, h, hsigns => by
    obtain ⟨rfl, hxy⟩ := items_eq_of_same_append h hsigns
    exact ⟨rfl, hxy⟩
  | .obj as, .obj bs, x, y, h, hsigns => by
    obtain ⟨rfl, hxy⟩ := members_eq_of_same_append h hsigns
    exact ⟨rfl, hxy⟩
  | .null, .null, _, _, _, hsigns => ⟨rfl, hsigns⟩
  | .bool a, .bool b, _, _, h, hsigns => ⟨congrArg bool (beq_iff_eq.mp h), hsigns⟩
  | .num (.int a), .num (.int b), _, _, h, hsigns =>
    ⟨congrArg (fun i => num (.int i)) (beq_iff_eq.mp h), hsigns⟩
  | .str a, .str b, _, _, h, hsigns => ⟨congrArg str (beq_iff_eq.mp h), hsigns⟩

theorem items_eq_of_same_append : ∀ {as bs : List Json} {x y : List Bool},
    sameItems as bs = true → itemZeroSigns as ++ x = itemZeroSigns bs ++ y → as = bs ∧ x = y
  | [], [], _, _, _, hsigns => ⟨rfl, hsigns⟩
  | a :: as, b :: bs, x, y, h, hsigns => by
    obtain ⟨hfirst, hrest⟩ := Bool.and_eq_true_iff.mp h
    rw [itemZeroSigns, itemZeroSigns, List.append_assoc, List.append_assoc] at hsigns
    obtain ⟨rfl, hmore⟩ := eq_of_same_append hfirst hsigns
    obtain ⟨rfl, hxy⟩ := items_eq_of_same_append hrest hmore
    exact ⟨rfl, hxy⟩

theorem members_eq_of_same_append : ∀ {as bs : List (String × Json)} {x y : List Bool},
    sameMembers as bs = true → memberZeroSigns as ++ x = memberZeroSigns bs ++ y →
      as = bs ∧ x = y
  | [], [], _, _, _, hsigns => ⟨rfl, hsigns⟩
  | (k, a) :: as, (l, b) :: bs, x, y, h, hsigns => by
    simp only [sameMembers, Bool.and_eq_true, beq_iff_eq] at h
    obtain ⟨⟨rfl, hfirst⟩, hrest⟩ := h
    rw [memberZeroSigns, memberZeroSigns, List.append_assoc, List.append_assoc] at hsigns
    obtain ⟨rfl, hmore⟩ := eq_of_same_append hfirst hsigns
    obtain ⟨rfl, hxy⟩ := members_eq_of_same_append hrest hmore
    exact ⟨rfl, hxy⟩

end

end Json

/-! ## Trees -/

namespace Tree

mutual

/-- The signs of the zeros among the doubles of a tree's values, in pre-order. -/
def zeroSigns : Tree → List Bool
  | ⟨_, _, value, children⟩ => (value.map Json.zeroSigns).getD [] ++ forestZeroSigns children

/-- The signs of the zeros in some trees. -/
def forestZeroSigns : List Tree → List Bool
  | [] => []
  | t :: ts => zeroSigns t ++ forestZeroSigns ts

end

theorem value_eq_of_same_append {v w : Option Json} {x y : List Bool} (h : sameValue v w = true)
    (hsigns : (v.map Json.zeroSigns).getD [] ++ x = (w.map Json.zeroSigns).getD [] ++ y) :
    v = w ∧ x = y := by
  match v, w with
  | none, none => exact ⟨rfl, hsigns⟩
  | some a, some b =>
    obtain ⟨rfl, hxy⟩ := Json.eq_of_same_append h hsigns
    exact ⟨rfl, hxy⟩

mutual

/-- Equal trees whose zeros have the same signs are the same tree. -/
theorem eq_of_same_append : ∀ {a b : Tree} {x y : List Bool}, a.same b = true →
    a.zeroSigns ++ x = b.zeroSigns ++ y → a = b ∧ x = y
  | ⟨_, _, value, children⟩, ⟨_, _, value', children'⟩, x, y, h, hsigns => by
    simp only [same, Bool.and_eq_true, beq_iff_eq] at h
    obtain ⟨⟨⟨rfl, rfl⟩, hvalue⟩, hchildren⟩ := h
    rw [zeroSigns, zeroSigns, List.append_assoc, List.append_assoc] at hsigns
    obtain ⟨rfl, hmore⟩ := value_eq_of_same_append hvalue hsigns
    obtain ⟨rfl, hxy⟩ := forest_eq_of_same_append hchildren hmore
    exact ⟨rfl, hxy⟩

theorem forest_eq_of_same_append : ∀ {as bs : List Tree} {x y : List Bool},
    sameForest as bs = true → forestZeroSigns as ++ x = forestZeroSigns bs ++ y → as = bs ∧ x = y
  | [], [], _, _, _, hsigns => ⟨rfl, hsigns⟩
  | a :: as, b :: bs, x, y, h, hsigns => by
    -- The first tree uses up its own signs, so the rest of them are left for the others.
    obtain ⟨hfirst, hrest⟩ := Bool.and_eq_true_iff.mp h
    rw [forestZeroSigns, forestZeroSigns, List.append_assoc, List.append_assoc] at hsigns
    obtain ⟨rfl, hmore⟩ := eq_of_same_append hfirst hsigns
    obtain ⟨rfl, hxy⟩ := forest_eq_of_same_append hrest hmore
    exact ⟨rfl, hxy⟩

end

/-- Equal trees whose zeros have the same signs are the same tree. -/
theorem eq_of_same_of_zeroSigns_eq {a b : Tree} (h : a.same b = true)
    (hsigns : a.zeroSigns = b.zeroSigns) : a = b :=
  (eq_of_same_append (x := []) (y := []) h (by rw [hsigns])).1

/-- Equal trees have one code exactly when their zeros have the same signs, and then they have one
fingerprint, and a snapshot of the one is current for the other. -/
theorem fingerprint_eq_of_same [Hasher] {a b : Tree} (h : a.same b = true) :
    (a.code = b.code ↔ a.zeroSigns = b.zeroSigns)
      ∧ (a.zeroSigns = b.zeroSigns →
          a.fingerprint = b.fingerprint ∧ (Snapshot.ofTree a).isCurrentFor b = true) := by
  refine ⟨⟨fun hcode => ?_, fun hsigns => ?_⟩, fun hsigns => ?_⟩
  · rw [code_injective hcode]
  · rw [eq_of_same_of_zeroSigns_eq h hsigns]
  · obtain rfl := eq_of_same_of_zeroSigns_eq h hsigns
    exact ⟨rfl, by simp [Snapshot.ofTree, Snapshot.ofPlan, Snapshot.isCurrentFor]⟩

end Tree

/-- The tree of one operation behind a directive whose value is a zero of this sign. -/
def zeroTree (negative : Bool) : Tree :=
  directedTree (.num (.double (.zero negative)))

theorem fingerprint_eq_zeroTree :
    (zeroTree false).same (zeroTree true) = true
      ∧ ((zeroTree false).code = (zeroTree true).code
        ↔ (zeroTree false).zeroSigns = (zeroTree true).zeroSigns)
      ∧ (zeroTree true).fingerprint = (zeroTree true).fingerprint
      ∧ (Snapshot.ofTree (zeroTree true)).isCurrentFor (zeroTree true) = true := by
  have hsame : (zeroTree false).same (zeroTree true) = true := by decide +kernel
  exact ⟨hsame, (Tree.fingerprint_eq_of_same hsame).1,
    (Tree.fingerprint_eq_of_same (Tree.same_self _)).2 rfl⟩

/-- Without the signs equality is not enough. -/
theorem fingerprint_ne_zeroTree :
    (zeroTree false).same (zeroTree true) = true
      ∧ (zeroTree false).fingerprint ≠ (zeroTree true).fingerprint
      ∧ (Snapshot.ofTree (zeroTree false)).isCurrentFor (zeroTree true) = false := by
  decide +kernel

end StepPlan
