import StepPlan.Proofs.Text.Utf8
import StepPlan.Tree.Fingerprint

/-!
# What the code of a tree tells

The code of a tree runs all its pieces together. It can be taken apart again: no piece is the
beginning of another of its sort, so where one tree ends in a sequence is settled by the sequence
itself. What comes back is the tree with every value given by its JSON text (`Tree.spelled`).

Main statement: `Tree.code_append_inj`. Trees whose codes agree, whatever stands behind them, are
spelled alike.
-/

namespace StepPlan

/-- A list up to the first `z` is told from what follows. -/
theorem append_cons_inj_of_notMem {α : Type} {z : α} :
    ∀ {xs ys x y : List α}, z ∉ xs → z ∉ ys → xs ++ z :: x = ys ++ z :: y → xs = ys ∧ x = y
  | [], [], _, _, _, _, h => ⟨rfl, (List.cons.inj h).2⟩
  | [], b :: ys, _, _, _, hy, h => absurd (List.cons.inj h).1 (List.ne_of_not_mem_cons hy)
  | a :: xs, [], _, _, hx, _, h => absurd (List.cons.inj h).1.symm (List.ne_of_not_mem_cons hx)
  | a :: xs, b :: ys, _, _, hx, hy, h => by
    obtain ⟨rfl, hrest⟩ := List.cons.inj h
    obtain ⟨rfl, hxy⟩ := append_cons_inj_of_notMem (List.not_mem_of_not_mem_cons hx)
      (List.not_mem_of_not_mem_cons hy) hrest
    exact ⟨rfl, hxy⟩

/-! ## Pieces -/

theorem Atom.end_notMem_bytes (cs : List Char) :
    Atom.byte 0xFF ∉ (Text.Utf8.encode cs).map Atom.byte := by
  intro h
  obtain ⟨b, hb, he⟩ := List.mem_map.mp h
  exact Text.Utf8.ne_FF_of_mem_encode hb (Atom.byte.inj he)

/-- A text is told from its atoms, and so is what stands behind it: the end mark is in no text. -/
theorem Atom.text_append_inj {cs ds : List Char} {x y : List Atom}
    (h : Atom.text cs ++ x = Atom.text ds ++ y) : cs = ds ∧ x = y := by
  simp only [Atom.text, List.append_assoc, List.singleton_append] at h
  obtain ⟨hbytes, hxy⟩ :=
    append_cons_inj_of_notMem (Atom.end_notMem_bytes cs) (Atom.end_notMem_bytes ds) h
  have hencoded := (List.map_inj_right fun a b hab => Atom.byte.inj hab).mp hbytes
  exact ⟨Text.Utf8.encode_injective hencoded, hxy⟩

theorem NodeKind.index_injective {k l : NodeKind} (h : k.index = l.index) : k = l := by
  cases k <;> cases l <;> first | rfl | exact absurd h (by decide)

theorem Operation.code_eq (o : Operation) :
    o.code = .word o.index :: (match o with | .named s => Atom.text s.toList | _ => []) := by
  cases o <;> rfl

/-- An operation is told from its code, and so is what stands behind it. -/
theorem Operation.code_append_inj {o p : Operation} {x y : List Atom}
    (h : o.code ++ x = p.code ++ y) : o = p ∧ x = y := by
  -- The number of the operation comes first and tells whether a name follows.
  have hindex : o.index = p.index := by
    rw [code_eq o, code_eq p] at h
    exact Atom.word.inj (List.cons.inj h).1
  cases o with
  | named s =>
    cases p with
    | named t =>
      obtain ⟨hname, hxy⟩ := Atom.text_append_inj (List.cons.inj h).2
      exact ⟨by rw [String.toList_injective hname], hxy⟩
    | type | validate | followRedirect => exact absurd hindex (by simp [index])
  | type | validate | followRedirect =>
    cases p <;> first
      | exact ⟨rfl, (List.cons.inj h).2⟩
      | exact absurd hindex (by simp [index])

/-- Whether there is a value is told, and then its text. -/
theorem payloadCode_append_inj {v w : Option Json} {x y : List Atom}
    (h : payloadCode v ++ x = payloadCode w ++ y) : v.map Json.text = w.map Json.text ∧ x = y := by
  cases v with
  | none =>
    cases w with
    | none => exact ⟨rfl, (List.cons.inj h).2⟩
    | some b => exact absurd (Atom.byte.inj (List.cons.inj h).1) (by decide)
  | some a =>
    cases w with
    | none => exact absurd (Atom.byte.inj (List.cons.inj h).1) (by decide)
    | some b =>
      obtain ⟨hchars, hxy⟩ := Atom.text_append_inj (List.cons.inj h).2
      exact ⟨by simp only [Option.map_some, Json.text, hchars], hxy⟩

/-! ## Trees -/

namespace Tree

mutual

/-- The tree with every value given by its JSON text. -/
def spelled : Tree → Tree
  | ⟨kind, operation, value, children⟩ =>
    ⟨kind, operation, value.map fun v => .str v.text, spelledForest children⟩

/-- Trees with every value given by its JSON text. -/
def spelledForest : List Tree → List Tree
  | [] => []
  | t :: ts => spelled t :: spelledForest ts

end

theorem spelledForest_eq_map (ts : List Tree) : spelledForest ts = ts.map spelled := by
  induction ts with
  | nil => rfl
  | cons t ts ih => rw [spelledForest, ih, List.map_cons]

/-- A node is spelled by itself and its children by themselves. -/
theorem spelled_eq (t : Tree) :
    t.spelled
      = ⟨t.kind, t.operation, t.value.map fun v => .str v.text, t.children.map spelled⟩ := by
  obtain ⟨kind, operation, value, children⟩ := t
  rw [spelled, spelledForest_eq_map]

@[simp] theorem kind_spelled (t : Tree) : t.spelled.kind = t.kind := by
  rw [spelled_eq]

@[simp] theorem operation_spelled (t : Tree) : t.spelled.operation = t.operation := by
  rw [spelled_eq]

@[simp] theorem value_spelled (t : Tree) :
    t.spelled.value = t.value.map fun v => .str v.text := by
  rw [spelled_eq]

@[simp] theorem children_spelled (t : Tree) : t.spelled.children = t.children.map spelled := by
  rw [spelled_eq]

/-- Values of one text are spelled alike. -/
theorem spelled_value_eq_iff {v w : Option Json} :
    (v.map fun a => Json.str a.text) = (w.map fun a => Json.str a.text)
      ↔ v.map Json.text = w.map Json.text := by
  cases v <;> cases w <;> simp

mutual

/-- A tree is told from its code, whatever stands behind it, except that its values are told by
their text. -/
theorem code_append_inj : ∀ {a b : Tree} {x y : List Atom},
    a.code ++ x = b.code ++ y → a.spelled = b.spelled ∧ x = y
  | ⟨kind, operation, value, children⟩, ⟨kind', operation', value', children'⟩, x, y, h => by
    -- The parts come off the front one by one, the number of children before the children.
    simp only [code, List.cons_append, List.append_assoc, List.cons.injEq, Atom.word.injEq] at h
    obtain ⟨hkind, hrest⟩ := h
    obtain ⟨hoperation, hrest⟩ := Operation.code_append_inj hrest
    obtain ⟨hvalue, hrest⟩ := payloadCode_append_inj hrest
    simp only [List.cons.injEq, Atom.word.injEq] at hrest
    obtain ⟨hlength, hrest⟩ := hrest
    obtain ⟨hchildren, hxy⟩ := forestCode_append_inj hlength hrest
    refine ⟨?_, hxy⟩
    rw [spelled, spelled, NodeKind.index_injective hkind, hoperation,
      spelled_value_eq_iff.mpr hvalue, hchildren]

/-- Equally many trees are told from their codes. -/
theorem forestCode_append_inj : ∀ {as bs : List Tree} {x y : List Atom},
    as.length = bs.length → forestCode as ++ x = forestCode bs ++ y →
      spelledForest as = spelledForest bs ∧ x = y
  | [], [], _, _, _, h => ⟨rfl, h⟩
  | a :: as, b :: bs, x, y, hlength, h => by
    rw [forestCode, forestCode, List.append_assoc, List.append_assoc] at h
    obtain ⟨hfirst, h⟩ := code_append_inj h
    obtain ⟨hrest, hxy⟩ := forestCode_append_inj (Nat.succ.inj hlength) h
    exact ⟨by rw [spelledForest, spelledForest, hfirst, hrest], hxy⟩

end

/-- Trees of one code are spelled alike. -/
theorem spelled_eq_of_code_eq {a b : Tree} (h : a.code = b.code) : a.spelled = b.spelled :=
  (code_append_inj (x := []) (y := []) (by rw [h])).1

end Tree

end StepPlan
