import StepPlan.Proofs.Json.Injective
import StepPlan.Proofs.Tree.Code

/-!
# Trees told from their codes

Where a tree ends in a sequence is settled by the sequence, and its values are settled by their
texts. So the code of a tree is neither the code of another nor the beginning of one, and whatever
is done to a tree shows in its code as soon as it changes the tree: exchanging two siblings that
differ does (`Tree.exchanged_ne`), and so does moving a node to another parent (`Tree.moved_ne`),
after which two nodes have other numbers of children.

Main statement: `Tree.code_prefix_free`.
-/

namespace StepPlan.Tree

/-! ## Trees and their codes -/

mutual

/-- Trees that are spelled alike are the same: no two values have one text. -/
theorem spelled_injective : ∀ {a b : Tree}, a.spelled = b.spelled → a = b
  | ⟨kind, operation, value, children⟩, ⟨kind', operation', value', children'⟩, h => by
    simp only [spelled, mk.injEq] at h
    obtain ⟨rfl, rfl, hvalue, hchildren⟩ := h
    obtain rfl : value = value' :=
      Option.map_injective (fun _ _ => Json.text_injective) (spelled_value_eq_iff.mp hvalue)
    obtain rfl := spelledForest_injective hchildren
    rfl

/-- Lists of trees are told from their spellings. -/
theorem spelledForest_injective : ∀ {as bs : List Tree}, spelledForest as = spelledForest bs →
    as = bs
  | [], [], _ => rfl
  | a :: as, b :: bs, h => by
    obtain ⟨hfirst, hrest⟩ := List.cons.inj h
    rw [spelled_injective hfirst, spelledForest_injective hrest]

end

/-- The code of a tree is not the beginning of the code of another. -/
theorem eq_of_prefix_code {a b : Tree} (h : a.code <+: b.code) : a = b := by
  obtain ⟨rest, hrest⟩ := h
  rw [← List.append_nil b.code] at hrest
  exact spelled_injective (code_append_inj hrest).1

/-- Trees are told from their codes. -/
theorem code_injective {a b : Tree} (h : a.code = b.code) : a = b :=
  eq_of_prefix_code (h ▸ List.prefix_refl a.code)

/-! ## Changing a tree at a path -/

/-- The tree in which the children of the node at a path are changed. -/
def modifyAt (change : List Tree → List Tree) : List Nat → Tree → Tree
  | [], t => { t with children := change t.children }
  | i :: path, t => { t with children := t.children.modify i (modifyAt change path) }

variable {change : List Tree → List Tree}

/-- The node at the path is the one whose children are changed. -/
theorem get?_modifyAt_self (path : List Nat) (t : Tree) :
    (t.modifyAt change path).get? path
      = (t.get? path).map fun node => { node with children := change node.children } := by
  induction path generalizing t with
  | nil => rfl
  | cons i path ih =>
    simp only [modifyAt, get?_cons, List.getElem?_modify_eq]
    cases t.children[i]? with
    | none => rfl
    | some child => exact ih child

/-- A child is reached through its parent. -/
theorem get?_concat {t node : Tree} {path : List Nat} {i : Nat} :
    t.get? (path ++ [i]) = some node
      ↔ ∃ parent, t.get? path = some parent ∧ parent.children[i]? = some node := by
  simp [get?_append, Option.bind_eq_some_iff]

/-- The number of children of the node at a path. -/
def width? (t : Tree) (path : List Nat) : Option Nat :=
  (t.get? path).map (·.children.length)

theorem width?_modifyAt_self (path : List Nat) (t : Tree) :
    (t.modifyAt change path).width? path
      = (t.get? path).map fun node => (change node.children).length := by
  rw [width?, get?_modifyAt_self, Option.map_map]
  rfl

/-- Nodes that are not beneath the change keep their number of children. -/
theorem width?_modifyAt_of_not_above {path other : List Nat} (h : ¬path <+: other) (t : Tree) :
    (t.modifyAt change path).width? other = t.width? other := by
  induction path generalizing other t with
  | nil => exact absurd (List.nil_prefix) h
  | cons i path ih =>
    cases other with
    | nil => simp [width?, modifyAt]
    | cons k other =>
      simp only [width?, modifyAt, get?_cons]
      by_cases hik : i = k
      · subst hik
        have hrest : ¬path <+: other := fun hp => h (List.cons_prefix_cons.mpr ⟨rfl, hp⟩)
        rw [List.getElem?_modify_eq]
        cases t.children[i]? with
        | none => rfl
        | some child => exact ih hrest child
      · rw [List.getElem?_modify_ne _ _ hik]

/-! ## Exchanges and moves -/

/-- The list with what stands in two places exchanged. -/
def exchanged (i j : Nat) (ts : List Tree) : List Tree :=
  match ts[i]?, ts[j]? with
  | some a, some b => (ts.set i b).set j a
  | _, _ => ts

/-- Exchanging two siblings that differ changes the tree. -/
theorem exchanged_ne {t node a b : Tree} {path : List Nat} {i j : Nat}
    (hnode : t.get? path = some node) (ha : node.children[i]? = some a)
    (hb : node.children[j]? = some b) (hne : a ≠ b) : t.modifyAt (exchanged i j) path ≠ t := by
  intro h
  have hchildren : exchanged i j node.children = node.children := by
    have hat : (t.modifyAt (exchanged i j) path).get? path = _ := get?_modifyAt_self path t
    rw [h, hnode] at hat
    exact (congrArg children (Option.some.inj hat)).symm
  have hj : j < node.children.length := (List.getElem?_eq_some_iff.mp hb).1
  -- In the second place stands now what stood in the first.
  have hsecond : (exchanged i j node.children)[j]? = some a := by
    simp [exchanged, ha, hj]
  rw [hchildren, hb] at hsecond
  exact hne (Option.some.inj hsecond).symm

/-- The tree without a child of the node at a path. -/
def without (t : Tree) (parent : List Nat) (i : Nat) : Tree :=
  t.modifyAt (·.eraseIdx i) parent

/-- The tree in which a child of the node at one path has become a child of the node at another, in
the given place. The path of the new parent is its path in the tree without the child. -/
def moved (t : Tree) (parent : List Nat) (i : Nat) (path : List Nat) (j : Nat) : Tree :=
  match t.get? (parent ++ [i]) with
  | some node => (t.without parent i).modifyAt (·.insertIdx j node) path
  | none => t

/-- Moving a node to another parent changes the tree. -/
theorem moved_ne {t node target : Tree} {parent path : List Nat} {i j : Nat}
    (hnode : t.get? (parent ++ [i]) = some node)
    (htarget : (t.without parent i).get? path = some target) (hj : j ≤ target.children.length)
    (hne : path ≠ parent) : t.moved parent i path j ≠ t := by
  intro h
  simp only [moved, hnode] at h
  -- One of the two parents has another number of children afterwards; which one, depends on where
  -- they are.
  by_cases habove : path <+: parent
  · -- The new parent is above the old one, so nothing else happened to it: it has a child more.
    have hbelow : ¬parent <+: path := fun hp =>
      hne (habove.eq_of_length_le hp.length_le)
    have hbefore : t.width? path = some target.children.length := by
      rw [← width?_modifyAt_of_not_above hbelow t, ← without, width?, htarget]
      rfl
    have hafter : t.width? path = some (target.children.length + 1) := by
      rw [← h, width?_modifyAt_self, htarget, Option.map_some,
        List.length_insertIdx_of_le_length hj]
    exact absurd (Option.some.inj (hbefore.symm.trans hafter)) (by omega)
  · -- Otherwise the old parent is not beneath the new one: it has a child less.
    obtain ⟨old, hold, hchild⟩ := get?_concat.mp hnode
    have hi : i < old.children.length := (List.getElem?_eq_some_iff.mp hchild).1
    have hbefore : t.width? parent = some old.children.length := by
      rw [width?, hold]
      rfl
    have hafter : t.width? parent = some (old.children.length - 1) := by
      rw [← h, width?_modifyAt_of_not_above habove, without, width?_modifyAt_self, hold,
        Option.map_some, List.length_eraseIdx_of_lt hi]
    exact absurd (Option.some.inj (hbefore.symm.trans hafter)) (by omega)

/-! ## The code as a code -/

/-- The code of a tree is prefix-free and tells everything about it: a tree whose code is the code
of another or its beginning is that other tree, with the same paths and, at every path, the same
kind, operation and value or the same lack of one. In particular the code changes whenever two
siblings that differ are exchanged, and whenever a node is moved to another parent. -/
theorem code_prefix_free :
    (∀ {a b : Tree}, a.code <+: b.code ↔ a = b)
      ∧ (∀ {t node a b : Tree} {path : List Nat} {i j : Nat}, t.get? path = some node →
          node.children[i]? = some a → node.children[j]? = some b → a ≠ b →
          (t.modifyAt (exchanged i j) path).code ≠ t.code)
      ∧ ∀ {t node target : Tree} {parent path : List Nat} {i j : Nat},
          t.get? (parent ++ [i]) = some node → (t.without parent i).get? path = some target →
          j ≤ target.children.length → path ≠ parent →
          (t.moved parent i path j).code ≠ t.code :=
  ⟨⟨eq_of_prefix_code, fun h => h ▸ List.prefix_rfl⟩,
    fun hnode ha hb hne h => exchanged_ne hnode ha hb hne (code_injective h),
    fun hnode htarget hj hne h => moved_ne hnode htarget hj hne (code_injective h)⟩

/-- Two siblings, the second with a child of its own. -/
def forkTree : Tree :=
  (leaf .nonTerminal (.named "root")).withChildren
    [leaf .terminal (.named "open"),
      (leaf .nonTerminal (.named "group")).withChildren [leaf .terminal (.named "close")]]

/-- The sample tree has another code when two children change places and when one moves up. -/
theorem code_forkTree :
    (forkTree.modifyAt (exchanged 0 1) []).code ≠ forkTree.code
      ∧ (forkTree.moved [1] 0 [] 0).code ≠ forkTree.code := by
  refine ⟨code_prefix_free.2.1 rfl rfl rfl fun h => ?_, code_prefix_free.2.2 rfl rfl ?_ ?_⟩
  · exact absurd (congrArg kind h) (by decide)
  · decide
  · decide

end StepPlan.Tree
