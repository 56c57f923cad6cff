import StepPlan.Json.Value
import StepPlan.Tree.Names

/-!
# Test trees

A test definition as a tree: every node has a kind, an operation, perhaps a value, and its children
in order. A path leads from the root to a node by the positions among the children. A node without a
value differs from one with the value `null`.

A tree is drawn one line a node, a parent before its children. A line starts with a guide for every
ancestor, a bar where that ancestor has siblings still to come and blanks where it has none, then a
branch to the node itself. The root is drawn as a last sibling.
-/

namespace StepPlan

/-- A node of a test tree with everything beneath it. -/
structure Tree where
  kind : NodeKind
  operation : Operation
  value : Option Json
  children : List Tree

namespace Tree

instance : Inhabited Tree := ⟨⟨default, default, none, []⟩⟩

/-- A node of the given kind and operation and nothing else. -/
def leaf (kind : NodeKind) (operation : Operation) : Tree :=
  ⟨kind, operation, none, []⟩

/-- The node with this value. -/
def withValue (t : Tree) (value : Json) : Tree :=
  { t with value := some value }

/-- The node with these children behind the ones it has. -/
def withChildren (t : Tree) (children : List Tree) : Tree :=
  { t with children := t.children ++ children }

/-- The node at a path. -/
def get? (t : Tree) : List Nat → Option Tree
  | [] => some t
  | i :: path => (t.children[i]?).bind (get? · path)

@[simp] theorem get?_nil (t : Tree) : t.get? [] = some t := rfl

@[simp] theorem get?_cons (t : Tree) (i : Nat) (path : List Nat) :
    t.get? (i :: path) = (t.children[i]?).bind (get? · path) := rfl

/-- A path of two parts is followed part by part. -/
theorem get?_append (t : Tree) (path rest : List Nat) :
    t.get? (path ++ rest) = (t.get? path).bind (get? · rest) := by
  induction path generalizing t with
  | nil => rfl
  | cons i path ih =>
    cases h : t.children[i]? with
    | none => simp [h]
    | some c => simp [h, ih]

/-- Equality of payloads. -/
def sameValue : Option Json → Option Json → Bool
  | none, none => true
  | some a, some b => a.same b
  | _, _ => false

mutual

/-- Equality of trees: everything agrees, values as values. -/
def same : Tree → Tree → Bool
  | ⟨kind, operation, value, children⟩, ⟨kind', operation', value', children'⟩ =>
    kind == kind' && operation == operation' && sameValue value value'
      && sameForest children children'

/-- Equality of lists of trees. -/
def sameForest : List Tree → List Tree → Bool
  | [], [] => true
  | a :: as, b :: bs => same a b && sameForest as bs
  | _, _ => false

end

theorem sameValue_self (v : Option Json) : sameValue v v = true := by
  cases v with
  | none => rfl
  | some j => exact j.same_self

mutual

/-- Every tree equals itself. -/
theorem same_self : ∀ t : Tree, t.same t = true
  | ⟨kind, operation, value, children⟩ => by
    simp [same, sameValue_self value, sameForest_self children]

theorem sameForest_self : ∀ ts : List Tree, sameForest ts ts = true
  | [] => rfl
  | t :: ts => by simp [sameForest, same_self t, sameForest_self ts]

end

mutual

/-- All nodes of a tree, a parent before its children, children from left to right. -/
def preorder : Tree → List Tree
  | ⟨kind, operation, value, children⟩ =>
    ⟨kind, operation, value, children⟩ :: preorderForest children

/-- All nodes of some trees. -/
def preorderForest : List Tree → List Tree
  | [] => []
  | t :: ts => preorder t ++ preorderForest ts

end

end Tree

end StepPlan

/-! ## Drawings of trees -/

namespace StepPlan.Tree

/-- What a line says of its node: operation, kind, and the value if there is one. -/
def label (operation : Operation) (kind : NodeKind) (value : Option Json) : String :=
  operation.name ++ " [" ++ kind.name ++ "]"
    ++ (match value with
      | some v => " = " ++ v.text
      | none => "")

/-- The branch to a node. -/
def branch (isLast : Bool) : String :=
  if isLast then "└── " else "├── "

/-- What stands above the children of a node for it. -/
def guide (isLast : Bool) : String :=
  if isLast then "    " else "│   "

mutual

/-- The lines of a tree behind the guides of its ancestors. -/
def drawn (guides : String) (isLast : Bool) : Tree → String
  | ⟨kind, operation, value, children⟩ =>
    guides ++ branch isLast ++ label operation kind value ++ "\n"
      ++ drawnForest (guides ++ guide isLast) children

/-- The lines of siblings. -/
def drawnForest (guides : String) : List Tree → String
  | [] => ""
  | t :: ts => drawn guides ts.isEmpty t ++ drawnForest guides ts

end

/-- The drawing of a tree. -/
def drawing (t : Tree) : String :=
  drawn "" true t

end StepPlan.Tree
