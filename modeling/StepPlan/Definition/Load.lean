import StepPlan.Definition.Basic
import StepPlan.Tree.Basic

/-!
# From definitions to trees

The names of a definition become kinds and operations, node by node, a parent before its children
and children from left to right. The first node whose type names no kind ends the conversion, with
its path from the root and the name as it was written.

A text is first read as a definition, whole, and then converted: a text that is no definition fails
as such whatever node types it names.
-/

namespace StepPlan

/-! ## Conversion -/

/-- A node type that names no kind. -/
structure UnknownKind where
  path : List Nat
  name : String
deriving DecidableEq

namespace Definition

mutual

/-- The tree of a definition whose node stands at `path`, given from the node to the root. -/
def treeAt (path : List Nat) : Definition → Except UnknownKind Tree
  | ⟨nodeType, operationType, values, childNodes⟩ =>
    match NodeKind.ofName? nodeType with
    | none => .error ⟨path.reverse, nodeType⟩
    | some kind => do
      let children ← treesAt path 0 childNodes
      return ⟨kind, .ofName operationType, values, children⟩

/-- The trees of the children from position `i` on, beneath the node at `path`. -/
def treesAt (path : List Nat) (i : Nat) : List Definition → Except UnknownKind (List Tree)
  | [] => .ok []
  | d :: ds => do
    let t ← treeAt (i :: path) d
    let ts ← treesAt path (i + 1) ds
    return t :: ts

end

/-- The tree of a definition. -/
def toTree (d : Definition) : Except UnknownKind Tree :=
  treeAt [] d

end Definition

namespace Tree

mutual

/-- The definition that a tree is written as. -/
def toDefinition : Tree → Definition
  | ⟨kind, operation, value, children⟩ =>
    ⟨kind.name, operation.name, value, toDefinitions children⟩

/-- The definitions that trees are written as. -/
def toDefinitions : List Tree → List Definition
  | [] => []
  | t :: ts => toDefinition t :: toDefinitions ts

end

end Tree

/-! ## Loading trees -/

/-- Why a text or a model of someone's own gives no tree. -/
inductive LoadError where
  | unreadable (error : Json.ReadError)
  | unknownKind (error : UnknownKind)
  | file (path reason : String)
  /-- The model refuses to become a tree. -/
  | invalid (reason : String)
deriving DecidableEq

/-- The message of a node type that names no kind. -/
def UnknownKind.message (e : UnknownKind) : String :=
  "Node at path " ++ Text.bracketed e.path ++ " has an unknown node type: '" ++ e.name ++ "'"

/-- The message of an error. -/
def LoadError.message : LoadError → String
  | .unreadable e => "Failed to parse test tree JSON: " ++ e.message
  | .unknownKind e => e.message
  | .file path reason => "Failed to read test tree file '" ++ path ++ "': " ++ reason
  | .invalid reason => "Invalid custom data: " ++ reason

/-- Loads the tree of a text. -/
def loadTree (s : String) : Except LoadError Tree :=
  match Definition.ofText s with
  | .error e => .error (.unreadable e)
  | .ok d =>
    match d.toTree with
    | .error e => .error (.unknownKind e)
    | .ok t => .ok t

end StepPlan
