import StepPlan.Tree.Basic

/-!
# The walk over a tree

The walk visits a tree in pre-order and keeps three accounts: where it is, the steps it has
scheduled, and the subtrees it has pruned. Markers and non-executable nodes are pruned, and with
them everything beneath; all other nodes are scheduled. A pruned node is put on record only if
something lies beneath it. After a node and everything beneath it the walk is back where it was.
-/

namespace StepPlan

/-! ## Dispositions -/

/-- What the walk does with a node. -/
inductive Disposition where
  /-- Pass over the node and everything beneath it. -/
  | prune
  /-- Schedule the node, then go on to its children. -/
  | schedule
deriving DecidableEq

/-- The name of a disposition. -/
def Disposition.name : Disposition → String
  | .prune => "Prune"
  | .schedule => "Schedule"

namespace Tree

/-- The disposition of a node, by its operation and kind alone. -/
def disposition (t : Tree) : Disposition :=
  match t.operation, t.kind with
  | .type, _ | .validate, _ | .followRedirect, _ => .prune
  | .named _, .nonExecutable => .prune
  | .named _, .terminal | .named _, .nonTerminal => .schedule

/-- Scheduled are the nodes of an operation for the runtime that are no mere information. -/
theorem disposition_eq_schedule_iff (t : Tree) :
    t.disposition = .schedule ↔ t.operation.isReserved = false ∧ t.kind ≠ .nonExecutable := by
  obtain ⟨kind, operation, value, children⟩ := t
  cases operation <;> cases kind <;> simp [disposition, Operation.isReserved]

/-- Pruned are markers and nodes that hold information only. -/
theorem disposition_eq_prune_iff (t : Tree) :
    t.disposition = .prune ↔ t.operation.isReserved = true ∨ t.kind = .nonExecutable := by
  obtain ⟨kind, operation, value, children⟩ := t
  cases operation <;> cases kind <;> simp [disposition, Operation.isReserved]

end Tree

/-! ## Steps and accounts -/

/-- A scheduled node, and its path from the root. -/
structure Step where
  path : List Nat
  node : Tree

/-- A pruned node with something beneath it. -/
structure Pruned where
  path : List Nat
  operation : String
  children : Nat
deriving DecidableEq

/-- The accounts of a walk. The latest entry of each stands first. -/
structure Walk where
  /-- The path of the node at hand, from the node to the root. -/
  here : List Nat
  steps : List Step
  pruned : List Pruned

namespace Walk

/-- A walk that starts at a path and has nothing on record. -/
def startAt (path : List Nat) : Walk :=
  ⟨path.reverse, [], []⟩

/-- Goes down to the child at position `i`. -/
def enter (w : Walk) (i : Nat) : Walk :=
  { w with here := i :: w.here }

/-- Goes up to the parent. -/
def leave (w : Walk) : Walk :=
  { w with here := w.here.tail }

/-- Schedules the node at hand. -/
def schedule (w : Walk) (t : Tree) : Walk :=
  { w with steps := ⟨w.here.reverse, t⟩ :: w.steps }

/-- Prunes the node at hand. -/
def prune (w : Walk) (t : Tree) : Walk :=
  if t.children.isEmpty then w
  else
    { w with
      pruned := ⟨w.here.reverse, t.operation.name, t.children.length⟩ :: w.pruned }

mutual

/-- Visits the tree whose root is the node at hand. -/
def visit (w : Walk) : Tree → Walk
  | ⟨kind, operation, value, children⟩ =>
    match Tree.disposition ⟨kind, operation, value, children⟩ with
    | .prune => w.prune ⟨kind, operation, value, children⟩
    | .schedule => visitChildren (w.schedule ⟨kind, operation, value, children⟩) 0 children

/-- Visits the children of the node at hand from position `i` on. -/
def visitChildren (w : Walk) (i : Nat) : List Tree → Walk
  | [] => w
  | t :: ts => visitChildren (visit (w.enter i) t).leave (i + 1) ts

end

@[simp] theorem here_prune (w : Walk) (t : Tree) : (w.prune t).here = w.here := by
  rw [prune]
  split <;> rfl

mutual

/-- After a node and everything beneath it the walk is back where it was. -/
theorem here_visit : ∀ (t : Tree) (w : Walk), (w.visit t).here = w.here
  | ⟨kind, operation, value, children⟩, w => by
    rw [visit]
    split
    · exact here_prune w _
    · rw [here_visitChildren]
      rfl

theorem here_visitChildren : ∀ (ts : List Tree) (i : Nat) (w : Walk),
    (w.visitChildren i ts).here = w.here
  | [], _, _ => rfl
  | t :: ts, i, w => by
    rw [visitChildren, here_visitChildren, leave, here_visit, enter]
    rfl

end

/-- The scheduled steps in the order of the walk. -/
def scheduled (w : Walk) : List Step :=
  w.steps.reverse

/-- The pruned subtrees in the order of the walk. -/
def cutOff (w : Walk) : List Pruned :=
  w.pruned.reverse

end Walk

namespace Tree

/-- Appends the nodes that a walk over the tree schedules, in order. -/
def expand (t : Tree) (out : List Tree) : List Tree :=
  out ++ ((Walk.startAt []).visit t).scheduled.map Step.node

end Tree

end StepPlan
