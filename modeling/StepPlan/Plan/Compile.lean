import StepPlan.Plan.Report

/-!
# Compiling trees

The children of the root are sections, and the second one holds the operations. If the first
operation is a type marker it is read as the redirect directive, and all operations are walked
(the walk prunes the marker itself). Otherwise only the first operation is walked.

The directive says whether redirects are followed, as a JSON boolean or as the word `true` or
`false` in letters of any case. Any other value, or none, leaves a warning, and redirects are
followed.

`Tree.compilation` gives the plan and the events on record, `Tree.compile` the plan alone.
-/

namespace StepPlan

/-! ## The redirect directive -/

namespace Json

/-- The truth value that a directive states. -/
def asFlag? : Json → Option Bool
  | .bool b => some b
  | .str s =>
    if Text.sameLetters s "true" then some true
    else if Text.sameLetters s "false" then some false
    else none
  | _ => none

/-- How a warning shows a value: a string as itself, anything else as JSON. -/
def shown : Json → String
  | .str s => s
  | j => j.text

end Json

/-- Whether a directive of this value has redirects followed, and the warning it leaves. -/
def readDirective (value : Option Json) : Bool × List Warning :=
  match value.bind Json.asFlag? with
  | some flag => (flag, [])
  | none => (defaultFollowRedirects, [.unreadableDirective ((value.map Json.shown).getD "null")])

/-! ## Compilations -/

/-- The position of the operations section among the children of the root. -/
def operationsSection : Nat := 1

/-- A plan and the events on record of its making. -/
structure Compilation where
  plan : Plan
  events : List Event

namespace Compilation

/-- A rejected tree leaves one event. -/
def rejected (reason : Rejection) : Compilation :=
  ⟨.rejected reason, [.rejected reason]⟩

/-- Compiles the operations of a section that starts with `first`. -/
def ofOperations (first : Tree) (others : List Tree) : Compilation :=
  let led := first.operation == .type
  let (followRedirects, warnings) :=
    if led then readDirective first.value else (defaultFollowRedirects, [])
  let walked := if led then first :: others else [first]
  let walk := (Walk.startAt [operationsSection]).visitChildren 0 walked
  ⟨.executable walk.scheduled followRedirects warnings,
    warnings.map .warned ++ walk.cutOff.map .pruned
      ++ [.compiled walk.scheduled.length followRedirects warnings.length]⟩

end Compilation

namespace Tree

/-- The plan of a tree and the events on record of its making. -/
def compilation (t : Tree) : Compilation :=
  match t.children[operationsSection]? with
  | none => .rejected (.tooFewSections t.children.length)
  | some operations =>
    match operations.children with
    | [] => .rejected .emptyOperations
    | first :: others => .ofOperations first others

/-- The plan of a tree. -/
def compile (t : Tree) : Plan :=
  t.compilation.plan

/-- The plans of trees that have nothing to do with each other, in order. -/
def compileBatch (ts : List Tree) : List Plan :=
  ts.map compile

end Tree

end StepPlan
