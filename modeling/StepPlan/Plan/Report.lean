import StepPlan.Plan.Basic
import StepPlan.Text.Messages

/-!
# Logs and reports

What is told of a plan. Compiling a tree puts events on record, in order; an event has a level, a
message and perhaps fields. A report is a plan for readers: a numbered line for every step, with its
path and its value if it has one, then the directive, then the warnings. A rejected plan is one line
with the reason.
-/

namespace StepPlan

/-! ## Log events -/

/-- An entry of a log, without fields. Text in the message may break it into lines. -/
def logEntry (level message : String) : String :=
  level ++ " " ++ Text.shielded message

/-- An event on record. -/
inductive Event where
  | rejected (reason : Rejection)
  | warned (warning : Warning)
  | pruned (subtree : Pruned)
  | compiled (steps : Nat) (followRedirects : Bool) (warnings : Nat)
deriving DecidableEq

namespace Event

/-- The level of an event. -/
def level : Event → String
  | .rejected _ => "ERROR"
  | .warned _ => "WARN"
  | .pruned _ | .compiled _ _ _ => "DEBUG"

/-- The message of an event. -/
def message : Event → String
  | .rejected reason => reason.message ++ ", returning empty execution plan"
  | .warned warning => warning.message
  | .pruned _ => "Pruned subtree"
  | .compiled _ _ _ => "Compiled execution plan"

/-- The fields of an event. -/
def fields : Event → List (String × Json)
  | .rejected _ | .warned _ => []
  | .pruned subtree =>
    [("path", .str (Text.bracketed subtree.path)),
      ("operation", .str subtree.operation),
      ("pruned", .num (.int subtree.children))]
  | .compiled steps followRedirects warnings =>
    [("steps", .num (.int steps)),
      ("follow_redirects", .bool followRedirects),
      ("warnings", .num (.int warnings))]

/-- How a log sets the name of a field: in italics, with a dim equals sign. -/
def fieldName (name : String) : String :=
  "\x1b[3m" ++ name ++ "\x1b[0m\x1b[2m=\x1b[0m"

/-- How a log shows a field: a string as itself, anything else as JSON. -/
def fieldText : String × Json → String
  | (name, .str s) => " " ++ fieldName name ++ s
  | (name, j) => " " ++ fieldName name ++ j.text

/-- The entry of an event in a log. Fields stand behind the message as they are. -/
def entry (e : Event) : String :=
  logEntry e.level e.message ++ String.join (e.fields.map fieldText)

/-- The event is logged: details only when asked for. -/
def isLogged (inDetail : Bool) : Event → Bool
  | .rejected _ | .warned _ => true
  | .pruned _ | .compiled _ _ _ => inDetail

end Event

/-! ## Reports -/

/-- A number at the right of at least three columns. -/
def numbered (n : Nat) : String :=
  let digits := Nat.repr n
  String.ofList (List.replicate (3 - digits.length) ' ') ++ digits

/-- The line of a step. -/
def Step.line (number : Nat) (s : Step) : String :=
  numbered number ++ ". " ++ s.node.operation.name ++ " [" ++ s.node.kind.name ++ "] @ "
    ++ Text.slashed s.path
    ++ (match s.node.value with
      | some v => " = " ++ v.text
      | none => "")
    ++ "\n"

/-- The lines of steps, from this number on. -/
def stepLines (number : Nat) : List Step → String
  | [] => ""
  | s :: steps => s.line number ++ stepLines (number + 1) steps

/-- The line of a warning. -/
def Warning.line (w : Warning) : String :=
  "warning: " ++ w.message ++ "\n"

/-- How reports show a truth value. -/
def flagText (b : Bool) : String :=
  if b then "true" else "false"

/-- The report of a plan. -/
def Plan.report : Plan → String
  | .rejected reason => "Not executable: " ++ reason.message ++ "\n"
  | .executable steps followRedirects warnings =>
    (if steps.isEmpty then "(no executable steps)\n" else stepLines 1 steps)
      ++ "follow_redirects: " ++ flagText followRedirects ++ "\n"
      ++ String.join (warnings.map Warning.line)

end StepPlan
