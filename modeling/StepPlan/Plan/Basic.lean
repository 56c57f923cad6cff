import StepPlan.Plan.Walk

/-!
# Plans

What compiling a tree gives. A tree that lacks its operations is rejected, and its plan says why;
any other tree has a plan that can be executed: the steps in order, whether redirects are
followed, and what was found amiss on the way. A rejected plan has no steps and no warnings, and
follows redirects.
-/

namespace StepPlan

/-- Why a tree cannot be executed. -/
inductive Rejection where
  | tooFewSections (found : Nat)
  | emptyOperations
deriving DecidableEq

/-- The message of a rejection. -/
def Rejection.message : Rejection → String
  | .tooFewSections found =>
    "Test tree root has " ++ Nat.repr found
      ++ " top-level section(s), at least 2 are required; nothing to execute"
  | .emptyOperations =>
    "Operations section (root child 1) has no children; nothing to execute"

/-- What was found amiss in a tree that can be executed. -/
inductive Warning where
  /-- The redirect directive says neither true nor false. -/
  | unreadableDirective (value : String)
deriving DecidableEq

/-- The message of a warning. -/
def Warning.message : Warning → String
  | .unreadableDirective value =>
    "Redirect directive value '" ++ value
      ++ "' is not a boolean, keeping follow_redirects = true"

/-- Redirects are followed unless a directive says otherwise. -/
def defaultFollowRedirects : Bool := true

/-- The plan of a tree. -/
inductive Plan where
  | rejected (reason : Rejection)
  | executable (steps : List Step) (followRedirects : Bool) (warnings : List Warning)

namespace Plan

/-- The steps in the order of execution. -/
def steps : Plan → List Step
  | .rejected _ => []
  | .executable steps _ _ => steps

/-- Whether redirects are followed. -/
def followRedirects : Plan → Bool
  | .rejected _ => defaultFollowRedirects
  | .executable _ followRedirects _ => followRedirects

/-- Why the tree cannot be executed. -/
def error : Plan → Option Rejection
  | .rejected reason => some reason
  | .executable _ _ _ => none

/-- What was found amiss. -/
def warnings : Plan → List Warning
  | .rejected _ => []
  | .executable _ _ warnings => warnings

/-- Whether the plan may be executed. -/
def isExecutable (p : Plan) : Bool :=
  p.error.isNone

/-- The scheduled nodes in order. -/
def nodes (p : Plan) : List Tree :=
  p.steps.map Step.node

/-- Equality of lists of steps. -/
def sameSteps : List Step → List Step → Bool
  | [], [] => true
  | a :: as, b :: bs => a.path == b.path && a.node.same b.node && sameSteps as bs
  | _, _ => false

/-- Equality of plans: everything agrees, nodes as trees. -/
def same (p q : Plan) : Bool :=
  sameSteps p.steps q.steps && p.followRedirects == q.followRedirects && p.error == q.error
    && p.warnings == q.warnings

end Plan

end StepPlan
