import StepPlan.Plan.Compile
import StepPlan.Tree.Fingerprint

/-!
# Snapshots

A plan detached from its tree, to be stored beside the definition: for each step its path, kind,
operation and the JSON text of its value. With it go the fingerprint of the tree and the version of
the program, since fingerprints of two versions do not compare. A snapshot is current for a tree if
both agree; then it may be used in place of compiling the tree.
-/

namespace StepPlan

/-- The version of the program. -/
def version : String := "0.1.0"

/-- A step of a snapshot. -/
structure SnapshotStep where
  path : List UInt64
  kind : NodeKind
  operation : Operation
  value : Option String
deriving DecidableEq

/-- A plan detached from its tree. -/
structure Snapshot where
  version : String
  fingerprint : UInt64
  followRedirects : Bool
  error : Option String
  steps : List SnapshotStep
deriving DecidableEq

/-- A step as it is stored. -/
def SnapshotStep.ofStep (s : Step) : SnapshotStep :=
  ⟨s.path.map UInt64.ofNat, s.node.kind, s.node.operation, s.node.value.map Json.text⟩

namespace Snapshot

instance : Inhabited Snapshot := ⟨⟨"", 0, false, none, []⟩⟩

variable [Hasher]

/-- The snapshot of a plan made for the tree `root`. -/
def ofPlan (root : Tree) (plan : Plan) : Snapshot :=
  ⟨StepPlan.version, root.fingerprint, plan.followRedirects, plan.error.map Rejection.message,
    plan.steps.map SnapshotStep.ofStep⟩

/-- The snapshot of a tree that is compiled now. -/
def ofTree (t : Tree) : Snapshot :=
  ofPlan t t.compile

/-- The snapshot was made by this version from a tree of the same fingerprint. -/
def isCurrentFor (s : Snapshot) (t : Tree) : Bool :=
  s.version == StepPlan.version && s.fingerprint == t.fingerprint

end Snapshot

end StepPlan
