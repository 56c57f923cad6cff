import StepPlan.Proofs.Plan.Spelling
import StepPlan.Snapshot.Basic

/-!
# Current snapshots

A snapshot is current for a tree when its version and fingerprint are those of the tree. As long as
the hasher does not give two trees of different codes the same fingerprint, this is all there is to
ask: `Snapshot.isCurrentFor_iff_eq_ofPlan`, by which a snapshot that is current is, field by field,
the one that compiling the tree would give.
-/

namespace StepPlan

/-- A stored step is told from the step with its values spelled out. -/
theorem SnapshotStep.ofStep_eq_of_spelled_eq {a b : Step} (h : a.spelled = b.spelled) :
    ofStep a = ofStep b := by
  obtain ⟨hpath, hnode⟩ := Step.mk.inj h
  have hkind := congrArg Tree.kind hnode
  have hoperation := congrArg Tree.operation hnode
  have hvalue := congrArg Tree.value hnode
  rw [Tree.kind_spelled, Tree.kind_spelled] at hkind
  rw [Tree.operation_spelled, Tree.operation_spelled] at hoperation
  rw [Tree.value_spelled, Tree.value_spelled, Tree.spelled_value_eq_iff] at hvalue
  rw [ofStep, ofStep, hpath, hkind, hoperation, hvalue]

/-- Steps of the same spelling are stored alike. -/
theorem SnapshotStep.map_ofStep_eq_of_spelled_eq :
    ∀ {as bs : List Step}, as.map Step.spelled = bs.map Step.spelled →
      as.map ofStep = bs.map ofStep
  | [], [], _ => rfl
  | [], _ :: _, h => by simp at h
  | _ :: _, [], h => by simp at h
  | a :: as, b :: bs, h => by
    obtain ⟨hfirst, hrest⟩ := List.cons.inj h
    rw [List.map_cons, List.map_cons, ofStep_eq_of_spelled_eq hfirst,
      map_ofStep_eq_of_spelled_eq hrest]

namespace Snapshot

variable [Hasher]

/-- The snapshot of a tree is told from its fingerprint and its values' texts. -/
theorem ofPlan_eq_of_spelled_eq {a b : Tree} (hfingerprint : a.fingerprint = b.fingerprint)
    (h : a.spelled = b.spelled) : ofPlan a a.compile = ofPlan b b.compile := by
  have hfollow : a.compile.followRedirects = b.compile.followRedirects :=
    congrArg Prod.fst (Tree.directive_compile_eq_of_spelled_eq h)
  have herror : a.compile.error = b.compile.error := by
    rw [← Tree.error_compile_spelled, h, Tree.error_compile_spelled]
  have hsteps : a.compile.steps.map Step.spelled = b.compile.steps.map Step.spelled := by
    rw [← Tree.steps_compile_spelled, h, Tree.steps_compile_spelled]
  rw [ofPlan, ofPlan, hfingerprint, hfollow, herror,
    SnapshotStep.map_ofStep_eq_of_spelled_eq hsteps]

/-- A snapshot that is current for a tree is the snapshot that compiling the tree gives, and no
other is, unless the hasher mistakes the two trees for each other. -/
theorem isCurrentFor_iff_eq_ofPlan (r t : Tree)
    (hhash : r.fingerprint = t.fingerprint → r.code = t.code) :
    (ofPlan r r.compile).isCurrentFor t = true ↔ ofPlan r r.compile = ofPlan t t.compile := by
  constructor
  · intro hcurrent
    simp only [isCurrentFor, ofPlan, Bool.and_eq_true, beq_iff_eq] at hcurrent
    have hfingerprint : r.fingerprint = t.fingerprint := hcurrent.2
    exact ofPlan_eq_of_spelled_eq hfingerprint (Tree.spelled_eq_of_code_eq (hhash hfingerprint))
  · intro heq
    have hfingerprint : r.fingerprint = t.fingerprint := congrArg fingerprint heq
    simp [isCurrentFor, ofPlan, hfingerprint]

end Snapshot

/-- A tree of one operation behind a directive of this value. -/
def directedTree (value : Json) : Tree :=
  let directive := (Tree.leaf .nonExecutable .type).withValue value
  let operation := Tree.leaf .terminal (.named "send_request")
  (Tree.leaf .nonTerminal (.named "root")).withChildren
    [Tree.leaf .nonExecutable (.named "info"),
      (Tree.leaf .nonTerminal (.named "execute")).withChildren [directive, operation]]

theorem isCurrentFor_directedTree :
    ((directedTree (.bool false)).fingerprint = (directedTree (.bool true)).fingerprint →
        (directedTree (.bool false)).code = (directedTree (.bool true)).code)
      ∧ ((Snapshot.ofTree (directedTree (.bool false))).isCurrentFor (directedTree (.bool true))
          = true
        ↔ Snapshot.ofTree (directedTree (.bool false))
          = Snapshot.ofTree (directedTree (.bool true)))
      ∧ (Snapshot.ofTree (directedTree (.bool true))).isCurrentFor (directedTree (.bool true))
        = true := by
  have hhash : (directedTree (.bool false)).fingerprint = (directedTree (.bool true)).fingerprint →
      (directedTree (.bool false)).code = (directedTree (.bool true)).code := by
    decide +kernel
  refine ⟨hhash, ?_, ?_⟩
  · exact Snapshot.isCurrentFor_iff_eq_ofPlan _ _ hhash
  · exact (Snapshot.isCurrentFor_iff_eq_ofPlan _ _ fun _ => rfl).mpr rfl

end StepPlan
