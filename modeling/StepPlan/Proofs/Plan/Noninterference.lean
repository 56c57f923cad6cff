import StepPlan.Plan.Report
import StepPlan.Proofs.Plan.Parts
import StepPlan.Snapshot.Basic

/-!
# What a plan does not tell

A report and a snapshot show of a step its path and its node without what lies beneath it
(`Step.bare`), and a plan has its steps from the operations that are walked and its directive from
the value of a leading type marker. So two trees may differ in everything else. `Tree.Alike` is
the relation that is left: alike nodes are both pruned, whatever they hold, or both scheduled and
the same down to their children, which are alike in turn.

Main statement: `Tree.report_snapshot_eq_of_operationsAlike`.
-/

namespace StepPlan

/-- The step without what lies beneath its node. -/
def Step.bare (s : Step) : Step :=
  ⟨s.path, { s.node with children := [] }⟩

theorem Step.bare_under (path : List Nat) (s : Step) :
    (s.under path).bare = s.bare.under path := rfl

/-! ## What is shown of a step -/

/-- The lines of a report do not look at children. -/
theorem stepLines_map_bare (steps : List Step) (number : Nat) :
    stepLines number (steps.map Step.bare) = stepLines number steps := by
  induction steps generalizing number with
  | nil => rfl
  | cons s steps ih =>
    rw [List.map_cons, stepLines, stepLines, ih]
    rfl

/-- What is stored of steps does not look at their children. -/
theorem SnapshotStep.map_ofStep_map_bare (steps : List Step) :
    (steps.map Step.bare).map ofStep = steps.map ofStep := by
  rw [List.map_map]
  rfl

/-- Plans that agree in all but what lies beneath their steps have one report. -/
theorem Plan.report_eq_of_bare {p q : Plan} (herror : p.error = q.error)
    (hsteps : p.steps.map Step.bare = q.steps.map Step.bare)
    (hfollow : p.followRedirects = q.followRedirects) (hwarnings : p.warnings = q.warnings) :
    p.report = q.report := by
  -- Plans with one error are both rejected or both executable.
  cases p with
  | rejected reason =>
    cases q with
    | rejected reason' =>
      obtain rfl : reason = reason' := Option.some.inj herror
      rfl
    | executable steps' follow' warnings' => exact absurd herror nofun
  | executable steps follow warnings =>
    cases q with
    | rejected reason' => exact absurd herror nofun
    | executable steps' follow' warnings' =>
      have hsteps : steps.map Step.bare = steps'.map Step.bare := hsteps
      have hfollow : follow = follow' := hfollow
      have hwarnings : warnings = warnings' := hwarnings
      have hempty : steps.isEmpty = steps'.isEmpty := by
        rw [← List.isEmpty_map (f := Step.bare), hsteps, List.isEmpty_map]
      have hlines : stepLines 1 steps = stepLines 1 steps' := by
        rw [← stepLines_map_bare steps, hsteps, stepLines_map_bare steps']
      unfold report
      simp only [hempty, hlines, hfollow, hwarnings]

namespace Tree

/-! ## Nodes that are alike -/

mutual

/-- Two nodes make no difference to a plan: both are pruned, or both are scheduled and the same,
with children that make none. -/
inductive Alike : Tree → Tree → Prop where
  | pruned {s t : Tree} (hs : s.disposition = .prune) (ht : t.disposition = .prune) : Alike s t
  | scheduled {s t : Tree} (hs : s.disposition = .schedule) (ht : t.disposition = .schedule)
      (hkind : s.kind = t.kind) (hoperation : s.operation = t.operation)
      (hvalue : s.value = t.value) (hchildren : AllAlike s.children t.children) : Alike s t

/-- Equally many nodes that are alike one by one. -/
inductive AllAlike : List Tree → List Tree → Prop where
  | nil : AllAlike [] []
  | cons {s t : Tree} {ss ts : List Tree} (hfirst : Alike s t) (hrest : AllAlike ss ts) :
      AllAlike (s :: ss) (t :: ts)

end

mutual

theorem Alike.refl : ∀ t : Tree, Alike t t
  | ⟨kind, operation, value, children⟩ => by
    cases hd : disposition ⟨kind, operation, value, children⟩ with
    | prune => exact .pruned hd hd
    | schedule => exact .scheduled hd hd rfl rfl rfl (AllAlike.refl children)

theorem AllAlike.refl : ∀ ts : List Tree, AllAlike ts ts
  | [] => .nil
  | t :: ts => .cons (Alike.refl t) (AllAlike.refl ts)

end

mutual

/-- Nodes that are alike have the same steps, but for what lies beneath them. -/
theorem Alike.steps_eq : ∀ {s t : Tree}, Alike s t →
    s.steps.map Step.bare = t.steps.map Step.bare
  | _, _, .pruned hs ht => by rw [steps_of_prune hs, steps_of_prune ht]
  | s, t, .scheduled hs ht hkind hoperation hvalue hchildren => by
    have hbare : (⟨[], s⟩ : Step).bare = (⟨[], t⟩ : Step).bare := by
      simp only [Step.bare, hkind, hoperation, hvalue]
    rw [steps_of_schedule hs, steps_of_schedule ht, List.map_cons, List.map_cons, hbare,
      hchildren.childSteps_eq 0]

/-- Trees that are alike one by one schedule the same steps, children apart. -/
theorem AllAlike.childSteps_eq : ∀ {ss ts : List Tree}, AllAlike ss ts → ∀ i : Nat,
    (childSteps i ss).map Step.bare = (childSteps i ts).map Step.bare
  | _, _, .nil, _ => rfl
  | s :: ss, t :: ts, .cons hfirst hrest, i => by
    -- The steps of the first ones agree, and so do they when all paths start at the parent.
    have hunder : (s.steps.map (Step.under [i])).map Step.bare
        = (t.steps.map (Step.under [i])).map Step.bare := by
      simpa only [List.map_map, Function.comp_def, Step.bare_under]
        using congrArg (List.map (Step.under [i])) hfirst.steps_eq
    rw [childSteps, childSteps, List.map_append, List.map_append, hunder,
      hrest.childSteps_eq (i + 1)]

end

/-! ## Trees whose operations are alike -/

/-- Operations that make no difference: behind type markers of one value all of them are alike;
without such markers the first ones are. -/
inductive OperationsAlike : List Tree → List Tree → Prop where
  | led {first first' : Tree} {others others' : List Tree} (hled : first.operation = .type)
      (hled' : first'.operation = .type) (hvalue : first.value = first'.value)
      (halike : AllAlike (first :: others) (first' :: others')) :
      OperationsAlike (first :: others) (first' :: others')
  | unled {first first' : Tree} {others others' : List Tree} (hled : first.operation ≠ .type)
      (hled' : first'.operation ≠ .type) (halike : Alike first first') :
      OperationsAlike (first :: others) (first' :: others')

section

variable {a b : Tree} {operations operations' : List Tree}

/-- Operations that are alike are walked alike. -/
theorem OperationsAlike.allAlike_walked (ha : a.operations? = some operations)
    (hb : b.operations? = some operations') (h : OperationsAlike operations operations') :
    AllAlike a.walked b.walked := by
  cases h with
  | led hled hled' hvalue halike =>
    rwa [walked_eq ha, walked_eq hb, if_pos hled, if_pos hled']
  | unled hled hled' halike =>
    rw [walked_eq ha, walked_eq hb, if_neg hled, if_neg hled']
    exact .cons halike .nil

/-- Plans of operations that are alike have the same steps, children apart. -/
theorem OperationsAlike.steps_compile_eq (ha : a.operations? = some operations)
    (hb : b.operations? = some operations') (h : OperationsAlike operations operations') :
    a.compile.steps.map Step.bare = b.compile.steps.map Step.bare := by
  have hwalked := (h.allAlike_walked ha hb).childSteps_eq 0
  rw [steps_compile, steps_compile]
  simpa only [List.map_map, Function.comp_def, Step.bare_under]
    using congrArg (List.map (Step.under [operationsSection])) hwalked

/-- Plans of operations that are alike have the same directive and warnings. -/
theorem OperationsAlike.directive_compile_eq (ha : a.operations? = some operations)
    (hb : b.operations? = some operations') (h : OperationsAlike operations operations') :
    a.compile.followRedirects = b.compile.followRedirects
      ∧ a.compile.warnings = b.compile.warnings := by
  have hdirective : a.directive? = b.directive? := by
    cases h with
    | led hled hled' hvalue halike =>
      rw [directive?_eq ha, directive?_eq hb, if_pos hled, if_pos hled', hvalue]
    | unled hled hled' halike =>
      rw [directive?_eq ha, directive?_eq hb, if_neg hled, if_neg hled']
  have hpair := directive_compile a
  rw [hdirective, ← directive_compile b] at hpair
  exact Prod.mk.inj hpair

/-- Trees whose operations are alike have the same report, and the same snapshot but for the
fingerprint. Nothing is asked of the roots, of the other sections, of the operations sections
themselves, of operations that are not walked, and of what is pruned. -/
theorem report_snapshot_eq_of_operationsAlike [Hasher] (ha : a.operations? = some operations)
    (hb : b.operations? = some operations') (h : OperationsAlike operations operations') :
    a.compile.report = b.compile.report
      ∧ { Snapshot.ofPlan a a.compile with fingerprint := b.fingerprint }
        = Snapshot.ofPlan b b.compile := by
  have herror : a.compile.error = b.compile.error := by
    cases h <;> rw [error_compile_eq_none ha, error_compile_eq_none hb]
  have hsteps := h.steps_compile_eq ha hb
  obtain ⟨hfollow, hwarnings⟩ := h.directive_compile_eq ha hb
  refine ⟨Plan.report_eq_of_bare herror hsteps hfollow hwarnings, ?_⟩
  have hstored : a.compile.steps.map SnapshotStep.ofStep
      = b.compile.steps.map SnapshotStep.ofStep := by
    rw [← SnapshotStep.map_ofStep_map_bare a.compile.steps, hsteps,
      SnapshotStep.map_ofStep_map_bare b.compile.steps]
  rw [Snapshot.ofPlan, Snapshot.ofPlan, herror, hfollow, hstored]

end

end Tree

/-- A tree with a directive, a request with assertions beneath it, and information. -/
def requestTree : Tree :=
  let directive := (Tree.leaf .nonExecutable .type).withValue (.str "False")
  let assertions := Tree.leaf .terminal .validate
  let request := ((Tree.leaf .nonTerminal (.named "send_request")).withValue (.num (.int 1)))
    |>.withChildren [assertions, Tree.leaf .terminal (.named "read_body")]
  (Tree.leaf .nonTerminal (.named "root")).withChildren
    [Tree.leaf .nonExecutable (.named "info"),
      (Tree.leaf .nonTerminal (.named "execute")).withChildren
        [directive, request, Tree.leaf .nonExecutable (.named "note")]]

/-- The same request in a tree of other tags and sections, with other things pruned. -/
def disguisedTree : Tree :=
  let hidden := Tree.leaf .terminal (.named "never_sent")
  let directive := ((Tree.leaf .terminal .type).withValue (.str "False")).withChildren [hidden]
  let redirect := ((Tree.leaf .nonTerminal .followRedirect).withValue .null).withChildren [hidden]
  let request := ((Tree.leaf .nonTerminal (.named "send_request")).withValue (.num (.int 1)))
    |>.withChildren [redirect, Tree.leaf .terminal (.named "read_body")]
  (Tree.leaf .terminal .validate).withChildren
    [hidden.withChildren [hidden],
      ((Tree.leaf .nonExecutable .type).withValue (.bool true)).withChildren
        [directive, request, (Tree.leaf .nonTerminal .type).withChildren [hidden]],
      hidden]

/-- The two sample trees differ beneath what is pruned, and only there. -/
theorem report_snapshot_eq_disguisedTree :
    (∃ operations operations', requestTree.operations? = some operations
        ∧ disguisedTree.operations? = some operations'
        ∧ Tree.OperationsAlike operations operations')
      ∧ requestTree.compile.report = disguisedTree.compile.report
      ∧ { Snapshot.ofPlan requestTree requestTree.compile with
            fingerprint := disguisedTree.fingerprint }
          = Snapshot.ofPlan disguisedTree disguisedTree.compile
      ∧ requestTree.compile.steps.length = 2 := by
  have hpruned : ∀ {s t : Tree}, s.operation.isReserved = true → t.operation.isReserved = true →
      Tree.Alike s t := fun hs ht =>
    .pruned ((Tree.disposition_eq_prune_iff _).mpr (.inl hs))
      ((Tree.disposition_eq_prune_iff _).mpr (.inl ht))
  have halike : Tree.OperationsAlike (requestTree.operations?.getD [])
      (disguisedTree.operations?.getD []) := by
    refine .led rfl rfl rfl (.cons (hpruned rfl rfl) (.cons ?_ (.cons ?_ .nil)))
    · exact .scheduled rfl rfl rfl rfl rfl
        (.cons (hpruned rfl rfl) (.cons (.refl _) .nil))
    · exact .pruned rfl rfl
  obtain ⟨hreport, hsnapshot⟩ :=
    Tree.report_snapshot_eq_of_operationsAlike (a := requestTree) (b := disguisedTree) rfl rfl
      halike
  exact ⟨⟨_, _, rfl, rfl, halike⟩, hreport, hsnapshot, by decide +kernel⟩

end StepPlan
