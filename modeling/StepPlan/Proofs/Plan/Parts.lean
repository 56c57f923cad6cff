import StepPlan.Proofs.Plan.Schedule

/-!
# What a plan is made of

A plan has two sources in its tree: the operations that are walked (`Tree.walked`), which give the
steps, and the value of a leading type marker (`Tree.directive?`), which gives the directive and the
warnings. `Tree.steps_compile` and `Tree.directive_compile` say so for every tree, a rejected one
included: it has neither source. What is put on record on the way is told from the plan and from the
cuts of the walked operations: `Tree.events_compilation`.
-/

namespace StepPlan.Tree

/-- The operations that are walked: all of them behind a type marker, else the first alone. -/
def walked (root : Tree) : List Tree :=
  match (root.children[operationsSection]?).map children with
  | none | some [] => []
  | some (first :: others) => if first.operation = .type then first :: others else [first]

/-- The operations of a tree, if it has a section for them. -/
def operations? (root : Tree) : Option (List Tree) :=
  (root.children[operationsSection]?).map children

/-- The payload of the type marker in front of all operations, if one stands there. -/
def directive? (root : Tree) : Option (Option Json) :=
  (root.get? [operationsSection, 0]).bind fun first =>
    if first.operation = .type then some first.value else none

/-- The cuts of the walked operations. -/
def cuts (root : Tree) : List Pruned :=
  ((childMet 0 root.walked).map (Step.under [operationsSection])).filterMap Step.cut?

/-- A plan holds the steps of the walked operations; a rejected one holds none. -/
theorem steps_compile (root : Tree) :
    root.compile.steps = (childSteps 0 root.walked).map (Step.under [operationsSection]) := by
  unfold compile compilation walked
  cases root.children[operationsSection]? with
  | none => rfl
  | some operations =>
    cases hc : operations.children with
    | nil => simp [hc, Compilation.rejected, Plan.steps, childSteps]
    | cons first others =>
      simp only [Option.map_some, hc, Compilation.ofOperations, Plan.steps,
        Walk.scheduled_visitChildren, beq_iff_eq]

/-- What a plan says of redirects, and its warnings, are read from the directive alone. -/
theorem directive_compile (root : Tree) :
    (root.compile.followRedirects, root.compile.warnings)
      = (root.directive?.map readDirective).getD (defaultFollowRedirects, []) := by
  unfold compile compilation directive?
  simp only [get?_cons, get?_nil]
  cases root.children[operationsSection]? with
  | none => rfl
  | some operations =>
    cases hc : operations.children with
    | nil => simp [hc, Compilation.rejected, Plan.followRedirects, Plan.warnings]
    | cons first others =>
      by_cases ht : first.operation = .type
      · simp [hc, ht, Compilation.ofOperations, Plan.followRedirects, Plan.warnings]
      · simp [hc, ht, Compilation.ofOperations, Plan.followRedirects, Plan.warnings]

/-- A rejected tree leaves its rejection on record. Any other leaves its warnings, its cuts, and
last what the plan comes to. -/
theorem events_compilation (root : Tree) :
    root.compilation.events
      = match root.compile.error with
        | some reason => [.rejected reason]
        | none => root.compile.warnings.map .warned ++ root.cuts.map .pruned
            ++ [.compiled root.compile.steps.length root.compile.followRedirects
              root.compile.warnings.length] := by
  unfold compile compilation cuts walked
  cases root.children[operationsSection]? with
  | none => rfl
  | some operations =>
    cases hc : operations.children with
    | nil => simp only [hc, Compilation.rejected, Plan.error]
    | cons first others =>
      simp only [Option.map_some, hc, Compilation.ofOperations, Plan.error, Plan.steps,
        Plan.followRedirects, Plan.warnings, Walk.cutOff_visitChildren, beq_iff_eq]

/-- A directive leaves one warning at most. -/
theorem length_warnings_readDirective_le (value : Option Json) :
    (readDirective value).2.length ≤ 1 := by
  unfold readDirective
  split
  next => exact Nat.zero_le _
  next => exact Nat.le_refl _

theorem length_warnings_compile_le (root : Tree) : root.compile.warnings.length ≤ 1 := by
  have hwarnings : root.compile.warnings
      = ((root.directive?.map readDirective).getD (defaultFollowRedirects, [])).2 :=
    congrArg Prod.snd (directive_compile root)
  rw [hwarnings]
  cases root.directive? with
  | none => exact Nat.zero_le _
  | some value => exact length_warnings_readDirective_le value

section

variable {root first : Tree} {others : List Tree}

/-- A tree with operations is not rejected. -/
theorem error_compile_eq_none (h : root.operations? = some (first :: others)) :
    root.compile.error = none := by
  obtain ⟨s, hs, hc⟩ := Option.map_eq_some_iff.mp h
  simp only [compile, compilation, hs, hc, Compilation.ofOperations, Plan.error]

/-- All operations are walked behind a type marker, and only the first one without. -/
theorem walked_eq (h : root.operations? = some (first :: others)) :
    root.walked = if first.operation = .type then first :: others else [first] := by
  obtain ⟨s, hs, hc⟩ := Option.map_eq_some_iff.mp h
  rw [walked, hs, Option.map_some, hc]

theorem directive?_eq (h : root.operations? = some (first :: others)) :
    root.directive? = if first.operation = .type then some first.value else none := by
  obtain ⟨s, hs, hc⟩ := Option.map_eq_some_iff.mp h
  simp [directive?, hs, hc]

end

end StepPlan.Tree
