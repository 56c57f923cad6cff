import StepPlan.Proofs.Plan.Directive
import StepPlan.Proofs.Plan.Parts
import StepPlan.Proofs.Tree.Code

/-!
# Plans of trees that are spelled alike

The walk looks at kinds and operations and never at a value, so it takes a tree and the same tree
with its values spelled out through the same steps (`Tree.steps_compile_spelled`). The directive is
read from a value, but its text would do. So trees that are spelled alike have plans that agree in
everything but what their nodes hold beyond the text.
-/

namespace StepPlan

/-- The step with every value given by its JSON text. -/
def Step.spelled (s : Step) : Step :=
  ⟨s.path, s.node.spelled⟩

theorem Step.spelled_under (path : List Nat) (s : Step) :
    (s.under path).spelled = s.spelled.under path := rfl

namespace Tree

/-- Whether a node is scheduled does not depend on its value. -/
theorem disposition_spelled (t : Tree) : t.spelled.disposition = t.disposition := by
  unfold disposition
  rw [kind_spelled, operation_spelled]

theorem get?_spelled (path : List Nat) :
    ∀ t : Tree, t.spelled.get? path = (t.get? path).map spelled := by
  induction path with
  | nil => intro t; rfl
  | cons i path ih =>
    intro t
    rw [get?_cons, get?_cons, children_spelled, List.getElem?_map]
    cases t.children[i]? with
    | none => rfl
    | some c => exact ih c

mutual

/-- A tree and its spelling schedule the same places. -/
theorem steps_spelled : ∀ t : Tree, t.spelled.steps = t.steps.map Step.spelled
  | ⟨kind, operation, value, children⟩ => by
    have hchildren := childSteps_spelled children 0
    cases hd : disposition ⟨kind, operation, value, children⟩ with
    | prune => rw [steps_of_prune hd, steps_of_prune ((disposition_spelled _).trans hd)]; rfl
    | schedule =>
      rw [steps_of_schedule hd, steps_of_schedule ((disposition_spelled _).trans hd),
        children_spelled, hchildren]
      rfl

theorem childSteps_spelled : ∀ (ts : List Tree) (i : Nat),
    childSteps i (ts.map spelled) = (childSteps i ts).map Step.spelled
  | [], _ => rfl
  | t :: ts, i => by
    rw [List.map_cons, childSteps, childSteps, steps_spelled t, childSteps_spelled ts]
    simp [Step.spelled_under, Function.comp_def]

end

/-- The same operations are walked. -/
theorem walked_spelled (root : Tree) : root.spelled.walked = root.walked.map spelled := by
  unfold walked
  rw [children_spelled, List.getElem?_map]
  cases root.children[operationsSection]? with
  | none => rfl
  | some operations =>
    simp only [Option.map_some, children_spelled]
    cases operations.children with
    | nil => rfl
    | cons first others =>
      simp only [List.map_cons, operation_spelled]
      split <;> rfl

/-- The plan of a tree with its values spelled out has the same steps, spelled out. -/
theorem steps_compile_spelled (root : Tree) :
    root.spelled.compile.steps = root.compile.steps.map Step.spelled := by
  rw [steps_compile, steps_compile, walked_spelled, childSteps_spelled]
  simp [Step.spelled_under, Function.comp_def]

/-- A tree is rejected when its spelling is, for the same reason. -/
theorem error_compile_spelled (root : Tree) :
    root.spelled.compile.error = root.compile.error := by
  unfold compile compilation
  rw [children_spelled, List.getElem?_map, List.length_map]
  cases root.children[operationsSection]? with
  | none => rfl
  | some operations =>
    simp only [Option.map_some, children_spelled]
    cases operations.children with
    | nil => rfl
    | cons first others => rfl

/-- The directive of a spelling is the text of the directive. -/
theorem directive?_spelled (root : Tree) :
    root.spelled.directive? = root.directive?.map fun v => v.map fun j => .str j.text := by
  unfold directive?
  rw [get?_spelled]
  cases root.get? [operationsSection, 0] with
  | none => rfl
  | some first =>
    simp only [Option.map_some, Option.bind_some, operation_spelled, value_spelled]
    split <;> rfl

/-- What a plan says of redirects, and its warnings, are told from the spelled tree. -/
theorem directive_compile_eq_of_spelled_eq {a b : Tree} (h : a.spelled = b.spelled) :
    (a.compile.followRedirects, a.compile.warnings)
      = (b.compile.followRedirects, b.compile.warnings) := by
  have hdirective := congrArg directive? h
  rw [directive?_spelled, directive?_spelled] at hdirective
  rw [directive_compile, directive_compile]
  cases hb : b.directive? with
  | none =>
    rw [hb, Option.map_none, Option.map_eq_none_iff] at hdirective
    rw [hdirective]
  | some w =>
    rw [hb, Option.map_some, Option.map_eq_some_iff] at hdirective
    obtain ⟨v, hv, htext⟩ := hdirective
    rw [hv, Option.map_some, Option.map_some,
      readDirective_eq_of_text_eq (spelled_value_eq_iff.mp htext)]

end Tree

end StepPlan
