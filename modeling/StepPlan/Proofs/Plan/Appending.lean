import StepPlan.Proofs.Plan.Verdict

/-!
# More operations

What becomes of a plan when operations are appended to those of its tree. Behind a type marker all
operations are walked, each by itself, and where one stands only shows in the paths of its steps. So
the plan gets the steps that the new operations would have right behind the marker, with their
positions raised by the number of operations in between. Without a marker only the first operation
is walked, and nothing changes.

Main statement: `Tree.compile_append`.
-/

namespace StepPlan

/-- The step whose path is greater by `k` at position `i`. -/
def Step.raised (i k : Nat) (s : Step) : Step :=
  ⟨s.path.modify i (· + k), s.node⟩

namespace Tree

/-! ## Siblings -/

/-- The steps of some siblings are followed by those of the siblings behind them. -/
theorem childSteps_append (ts us : List Tree) (i : Nat) :
    childSteps i (ts ++ us) = childSteps i ts ++ childSteps (i + ts.length) us := by
  induction ts generalizing i with
  | nil => rfl
  | cons t ts ih =>
    have hplace : i + 1 + ts.length = i + (t :: ts).length := by
      rw [List.length_cons]
      omega
    rw [List.cons_append, childSteps, childSteps, ih (i + 1), hplace, List.append_assoc]

/-- Siblings that stand further on have the same steps, further on. -/
theorem childSteps_add (ts : List Tree) (i k : Nat) :
    childSteps (i + k) ts = (childSteps i ts).map (Step.raised 0 k) := by
  induction ts generalizing i with
  | nil => rfl
  | cons t ts ih =>
    have hplace : i + k + 1 = i + 1 + k := by omega
    have hfirst : t.steps.map (Step.under [i + k])
        = (t.steps.map (Step.under [i])).map (Step.raised 0 k) := by
      rw [List.map_map]
      rfl
    rw [childSteps, childSteps, List.map_append, hfirst, hplace, ih (i + 1)]

/-- A type marker has no steps. -/
theorem steps_of_type {t : Tree} (h : t.operation = .type) : t.steps = [] := by
  refine steps_of_prune ((disposition_eq_prune_iff t).mpr (.inl ?_))
  rw [h]
  rfl

/-- Behind a type marker siblings have the steps of those at the front, and then those that the
others would have right behind the marker, further on by the siblings in between. -/
theorem childSteps_of_type {first : Tree} (h : first.operation = .type) (others more : List Tree) :
    childSteps 0 (first :: (others ++ more))
      = childSteps 0 (first :: others)
        ++ (childSteps 0 (first :: more)).map (Step.raised 0 others.length) := by
  have hmarker : ∀ ts, childSteps 0 (first :: ts) = childSteps 1 ts := by
    intro ts
    rw [childSteps, steps_of_type h]
    rfl
  rw [hmarker, hmarker, hmarker, childSteps_append, childSteps_add]

/-! ## Operations -/

/-- The tree with these operations in its section for them. -/
def withOperations (root : Tree) (operations : List Tree) : Tree :=
  { root with children := root.children.modify operationsSection fun s =>
      { s with children := operations } }

theorem operations?_withOperations (root : Tree) (operations : List Tree) :
    (root.withOperations operations).operations? = root.operations?.map fun _ => operations := by
  simp only [operations?, withOperations, List.getElem?_modify_eq, Option.map_map,
    Option.map_eq_map]
  rfl

section

variable {root first : Tree} {others : List Tree}

theorem compilation_eq (h : root.operations? = some (first :: others)) :
    root.compilation = .ofOperations first others := by
  obtain ⟨s, hs, hc⟩ := Option.map_eq_some_iff.mp h
  rw [compilation, hs]
  simp only [hc]

/-- If the first operation is no type marker, the others do not matter. -/
theorem ofOperations_of_ne_type (h : first.operation ≠ .type) (others others' : List Tree) :
    Compilation.ofOperations first others = .ofOperations first others' := by
  have hled : (first.operation == .type) = false := beq_eq_false_iff_ne.mpr h
  simp only [Compilation.ofOperations, hled]
  rfl

theorem operations?_withOperations_of_operations? (h : root.operations? = some (first :: others))
    (operations : List Tree) : (root.withOperations operations).operations? = some operations := by
  rw [operations?_withOperations, h]
  rfl

/-- Behind its first operation a tree may have any others, and its heading stays. -/
theorem heading_withOperations (h : root.operations? = some (first :: others))
    (behind : List Tree) : (root.withOperations (first :: behind)).heading = root.heading := by
  have hlength : (root.withOperations (first :: behind)).children.length = root.children.length :=
    List.length_modify ..
  rw [heading, heading, operations?_withOperations_of_operations? h, h, hlength]
  rfl

/-- The steps behind a type marker are those of all operations. -/
theorem steps_compile_of_type (h : root.operations? = some (first :: others))
    (htype : first.operation = .type) :
    root.compile.steps = (childSteps 0 (first :: others)).map (Step.under [operationsSection]) := by
  rw [steps_compile, walked_eq h, if_pos htype]

/-- Operations that are appended behind a type marker add their steps behind all others: the steps
that they would have right behind the marker, with their positions in the section raised by the
number of operations in between. Whatever stands behind the marker, the plan says the same of
redirects, warnings and rejection. Without a marker in front the plan stays as it is. -/
theorem compile_append (h : root.operations? = some (first :: others)) (more : List Tree) :
    (first.operation = .type →
        (root.withOperations (first :: (others ++ more))).compile.steps
            = root.compile.steps
              ++ (root.withOperations (first :: more)).compile.steps.map
                (Step.raised 1 others.length)
          ∧ ∀ behind,
            (root.withOperations (first :: behind)).compile.followRedirects
                = root.compile.followRedirects
              ∧ (root.withOperations (first :: behind)).compile.warnings = root.compile.warnings
              ∧ (root.withOperations (first :: behind)).compile.error = root.compile.error)
      ∧ (first.operation ≠ .type →
        (root.withOperations (first :: (others ++ more))).compile = root.compile) := by
  have hwith : ∀ behind,
      (root.withOperations (first :: behind)).operations? = some (first :: behind) :=
    fun behind => operations?_withOperations_of_operations? h _
  -- Behind a type marker all operations are walked; without one only the first is, which stays.
  constructor
  · intro htype
    constructor
    · rw [steps_compile_of_type (hwith _) htype, steps_compile_of_type h htype,
        steps_compile_of_type (hwith _) htype, childSteps_of_type htype, List.map_append,
        List.map_map, List.map_map]
      rfl
    · intro behind
      obtain ⟨herror, hfollow, hwarnings⟩ :=
        compile_eq_of_heading_eq (heading_withOperations h behind)
      exact ⟨hfollow, hwarnings, herror⟩
  · intro hne
    rw [compile, compile, compilation_eq (hwith _), compilation_eq h,
      ofOperations_of_ne_type hne _ others]

end

/-- A tree of one operation behind a first one. -/
def loginTree (first : Tree) : Tree :=
  ⟨.nonTerminal, .named "root", none, [leaf .nonExecutable (.named "info"),
    ⟨.nonTerminal, .named "run", none, [first, leaf .terminal (.named "login")]⟩]⟩

/-- An operation with another one beneath it. -/
def attackGroup : Tree :=
  ⟨.nonTerminal, .named "attack", none, [leaf .terminal (.named "send")]⟩

/-- Behind a marker the group is walked at its place, behind another operation it is not. -/
theorem compile_append_loginTree :
    (∃ first others, (loginTree first).operations? = some (first :: others)
        ∧ first.operation = .type
        ∧ ((loginTree first).withOperations (first :: (others ++ [attackGroup]))).compile.steps
          = (loginTree first).compile.steps
            ++ ((loginTree first).withOperations [first, attackGroup]).compile.steps.map
              (Step.raised 1 others.length)
        ∧ ((loginTree first).withOperations
            (first :: (others ++ [attackGroup]))).compile.steps.map Step.path
          = [[1, 1], [1, 2], [1, 2, 0]])
      ∧ ∃ first others, (loginTree first).operations? = some (first :: others)
        ∧ first.operation ≠ .type
        ∧ ((loginTree first).withOperations (first :: (others ++ [attackGroup]))).compile
          = (loginTree first).compile := by
  have hled : (loginTree (leaf .terminal .type)).operations? = some _ := rfl
  have hunled : (loginTree attackGroup).operations? = some _ := rfl
  have hne : attackGroup.operation ≠ .type := by decide
  exact ⟨⟨_, _, hled, rfl, ((compile_append hled [attackGroup]).1 rfl).1, rfl⟩,
    _, _, hunled, hne, (compile_append hunled [attackGroup]).2 hne⟩

end Tree

end StepPlan
