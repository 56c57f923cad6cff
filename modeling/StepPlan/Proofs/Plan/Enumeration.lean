import StepPlan.Proofs.Plan.Parts

/-!
# The steps of a plan, path by path

`Tree.LeadsToStep` says of a path, without any walk, whether a step stands at its end. Main
statement: `Tree.compile_enumerates`, by which the plan runs through exactly these paths, once each
and in increasing order, and holds the node at each of them; the kinds and operations of the root
and of the operations section have no part in it.
-/

namespace StepPlan.Tree

/-- The operations section starts with a type marker. -/
def StartsWithType (root : Tree) : Prop :=
  ∃ first, root.get? [operationsSection, 0] = some first ∧ first.operation = .type

/-- A step stands at the end of the path: the path goes through the operations section, through its
first operation unless a type marker opens the section to all of them, and every node on it from
the operation down is scheduled. -/
structure LeadsToStep (root : Tree) (path : List Nat) : Prop where
  two_le_length : 2 ≤ path.length
  through_section : path[0]? = some operationsSection
  isSome_get? : (root.get? path).isSome
  through_walked : path[1]? = some 0 ∨ root.StartsWithType
  scheduled : ∀ k, 2 ≤ k → k ≤ path.length →
    ∃ u, root.get? (path.take k) = some u ∧ u.disposition = .schedule

/-- An operation is walked if it is the first, or if the first one is a type marker. -/
theorem getElem?_walked {root operation : Tree} {i : Nat} :
    root.walked[i]? = some operation
      ↔ root.get? [operationsSection, i] = some operation ∧ (i = 0 ∨ root.StartsWithType) := by
  unfold walked StartsWithType
  simp only [get?_cons, get?_nil]
  cases root.children[operationsSection]? with
  | none => simp
  | some operations =>
    cases hc : operations.children with
    | nil => simp [hc]
    | cons first others =>
      by_cases ht : first.operation = .type
      · simp [hc, ht]
      · cases i with
        | zero => simp [hc, ht]
        | succ i => simp [hc, ht]

/-- Beneath an operation a path goes on from that operation. -/
theorem get?_beneath {root operation : Tree} {i : Nat}
    (h : root.get? [operationsSection, i] = some operation) (rest : List Nat) :
    root.get? (operationsSection :: i :: rest) = operation.get? rest := by
  show root.get? ([operationsSection, i] ++ rest) = operation.get? rest
  rw [get?_append, h]
  rfl

/-- Steps lie beneath the walked operations, where these schedule them. -/
theorem leadsToStep_iff {root : Tree} {path : List Nat} :
    root.LeadsToStep path
      ↔ ∃ i rest operation, path = operationsSection :: i :: rest
          ∧ root.walked[i]? = some operation ∧ operation.Scheduled rest := by
  constructor
  · rintro ⟨hlen, hsec, hsome, hwalk, hsch⟩
    -- A path of two positions at least names an operation, and `k = 2` says that it is there.
    match path, hlen with
    | s :: i :: rest, _ =>
      obtain rfl : s = operationsSection := by simpa using hsec
      obtain ⟨operation, hop, -⟩ := hsch 2 (Nat.le_refl 2) (by simp)
      rw [List.take_succ_cons, List.take_succ_cons, List.take_zero] at hop
      refine ⟨i, rest, operation, rfl, getElem?_walked.mpr ⟨hop, ?_⟩, ?_⟩
      · simpa using hwalk
      · intro k hk
        obtain ⟨u, hu, hd⟩ := hsch (k + 2) (by omega) (by simpa using hk)
        rw [List.take_succ_cons, List.take_succ_cons, get?_beneath hop] at hu
        exact ⟨u, hu, hd⟩
  · rintro ⟨i, rest, operation, rfl, hop, hsch⟩
    obtain ⟨hget, hwalk⟩ := getElem?_walked.mp hop
    refine ⟨by simp, rfl, ?_, by simpa using hwalk, ?_⟩
    · obtain ⟨u, hu, -⟩ := hsch rest.length (Nat.le_refl _)
      rw [get?_beneath hget, ← List.take_length (l := rest), hu]
      rfl
    · intro k hk hle
      -- The first two positions lead to the operation; the rest of `path.take k` lies beneath it.
      obtain ⟨k, rfl⟩ : ∃ j, k = j + 2 := ⟨k - 2, by omega⟩
      rw [List.take_succ_cons, List.take_succ_cons, get?_beneath hget]
      exact hsch k (by simpa using hle)

/-- A step of the plan is a node together with a path that leads to it and to a step. -/
theorem mem_steps_compile_iff {root : Tree} {s : Step} :
    s ∈ root.compile.steps ↔ root.get? s.path = some s.node ∧ root.LeadsToStep s.path := by
  rw [steps_compile, leadsToStep_iff]
  constructor
  · intro hs
    obtain ⟨below, hbelow, rfl⟩ := List.mem_map.mp hs
    obtain ⟨i, rest, operation, hpath, hop, hrest⟩ := mem_childSteps_iff.mp hbelow
    obtain ⟨hget, hsch⟩ := (mem_steps_iff rest).mp hrest
    rw [Nat.zero_add] at hpath
    rw [Step.path_under, Step.node_under, hpath]
    exact ⟨(get?_beneath (getElem?_walked.mp hop).1 rest).trans hget,
      i, rest, operation, rfl, hop, hsch⟩
  · rintro ⟨hget, i, rest, operation, hpath, hop, hsch⟩
    rw [hpath, get?_beneath (getElem?_walked.mp hop).1] at hget
    refine List.mem_map.mpr ⟨⟨i :: rest, s.node⟩, ?_, Step.under_eq hpath⟩
    refine mem_childSteps_iff.mpr ⟨i, rest, operation, ?_, hop, ?_⟩
    · rw [Nat.zero_add]
    · exact (mem_steps_iff rest).mpr ⟨hget, hsch⟩

/-- The steps of a plan stand in increasing order of path. -/
theorem pairwise_path_steps_compile (root : Tree) :
    root.compile.steps.Pairwise fun a b => a.path < b.path := by
  rw [steps_compile, List.pairwise_map]
  refine (pairwise_path_childSteps root.walked 0).imp ?_
  intro a b hab
  exact List.cons_lt_cons_iff.mpr (.inr ⟨rfl, hab⟩)

/-- The tree with another kind and operation at its root and at its operations section. -/
def retagged (root : Tree) (kind : NodeKind) (operation : Operation) (sectionKind : NodeKind)
    (sectionOperation : Operation) : Tree :=
  ⟨kind, operation, root.value, root.children.modify operationsSection fun operations =>
    { operations with kind := sectionKind, operation := sectionOperation }⟩

/-- The tags of the root and of the operations section do not matter. -/
theorem compile_retagged (root : Tree) (kind : NodeKind) (operation : Operation)
    (sectionKind : NodeKind) (sectionOperation : Operation) :
    (root.retagged kind operation sectionKind sectionOperation).compile = root.compile := by
  unfold retagged compile compilation
  simp only [List.getElem?_modify, List.length_modify, if_true]
  cases root.children[operationsSection]? with
  | none => rfl
  | some operations => rfl

/-- The plan of a tree runs through the paths that lead to a step, once each and in increasing
order, a path before those that go on from it, and holds the node at each of them. A rejected plan
is empty. The kinds and operations of the root and of the operations section do not matter. -/
theorem compile_enumerates (root : Tree) :
    (root.compile.steps.map Step.path).Pairwise (· < ·)
      ∧ (∀ path, path ∈ root.compile.steps.map Step.path ↔ root.LeadsToStep path)
      ∧ (∀ s ∈ root.compile.steps, root.get? s.path = some s.node)
      ∧ (root.compile.error ≠ none → root.compile.steps = [])
      ∧ ∀ kind operation sectionKind sectionOperation,
          (root.retagged kind operation sectionKind sectionOperation).compile = root.compile := by
  refine ⟨?_, ?_, ?_, ?_, compile_retagged root⟩
  · rw [List.pairwise_map]
    exact pairwise_path_steps_compile root
  · intro path
    rw [List.mem_map]
    constructor
    · rintro ⟨s, hs, rfl⟩
      exact (mem_steps_compile_iff.mp hs).2
    -- A plan with an error is a rejected one.
    · intro h
      obtain ⟨node, hnode⟩ := Option.isSome_iff_exists.mp h.isSome_get?
      exact ⟨⟨path, node⟩, mem_steps_compile_iff.mpr ⟨hnode, h⟩, rfl⟩
  · intro s hs
    exact (mem_steps_compile_iff.mp hs).1
  · intro h
    cases hp : root.compile with
    | rejected reason => rfl
    | executable steps followRedirects warnings => rw [hp] at h; exact absurd rfl h

end StepPlan.Tree
