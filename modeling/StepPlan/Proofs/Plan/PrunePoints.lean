import StepPlan.Proofs.Plan.Enumeration

/-!
# Every walked node is accounted for

The walk goes through the operations section and leaves each of its nodes in one of three states: it
is a step; or it is a prune point, where the walk turned back; or it lies beneath a prune point and
was never met. `Tree.exactlyOne_of_isWalked` says that there is no fourth state and that no node is
in two of them. The record of a compilation names the prune points that have something beneath
them.

Main statement: `Tree.compilation_accounts`.
-/

namespace StepPlan

/-- One of three statements holds and the others do not. -/
def ExactlyOne (a b c : Prop) : Prop :=
  (a ∧ ¬b ∧ ¬c) ∨ (¬a ∧ b ∧ ¬c) ∨ (¬a ∧ ¬b ∧ c)

namespace Tree

/-- The path leads to an operation that is walked, or to a node beneath one: it goes through the
operations section, and through its first operation unless a type marker opens the section. -/
structure IsWalked (root : Tree) (path : List Nat) : Prop where
  two_le_length : 2 ≤ path.length
  through_section : path[0]? = some operationsSection
  isSome_get? : (root.get? path).isSome
  through_walked : path[1]? = some 0 ∨ root.StartsWithType

/-- The walk turns back at the end of the path: the node is pruned, and all above it from the
operation down are steps. -/
structure IsPrunePoint (root : Tree) (path : List Nat) : Prop where
  isWalked : root.IsWalked path
  pruned : ∃ node, root.get? path = some node ∧ node.disposition = .prune
  steps_above : ∀ k, 2 ≤ k → k < path.length → path.take k ∈ root.compile.steps.map Step.path

/-- The path leads strictly beneath a prune point. -/
structure LeadsBeneath (root : Tree) (path point : List Nat) : Prop where
  isPrunePoint : root.IsPrunePoint point
  isBelow : point <+: path
  ne : point ≠ path

theorem mem_paths_compile_iff {root : Tree} {path : List Nat} :
    path ∈ root.compile.steps.map Step.path ↔ root.LeadsToStep path := by
  rw [List.mem_map]
  constructor
  · rintro ⟨s, hs, rfl⟩
    exact (mem_steps_compile_iff.mp hs).2
  · intro h
    obtain ⟨node, hnode⟩ := Option.isSome_iff_exists.mp h.isSome_get?
    exact ⟨⟨path, node⟩, mem_steps_compile_iff.mpr ⟨hnode, h⟩, rfl⟩

section

variable {root : Tree} {path : List Nat}

theorem IsWalked.leadsToStep (h : root.IsWalked path)
    (hsch : ∀ k, 2 ≤ k → k ≤ path.length →
      ∃ u, root.get? (path.take k) = some u ∧ u.disposition = .schedule) :
    root.LeadsToStep path :=
  ⟨h.two_le_length, h.through_section, h.isSome_get?, h.through_walked, hsch⟩

/-- What lies above a walked node is walked, from the operation down. -/
theorem IsWalked.take (h : root.IsWalked path) {k : Nat} (hk : 2 ≤ k) (hle : k ≤ path.length) :
    root.IsWalked (path.take k) := by
  obtain ⟨hlen, hsec, hsome, hwalked⟩ := h
  have hsome' : (root.get? (path.take k)).isSome := by
    rw [← List.take_append_drop k path, get?_append] at hsome
    exact Option.isSome_of_isSome_bind hsome
  refine ⟨by rw [List.length_take]; omega, ?_, hsome', ?_⟩
  · rwa [List.getElem?_take_of_lt (by omega)]
  · rwa [List.getElem?_take_of_lt (by omega)]

/-! ## The three states -/

/-- No step stands at a prune point or beneath one. -/
theorem IsPrunePoint.not_leadsToStep {point : List Nat} (h : root.IsPrunePoint point)
    (hpath : point <+: path) : ¬root.LeadsToStep path := by
  intro hstep
  obtain ⟨node, hnode, hprune⟩ := h.pruned
  obtain ⟨u, hu, hsch⟩ :=
    hstep.scheduled point.length h.isWalked.two_le_length hpath.length_le
  rw [← List.prefix_iff_eq_take.mp hpath, hnode] at hu
  rw [Option.some.inj hu, hsch] at hprune
  exact Disposition.noConfusion hprune

/-- No prune point lies beneath another. -/
theorem IsPrunePoint.eq_of_prefix {point : List Nat} (h : root.IsPrunePoint point)
    (hpath : point <+: path) (hpoint : root.IsPrunePoint path) : point = path := by
  rcases Nat.lt_or_eq_of_le hpath.length_le with hshort | hlength
  · have hstep := hpoint.steps_above point.length h.isWalked.two_le_length hshort
    rw [← List.prefix_iff_eq_take.mp hpath] at hstep
    exact absurd (mem_paths_compile_iff.mp hstep) (h.not_leadsToStep (List.prefix_refl point))
  · exact hpath.eq_of_length hlength

/-- Beneath one node there are no two prune points above another. -/
theorem IsPrunePoint.eq_of_common {point point' : List Nat} (h : root.IsPrunePoint point)
    (h' : root.IsPrunePoint point') (hpath : point <+: path) (hpath' : point' <+: path) :
    point = point' := by
  rcases Nat.le_total point.length point'.length with hle | hle
  · exact h.eq_of_prefix (List.prefix_of_prefix_length_le hpath hpath' hle) h'
  · exact (h'.eq_of_prefix (List.prefix_of_prefix_length_le hpath' hpath hle) h).symm

/-- On the way down to a walked node, either every node is scheduled, or the walk turns back. -/
theorem IsWalked.scheduled_or_isPrunePoint (h : root.IsWalked path) :
    ∀ n ≤ path.length,
      (∀ k, 2 ≤ k → k ≤ n → ∃ u, root.get? (path.take k) = some u ∧ u.disposition = .schedule)
        ∨ ∃ k, 2 ≤ k ∧ k ≤ n ∧ root.IsPrunePoint (path.take k) := by
  intro n
  induction n with
  | zero => exact fun _ => .inl fun k hk hle => absurd (Nat.le_trans hk hle) (by decide)
  | succ n ih =>
    intro hn
    rcases ih (by omega) with hsch | ⟨k, hk, hle, hpoint⟩
    · by_cases htwo : 2 ≤ n + 1
      · have hwalked := h.take htwo hn
        obtain ⟨u, hu⟩ := Option.isSome_iff_exists.mp hwalked.isSome_get?
        cases hd : u.disposition with
        | schedule =>
          refine .inl fun k hk hle => ?_
          rcases Nat.lt_or_eq_of_le hle with hlt | rfl
          · exact hsch k hk (by omega)
          · exact ⟨u, hu, hd⟩
        | prune =>
          -- All before this node are scheduled, so they are steps.
          refine .inr ⟨n + 1, htwo, Nat.le_refl _, hwalked, ⟨u, hu, hd⟩, ?_⟩
          intro k hk hlt
          rw [List.length_take] at hlt
          rw [List.take_take, Nat.min_eq_left (by omega), mem_paths_compile_iff]
          refine (h.take hk (by omega)).leadsToStep fun j hj hle => ?_
          rw [List.length_take] at hle
          rw [List.take_take, Nat.min_eq_left (by omega)]
          exact hsch j hj (by omega)
      · exact .inl fun k hk hle => absurd (Nat.le_trans hk hle) htwo
    · exact .inr ⟨k, hk, by omega, hpoint⟩

/-- A walked node is a step, or a prune point, or it lies strictly beneath one prune point and no
other; and only one of these. -/
theorem exactlyOne_of_isWalked (h : root.IsWalked path) :
    ExactlyOne (path ∈ root.compile.steps.map Step.path) (root.IsPrunePoint path)
      (∃ point, root.LeadsBeneath path point
        ∧ ∀ other, root.LeadsBeneath path other → other = point) := by
  rw [mem_paths_compile_iff]
  -- Either everything on the way is scheduled or there is a first prune point on it, at the end or
  -- before it.
  rcases h.scheduled_or_isPrunePoint path.length (Nat.le_refl _) with hsch | ⟨k, hk, hle, hpoint⟩
  · have hstep := h.leadsToStep hsch
    refine .inl ⟨hstep, fun hself => hself.not_leadsToStep (List.prefix_refl path) hstep, ?_⟩
    rintro ⟨point, ⟨hpoint, hbelow, -⟩, -⟩
    exact hpoint.not_leadsToStep hbelow hstep
  · have hprefix : path.take k <+: path := List.take_prefix k path
    rcases Nat.lt_or_eq_of_le hle with hlt | rfl
    · have hne : path.take k ≠ path := by
        intro heq
        have hlen := congrArg List.length heq
        rw [List.length_take] at hlen
        omega
      refine .inr (.inr ⟨hpoint.not_leadsToStep hprefix, ?_, path.take k,
        ⟨hpoint, hprefix, hne⟩,
        fun other h => h.isPrunePoint.eq_of_common hpoint h.isBelow hprefix⟩)
      exact fun hself => hne (hpoint.eq_of_prefix hprefix hself)
    · rw [List.take_length] at hpoint
      refine .inr (.inl ⟨hpoint.not_leadsToStep (List.prefix_refl path), hpoint, ?_⟩)
      rintro ⟨point, ⟨hother, hbelow, hne⟩, -⟩
      exact hne (hother.eq_of_prefix hbelow hpoint)

end

/-! ## The record -/

theorem scheduledAbove_iff_forall_take {t : Tree} {path : List Nat} :
    t.ScheduledAbove path ↔ ∀ k < path.length, t.Scheduled (path.take k) := by
  constructor
  · intro h k hk j hj
    rw [List.length_take] at hj
    rw [List.take_take, Nat.min_eq_left (by omega)]
    exact h j (by omega)
  · intro h k hk
    obtain ⟨u, hu, hd⟩ := h k hk k (by rw [List.length_take]; omega)
    rw [List.take_take, Nat.min_self] at hu
    exact ⟨u, hu, hd⟩

/-- Beneath a walked operation, what is above a node is all scheduled when it is all steps. -/
theorem scheduledAbove_iff_steps_above {root operation : Tree} {i : Nat}
    (hop : root.walked[i]? = some operation) (rest : List Nat) :
    operation.ScheduledAbove rest
      ↔ ∀ k, 2 ≤ k → k < (operationsSection :: i :: rest).length →
        (operationsSection :: i :: rest).take k ∈ root.compile.steps.map Step.path := by
  rw [scheduledAbove_iff_forall_take]
  constructor
  · intro h k hk hlt
    obtain ⟨k, rfl⟩ : ∃ j, k = j + 2 := ⟨k - 2, by omega⟩
    have hrest : operation.Scheduled (rest.take k) := h k (by simpa using hlt)
    exact mem_paths_compile_iff.mpr
      (leadsToStep_iff.mpr ⟨i, rest.take k, operation, rfl, hop, hrest⟩)
  · intro h k hk
    have hmem := h (k + 2) (by omega) (by simpa using hk)
    obtain ⟨j, rest', operation', hpath, hop', hsch⟩ :=
      leadsToStep_iff.mp (mem_paths_compile_iff.mp hmem)
    simp only [List.take_succ_cons, List.cons.injEq, true_and] at hpath
    obtain ⟨rfl, rfl⟩ := hpath
    obtain rfl : operation = operation' := Option.some.inj (hop.symm.trans hop')
    exact hsch

/-- A pruned node that the walk meets is a prune point, and the walk meets no other. -/
theorem mem_met_iff_isPrunePoint {root : Tree} {s : Step} (hd : s.node.disposition = .prune) :
    s ∈ (childMet 0 root.walked).map (Step.under [operationsSection])
      ↔ root.get? s.path = some s.node ∧ root.IsPrunePoint s.path := by
  -- Both directions go through the operation that the path leads into, and the rest of the path in
  -- it.
  constructor
  · intro hs
    obtain ⟨below, hbelow, rfl⟩ := List.mem_map.mp hs
    obtain ⟨i, rest, operation, hpath, hop, hmet⟩ := mem_childMet_iff.mp hbelow
    obtain ⟨hget, habove⟩ := (mem_met_iff rest).mp hmet
    obtain ⟨hoperation, hwalked⟩ := getElem?_walked.mp hop
    rw [Nat.zero_add] at hpath
    have hnode : root.get? (operationsSection :: i :: rest) = some below.node :=
      (get?_beneath hoperation rest).trans hget
    have hsome : (root.get? (operationsSection :: i :: rest)).isSome := by rw [hnode]; rfl
    rw [Step.path_under, Step.node_under, hpath]
    exact ⟨hnode, ⟨by simp, rfl, hsome, by simpa using hwalked⟩, ⟨_, hnode, hd⟩,
      (scheduledAbove_iff_steps_above hop rest).mp habove⟩
  · rintro ⟨hget, ⟨hlen, hsec, -, hwalked⟩, -, habove⟩
    obtain ⟨path, node⟩ := s
    match path, hlen with
    | p :: i :: rest, _ =>
      obtain rfl : p = operationsSection := by simpa using hsec
      have hop : ∃ operation, root.get? [operationsSection, i] = some operation := by
        have happend : root.get? ([operationsSection, i] ++ rest) = some node := hget
        rw [get?_append, Option.bind_eq_some_iff] at happend
        exact ⟨_, happend.choose_spec.1⟩
      obtain ⟨operation, hoperation⟩ := hop
      have hop := getElem?_walked.mpr ⟨hoperation, by simpa using hwalked⟩
      rw [get?_beneath hoperation] at hget
      have hmet := (mem_met_iff rest).mpr
        ⟨hget, (scheduledAbove_iff_steps_above hop rest).mpr habove⟩
      refine List.mem_map.mpr ⟨⟨i :: rest, node⟩, ?_, rfl⟩
      exact mem_childMet_iff.mpr ⟨i, rest, operation, by rw [Nat.zero_add], hop, hmet⟩

/-- The cuts are the prune points that have children. -/
theorem mem_cuts_iff {root : Tree} {c : Pruned} :
    c ∈ root.cuts ↔ root.IsPrunePoint c.path ∧ ∃ node, root.get? c.path = some node
      ∧ node.children ≠ [] ∧ c.operation = node.operation.name
      ∧ c.children = node.children.length := by
  rw [cuts, List.mem_filterMap]
  constructor
  · rintro ⟨s, hs, hcut⟩
    obtain ⟨hd, hne, rfl⟩ := Step.cut?_eq_some_iff.mp hcut
    obtain ⟨hget, hpoint⟩ := (mem_met_iff_isPrunePoint hd).mp hs
    exact ⟨hpoint, s.node, hget, hne, rfl, rfl⟩
  · rintro ⟨hpoint, node, hget, hne, hoperation, hchildren⟩
    obtain ⟨node', hget', hd⟩ := hpoint.pruned
    obtain rfl : node' = node := Option.some.inj (hget'.symm.trans hget)
    refine ⟨⟨c.path, node'⟩, (mem_met_iff_isPrunePoint hd).mpr ⟨hget, hpoint⟩, ?_⟩
    refine Step.cut?_eq_some_iff.mpr ⟨hd, hne, ?_⟩
    rw [← hoperation, ← hchildren]

/-- Cuts stand in increasing order of path. -/
theorem pairwise_path_cuts (root : Tree) : (root.cuts.map Pruned.path).Pairwise (· < ·) := by
  rw [List.pairwise_map, cuts]
  refine List.Pairwise.filterMap Step.cut? (R := fun a b : Step => a.path < b.path) ?_ ?_
  · intro a b hab c hc d hd
    obtain ⟨-, -, rfl⟩ := Step.cut?_eq_some_iff.mp hc
    obtain ⟨-, -, rfl⟩ := Step.cut?_eq_some_iff.mp hd
    exact hab
  · rw [List.pairwise_map]
    refine (pairwise_path_childMet root.walked 0).imp ?_
    intro a b hab
    exact List.cons_lt_cons_iff.mpr (.inr ⟨rfl, hab⟩)

/-- Every walked node of a tree is a step, or a prune point, or strictly beneath one prune point and
no other, and only one of these. On record are: of a rejected tree its rejection and nothing else;
of any other its one warning, if the plan has it, then the prune points with children, each with its
path, its operation and the number of its children, in increasing order of path, and last what the
plan comes to. -/
theorem compilation_accounts (root : Tree) :
    (∀ path, root.IsWalked path →
      ExactlyOne (path ∈ root.compile.steps.map Step.path) (root.IsPrunePoint path)
        (∃ point, root.LeadsBeneath path point
          ∧ ∀ other, root.LeadsBeneath path other → other = point))
      ∧ (root.compile.error = none → ∃ cuts : List Pruned,
        root.compilation.events = root.compile.warnings.map .warned ++ cuts.map .pruned
            ++ [.compiled root.compile.steps.length root.compile.followRedirects
              root.compile.warnings.length]
          ∧ root.compile.warnings.length ≤ 1
          ∧ (cuts.map Pruned.path).Pairwise (· < ·)
          ∧ ∀ c, c ∈ cuts ↔ root.IsPrunePoint c.path ∧ ∃ node, root.get? c.path = some node
            ∧ node.children ≠ [] ∧ c.operation = node.operation.name
            ∧ c.children = node.children.length)
      ∧ ∀ reason, root.compile.error = some reason →
        root.compilation.events = [.rejected reason]
          ∧ root.compilation.events.map Event.level = ["ERROR"] := by
  have hevents := events_compilation root
  refine ⟨fun path => exactlyOne_of_isWalked, ?_, ?_⟩
  · intro hnone
    rw [hnone] at hevents
    exact ⟨root.cuts, hevents, length_warnings_compile_le root, pairwise_path_cuts root,
      fun c => mem_cuts_iff⟩
  · intro reason hreason
    rw [hreason] at hevents
    exact ⟨hevents, by rw [hevents]; rfl⟩

end Tree

/-- A tree with an unreadable directive, a marker with a step beneath it, and one without. -/
def assertedTree : Tree :=
  let directive := (Tree.leaf .nonExecutable .type).withValue (.str "maybe")
  let assertions := (Tree.leaf .terminal .validate).withChildren
    [Tree.leaf .terminal (.named "never_sent")]
  let request := (Tree.leaf .nonTerminal (.named "send_request")).withChildren
    [assertions, Tree.leaf .terminal .followRedirect, Tree.leaf .terminal (.named "read_body")]
  (Tree.leaf .nonTerminal (.named "root")).withChildren
    [Tree.leaf .nonExecutable (.named "info"),
      (Tree.leaf .nonTerminal (.named "execute")).withChildren [directive, request]]

theorem accounts_assertedTree :
    assertedTree.IsWalked [1, 1, 0, 0] ∧ assertedTree.compile.error = none
      ∧ (∃ point, assertedTree.LeadsBeneath [1, 1, 0, 0] point)
      ∧ (∃ cuts : List Pruned,
        assertedTree.compilation.events = assertedTree.compile.warnings.map .warned
            ++ cuts.map .pruned ++ [.compiled 2 true 1]
          ∧ ∀ c, c ∈ cuts → assertedTree.IsPrunePoint c.path)
      ∧ assertedTree.compilation.events
        = [.warned (.unreadableDirective "maybe"), .pruned ⟨[1, 1, 0], "validate", 1⟩,
          .compiled 2 true 1] := by
  obtain ⟨hstates, hrecord, -⟩ := Tree.compilation_accounts assertedTree
  have hwalked : assertedTree.IsWalked [1, 1, 0, 0] :=
    ⟨by decide, rfl, rfl, .inr ⟨_, rfl, rfl⟩⟩
  have herror : assertedTree.compile.error = none := by decide +kernel
  refine ⟨hwalked, herror, ?_, ?_, by decide +kernel⟩
  · -- The node would be a step, were the one above it not pruned.
    rcases hstates _ hwalked with ⟨hstep, -⟩ | ⟨-, hpoint, -⟩ | ⟨-, -, point, hpoint, -⟩
    · exact absurd hstep (by decide +kernel)
    · exact absurd (hpoint.steps_above 3 (by decide) (by decide)) (by decide +kernel)
    · exact ⟨point, hpoint⟩
  · obtain ⟨cuts, hevents, -, -, hcuts⟩ := hrecord herror
    exact ⟨cuts, hevents, fun c hc => ((hcuts c).mp hc).1⟩

end StepPlan
