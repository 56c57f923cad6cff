import StepPlan.Proofs.Plan.Enumeration

/-!
# A plan in blocks

A step and the steps beneath it stand together in a plan, with nothing else among them. Such a block
is what expanding the node of the step gives: `Tree.inBlocks_steps` says so of the walk over one
tree, and `Tree.filter_steps_compile` that the paths of a block are those that go on from its first
one. Expanding the walked operations one after the other gives the nodes of the whole plan.

Main statement: `Tree.compile_in_blocks`.
-/

namespace StepPlan.Tree

/-! ## Expanding -/

/-- Expanding a tree appends the nodes of its steps. -/
theorem expand_eq (t : Tree) (out : List Tree) : t.expand out = out ++ t.steps.map Step.node := by
  rw [expand, Walk.scheduled, Walk.steps_visit]
  simp [Walk.startAt, Step.under]

/-- Expanding trees one after the other appends the nodes of all their steps. -/
theorem foldl_expand (ts : List Tree) (i : Nat) (out : List Tree) :
    ts.foldl (fun out t => t.expand out) out = out ++ (childSteps i ts).map Step.node := by
  induction ts generalizing i out with
  | nil => simp [childSteps]
  | cons t ts ih =>
    rw [List.foldl_cons, ih (i + 1), expand_eq, childSteps]
    simp [Function.comp_def]

/-! ## Blocks -/

/-- A step and the steps beneath it. -/
def block (s : Step) : List Step :=
  s.node.steps.map (Step.under s.path)

/-- The block of the root is all its tree has. -/
theorem block_root (t : Tree) : block ⟨[], t⟩ = t.steps :=
  List.map_id'' (fun _ => rfl) t.steps

theorem block_under (path : List Nat) (s : Step) :
    block (s.under path) = (block s).map (Step.under path) := by
  simp [block, Function.comp_def, Step.under_under]

theorem map_node_block (s : Step) : (block s).map Step.node = s.node.expand [] := by
  simp [block, expand_eq, Function.comp_def]

/-- From each step on, the list starts with the block of that step. -/
def InBlocks (steps : List Step) : Prop :=
  ∀ before s after, steps = before ++ s :: after → block s <+: s :: after

theorem inBlocks_nil : InBlocks [] := by
  intro before s after h
  exact absurd h.symm (by simp)

/-- Steps in blocks may stand behind each other, since a block lies on one side. -/
theorem InBlocks.append {as bs : List Step} (ha : InBlocks as) (hb : InBlocks bs) :
    InBlocks (as ++ bs) := by
  intro before s after h
  rcases List.append_eq_append_iff.mp h with ⟨between, -, hlater⟩ | ⟨between, hfirst, hrest⟩
  · exact hb between s after hlater
  · cases between with
    | nil => exact hb [] s after hrest.symm
    | cons s' between =>
      obtain ⟨rfl, rfl⟩ := List.cons.inj hrest
      exact (ha before s between hfirst).trans ⟨bs, rfl⟩

/-- Steps stay in blocks when all their paths get a common front. -/
theorem InBlocks.map_under {steps : List Step} (h : InBlocks steps) (path : List Nat) :
    InBlocks (steps.map (Step.under path)) := by
  intro before s after hsplit
  obtain ⟨before, rest, rfl, -, hrest⟩ := List.map_eq_append_iff.mp hsplit
  obtain ⟨s, after, rfl, rfl, rfl⟩ := List.map_eq_cons_iff.mp hrest
  rw [block_under]
  exact (h before s after rfl).map (Step.under path)

mutual

/-- The steps of a tree stand in blocks, the first of them being all. -/
theorem inBlocks_steps : ∀ t : Tree, InBlocks t.steps
  | ⟨kind, operation, value, children⟩ => by
    cases hd : disposition ⟨kind, operation, value, children⟩ with
    | prune =>
      rw [steps_of_prune hd]
      exact inBlocks_nil
    | schedule =>
      intro before s after h
      cases before with
      | nil =>
        rw [List.nil_append] at h
        obtain ⟨rfl, -⟩ := List.cons.inj ((steps_of_schedule hd).symm.trans h)
        exact ⟨[], by rw [List.append_nil, block_root, h]⟩
      | cons first before =>
        obtain ⟨-, hbeneath⟩ := List.cons.inj ((steps_of_schedule hd).symm.trans h)
        exact inBlocks_childSteps children 0 before s after hbeneath

theorem inBlocks_childSteps : ∀ (ts : List Tree) (i : Nat), InBlocks (childSteps i ts)
  | [], _ => inBlocks_nil
  | t :: ts, i => by
    rw [childSteps]
    exact ((inBlocks_steps t).map_under [i]).append (inBlocks_childSteps ts (i + 1))

end

/-! ## Plans -/

/-- The steps of a plan stand in blocks. -/
theorem inBlocks_steps_compile (root : Tree) : InBlocks root.compile.steps := by
  rw [steps_compile]
  exact (inBlocks_childSteps root.walked 0).map_under _

/-- The steps of a plan whose path goes on from that of a step are the block of this step. -/
theorem mem_block_iff {root : Tree} {s u : Step} (hs : s ∈ root.compile.steps)
    (hu : u ∈ root.compile.steps) : u ∈ block s ↔ s.path <+: u.path := by
  constructor
  · intro h
    obtain ⟨below, -, rfl⟩ := List.mem_map.mp h
    exact List.prefix_append s.path below.path
  · rintro ⟨rest, hrest⟩
    obtain ⟨hgets, hleads⟩ := mem_steps_compile_iff.mp hs
    obtain ⟨hgetu, hleadu⟩ := mem_steps_compile_iff.mp hu
    rw [← hrest, get?_append, hgets, Option.bind_some] at hgetu
    refine List.mem_map.mpr ⟨⟨rest, u.node⟩, (mem_steps_iff rest).mpr ⟨hgetu, ?_⟩,
      Step.under_eq hrest.symm⟩
    -- Beneath `s` every node on the way is scheduled, since `u` is a step of the plan.
    intro k hk
    have hlong : 2 ≤ s.path.length + k := Nat.le_add_right_of_le hleads.two_le_length
    have hshort : s.path.length + k ≤ u.path.length := by
      rw [← hrest, List.length_append]
      omega
    obtain ⟨v, hv, hd⟩ := hleadu.scheduled (s.path.length + k) hlong hshort
    rw [← hrest, List.take_length_add_append, get?_append, hgets, Option.bind_some] at hv
    exact ⟨v, hv, hd⟩

/-- The block of a step is all that the plan has of steps whose path goes on from it. -/
theorem filter_steps_compile {root : Tree} {before others : List Step} {s : Step}
    (hs : s ∈ root.compile.steps) (h : root.compile.steps = before ++ (block s ++ others)) :
    root.compile.steps.filter (fun u => s.path.isPrefixOf u.path) = block s := by
  -- A step outside the block has no twin in it, since no path comes up twice.
  have hsorted := pairwise_path_steps_compile root
  rw [h, List.pairwise_append, List.pairwise_append] at hsorted
  obtain ⟨-, ⟨-, -, hothers⟩, hbefore⟩ := hsorted
  have hiff : ∀ u ∈ root.compile.steps, s.path.isPrefixOf u.path = true ↔ u ∈ block s := by
    intro u hu
    rw [List.isPrefixOf_iff_prefix, mem_block_iff hs hu]
  rw [h] at hiff ⊢
  simp only [List.mem_append] at hiff hbefore
  have hnone : before.filter (fun u => s.path.isPrefixOf u.path) = [] := by
    refine List.filter_eq_nil_iff.mpr fun u hu hpre => ?_
    have hblock := (hiff u (.inl hu)).mp hpre
    exact List.lt_irrefl _ (hbefore u hu u (.inl hblock))
  have hall : (block s).filter (fun u => s.path.isPrefixOf u.path) = block s :=
    List.filter_eq_self.mpr fun u hu => (hiff u (.inr (.inl hu))).mpr hu
  have hnone' : others.filter (fun u => s.path.isPrefixOf u.path) = [] := by
    refine List.filter_eq_nil_iff.mpr fun u hu hpre => ?_
    have hblock := (hiff u (.inr (.inr hu))).mp hpre
    exact List.lt_irrefl _ (hothers u hblock u hu)
  rw [List.filter_append, List.filter_append, hnone, hall, hnone', List.nil_append,
    List.append_nil]

/-- The steps from a step of the plan on, as many as expanding its node gives, hold the nodes that
it gives, and they are all steps whose path goes on from that of the step. Expanding the walked
operations one after the other appends the nodes of the plan to those given before. -/
theorem compile_in_blocks (root : Tree) :
    (∀ i s, root.compile.steps[i]? = some s →
        ((root.compile.steps.drop i).take (s.node.expand []).length).map Step.node
            = s.node.expand []
          ∧ (root.compile.steps.drop i).take (s.node.expand []).length
            = root.compile.steps.filter fun u => s.path.isPrefixOf u.path)
      ∧ ∀ out, root.walked.foldl (fun out t => t.expand out) out = out ++ root.compile.nodes := by
  constructor
  · intro i s hs
    have hdrop : root.compile.steps.drop i = s :: root.compile.steps.drop (i + 1) :=
      List.drop_eq_getElem?_toList_append.trans (by rw [hs]; rfl)
    have hsplit := (List.take_append_drop i root.compile.steps).symm
    obtain ⟨others, hothers⟩ := inBlocks_steps_compile root _ _ _ (hdrop ▸ hsplit)
    have hlength : (s.node.expand []).length = (block s).length := by
      rw [← map_node_block, List.length_map]
    -- The block at a step is as long as what expanding its node gives, so it is all that is taken.
    have hblock : (root.compile.steps.drop i).take (s.node.expand []).length = block s := by
      rw [hdrop, ← hothers, hlength, List.take_left]
    have hwhole : root.compile.steps = root.compile.steps.take i ++ (block s ++ others) := by
      rw [hothers, ← hdrop]
      exact hsplit
    rw [hblock]
    exact ⟨map_node_block s, (filter_steps_compile (List.mem_of_getElem? hs) hwhole).symm⟩
  · intro out
    rw [foldl_expand _ 0, Plan.nodes, steps_compile, List.map_map]
    rfl

/-- A tree with a group of operations among single ones; a node of the group is pruned. -/
def groupedTree : Tree :=
  ⟨.nonTerminal, .named "root", none, [leaf .nonExecutable (.named "info"),
    ⟨.nonTerminal, .named "run", none, [leaf .terminal .type, leaf .terminal (.named "login"),
      ⟨.nonTerminal, .named "attack", none, [leaf .terminal (.named "send"),
        ⟨.nonTerminal, .validate, none, [leaf .terminal (.named "status")]⟩,
        leaf .terminal (.named "compare")]⟩,
      leaf .terminal (.named "logout")]⟩]⟩

theorem compile_in_blocks_groupedTree :
    ∃ s, groupedTree.compile.steps[1]? = some s
      ∧ ((groupedTree.compile.steps.drop 1).take (s.node.expand []).length).map Step.node
          = s.node.expand []
      ∧ (groupedTree.compile.steps.filter fun u => s.path.isPrefixOf u.path).map Step.path
          = [[1, 2], [1, 2, 0], [1, 2, 2]]
      ∧ groupedTree.walked.foldl (fun out t => t.expand out) [leaf .terminal (.named "ping")]
          = leaf .terminal (.named "ping") :: groupedTree.compile.nodes := by
  obtain ⟨hblocks, hexpand⟩ := compile_in_blocks groupedTree
  obtain ⟨hnodes, -⟩ := hblocks 1 _ rfl
  exact ⟨_, rfl, hnodes, rfl, hexpand _⟩

end StepPlan.Tree
