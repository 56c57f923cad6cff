import StepPlan.Proofs.Plan.Schedule

/-!
# A walk from any place

A walk may have come a long way before it gets to a tree: it stands somewhere, with steps and cuts
on record. None of this has a part in what it does there. Afterwards it stands where it stood, what
was on record is still in front, and behind it comes what a walk that starts at the tree itself has
on record, each path going on from where the walk stood. `Walk.scheduled_visit` and
`Walk.cutOff_visit` give the two records in their order.

Main statement: `Walk.visit_from_anywhere`.
-/

namespace StepPlan

/-- The pruned node as seen from above: its path starts further up. -/
def Pruned.under (path : List Nat) (c : Pruned) : Pruned :=
  ⟨path ++ c.path, c.operation, c.children⟩

/-- A node seen from above leaves the same cut, seen from above. -/
theorem Step.cut?_under (path : List Nat) (s : Step) :
    (s.under path).cut? = s.cut?.map (Pruned.under path) := by
  have hnode : (s.under path).node.disposition = s.node.disposition := rfl
  cases hd : s.node.disposition with
  | schedule => rw [cut?_of_schedule (hnode.trans hd), cut?_of_schedule hd, Option.map_none]
  | prune =>
    rw [cut?_of_prune (hnode.trans hd), cut?_of_prune hd, Step.node_under]
    split <;> rfl

namespace Walk

/-- A walk schedules the steps of a tree behind those on record, with paths from where it stands. -/
theorem scheduled_visit (w : Walk) (t : Tree) :
    (w.visit t).scheduled = w.scheduled ++ t.steps.map (Step.under w.here.reverse) := by
  rw [scheduled, scheduled, steps_visit, List.reverse_append, List.reverse_reverse]

/-- A walk puts the cuts of a tree behind those on record, with paths from where it stands. -/
theorem cutOff_visit (w : Walk) (t : Tree) :
    (w.visit t).cutOff
      = w.cutOff ++ (t.met.filterMap Step.cut?).map (Pruned.under w.here.reverse) := by
  -- A cut has a path of its own, so the place of the walk is moved from the node into its cut.
  have hcut : Step.cut? ∘ Step.under w.here.reverse
      = fun s => (Step.cut? s).map (Pruned.under w.here.reverse) :=
    funext (Step.cut?_under w.here.reverse)
  rw [cutOff, cutOff, pruned_visit, List.reverse_append, List.reverse_reverse, List.filterMap_map,
    hcut, List.map_filterMap]

/-- A walk that starts at a tree has the steps of the tree on record. -/
theorem scheduled_visit_startAt_nil (t : Tree) : ((startAt []).visit t).scheduled = t.steps := by
  rw [scheduled_visit]
  exact List.map_id'' (fun _ => rfl) t.steps

/-- A walk that starts at a tree has the cuts of the tree on record. -/
theorem cutOff_visit_startAt_nil (t : Tree) :
    ((startAt []).visit t).cutOff = t.met.filterMap Step.cut? := by
  rw [cutOff_visit]
  exact List.map_id'' (fun _ => rfl) (t.met.filterMap Step.cut?)

/-- Wherever a walk stands and whatever it has on record, it visits a tree as a walk does that
starts at the tree itself with nothing on record: it ends where it stood, and behind what both its
records held it adds what that walk has on them, each path put behind the place where it stands.
What that walk schedules are the scheduled nodes with none but scheduled nodes above them, in
increasing order of path. -/
theorem visit_from_anywhere (w : Walk) (t : Tree) :
    (w.visit t).here = w.here
      ∧ (w.visit t).scheduled
          = w.scheduled ++ ((startAt []).visit t).scheduled.map (Step.under w.here.reverse)
      ∧ (w.visit t).cutOff
          = w.cutOff ++ ((startAt []).visit t).cutOff.map (Pruned.under w.here.reverse)
      ∧ (((startAt []).visit t).scheduled.map Step.path).Pairwise (· < ·)
      ∧ ∀ s, s ∈ ((startAt []).visit t).scheduled
          ↔ t.get? s.path = some s.node ∧ t.Scheduled s.path := by
  rw [scheduled_visit_startAt_nil, cutOff_visit_startAt_nil]
  refine ⟨here_visit t w, scheduled_visit w t, cutOff_visit w t, ?_, ?_⟩
  · rw [List.pairwise_map]
    exact t.pairwise_path_steps
  · intro s
    exact Tree.mem_steps_iff s.path

example (s : Step) :
    ((⟨[4, 1], [s], []⟩ : Walk).visit ⟨.nonTerminal, .named "attack", none,
      [.leaf .terminal (.named "send"), .leaf .nonExecutable (.named "note"),
        .leaf .terminal (.named "check")]⟩).scheduled.map Step.path
      = [s.path, [1, 4], [1, 4, 0], [1, 4, 2]] := rfl

end Walk

end StepPlan
