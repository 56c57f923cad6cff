import StepPlan.Plan.Compile

/-!
# The schedule of a tree, without the accounts of a walk

`Walk.visit` carries a path and a growing record along. Here the steps of a tree are read off the
tree alone (`Tree.steps`), with paths that start at its own root, and `Walk.steps_visit` says that
this is what a walk adds to its record, each path put behind the place where the walk stood.

Everything else is then said about trees. A walk meets a node when everything above it is scheduled
(`Tree.mem_met_iff`), and it meets nodes in increasing order of path (`Tree.pairwise_path_met`), so
no path comes up twice. What it meets is either a step or pruned: the steps are the scheduled ones
among the nodes it meets (`Tree.steps_eq_filter_met`), and what it puts on record of the others are
their cuts (`Walk.pruned_visit`). Steps and nodes are listed for siblings in one way, each behind
the ones before it (`Tree.Gathers`).
-/

namespace StepPlan

/-- The step as seen from above: its path starts further up. -/
def Step.under (path : List Nat) (s : Step) : Step :=
  ⟨path ++ s.path, s.node⟩

@[simp] theorem Step.path_under (path : List Nat) (s : Step) :
    (s.under path).path = path ++ s.path := rfl

@[simp] theorem Step.node_under (path : List Nat) (s : Step) : (s.under path).node = s.node := rfl

theorem Step.under_eq {path rest : List Nat} {s : Step} (h : s.path = path ++ rest) :
    (⟨rest, s.node⟩ : Step).under path = s := by
  obtain ⟨whole, node⟩ := s
  obtain rfl : whole = path ++ rest := h
  rfl

theorem Step.under_under (path rest : List Nat) (s : Step) :
    (s.under rest).under path = s.under (path ++ rest) := by
  simp [Step.under, List.append_assoc]

namespace Tree

mutual

/-- The steps of a tree in the order of a walk, with their paths from its root. -/
def steps : Tree → List Step
  | ⟨kind, operation, value, children⟩ =>
    match disposition ⟨kind, operation, value, children⟩ with
    | .prune => []
    | .schedule => ⟨[], ⟨kind, operation, value, children⟩⟩ :: childSteps 0 children

/-- The steps of siblings, with their paths from the parent. The first sibling stands at `i`. -/
def childSteps (i : Nat) : List Tree → List Step
  | [] => []
  | t :: ts => t.steps.map (Step.under [i]) ++ childSteps (i + 1) ts

end

mutual

/-- The nodes that a walk over a tree meets, in order, with their paths from its root. It does not
look beneath a pruned node. -/
def met : Tree → List Step
  | ⟨kind, operation, value, children⟩ =>
    ⟨[], ⟨kind, operation, value, children⟩⟩ ::
      match disposition ⟨kind, operation, value, children⟩ with
      | .prune => []
      | .schedule => childMet 0 children

/-- The nodes that a walk over siblings meets. The first sibling stands at `i`. -/
def childMet (i : Nat) : List Tree → List Step
  | [] => []
  | t :: ts => t.met.map (Step.under [i]) ++ childMet (i + 1) ts

end

theorem met_of_prune {t : Tree} (h : t.disposition = .prune) : t.met = [⟨[], t⟩] := by
  obtain ⟨kind, operation, value, children⟩ := t
  rw [met, h]

theorem met_of_schedule {t : Tree} (h : t.disposition = .schedule) :
    t.met = ⟨[], t⟩ :: childMet 0 t.children := by
  obtain ⟨kind, operation, value, children⟩ := t
  rw [met, h]

theorem steps_of_prune {t : Tree} (h : t.disposition = .prune) : t.steps = [] := by
  obtain ⟨kind, operation, value, children⟩ := t
  rw [steps, h]

/-- A scheduled node comes before what is scheduled beneath it. -/
theorem steps_of_schedule {t : Tree} (h : t.disposition = .schedule) :
    t.steps = ⟨[], t⟩ :: childSteps 0 t.children := by
  obtain ⟨kind, operation, value, children⟩ := t
  rw [steps, h]

end Tree

/-- The node is scheduled. -/
def Step.isScheduled (s : Step) : Bool :=
  s.node.disposition = .schedule

/-- What is put on record of a node that a walk meets: a pruned one with something beneath it. -/
def Step.cut? (s : Step) : Option Pruned :=
  match s.node.disposition with
  | .schedule => none
  | .prune =>
    if s.node.children.isEmpty then none
    else some ⟨s.path, s.node.operation.name, s.node.children.length⟩

theorem Step.cut?_of_schedule {s : Step} (h : s.node.disposition = .schedule) :
    s.cut? = none := by
  rw [cut?, h]

theorem Step.cut?_of_prune {s : Step} (h : s.node.disposition = .prune) :
    s.cut? = if s.node.children.isEmpty then none
      else some ⟨s.path, s.node.operation.name, s.node.children.length⟩ := by
  rw [cut?, h]

/-- A cut tells the path of a pruned node with children, its operation, and how many they are. -/
theorem Step.cut?_eq_some_iff {s : Step} {c : Pruned} :
    s.cut? = some c ↔ s.node.disposition = .prune ∧ s.node.children ≠ []
      ∧ c = ⟨s.path, s.node.operation.name, s.node.children.length⟩ := by
  cases hd : s.node.disposition with
  | schedule => simp [cut?_of_schedule hd]
  | prune =>
    rw [cut?_of_prune hd]
    cases hc : s.node.children with
    | nil => simp
    | cons t ts => simp [eq_comm]

/-! ## What a walk adds to its record -/

namespace Walk

@[simp] theorem steps_prune (w : Walk) (t : Tree) : (w.prune t).steps = w.steps := by
  rw [prune]
  split <;> rfl

mutual

/-- A walk adds the steps of a tree to its record, with paths from where it stands. -/
theorem steps_visit : ∀ (t : Tree) (w : Walk),
    (w.visit t).steps = (t.steps.map (Step.under w.here.reverse)).reverse ++ w.steps
  | ⟨kind, operation, value, children⟩, w => by
    rw [visit]
    split
    next hd => rw [Tree.steps_of_prune hd, steps_prune]; rfl
    next hd =>
      rw [Tree.steps_of_schedule hd, steps_visitChildren]
      simp [schedule, Step.under]

/-- The same for siblings; the first one stands at `i` beneath the node at hand. -/
theorem steps_visitChildren : ∀ (ts : List Tree) (i : Nat) (w : Walk),
    (w.visitChildren i ts).steps
      = ((Tree.childSteps i ts).map (Step.under w.here.reverse)).reverse ++ w.steps
  | [], _, _ => rfl
  | t :: ts, i, w => by
    -- After `t` the walk is back where it stood, so the other siblings are walked from there.
    have hhere : ((w.enter i).visit t).leave.here = w.here := by
      rw [leave, here_visit]; rfl
    have hsteps : ((w.enter i).visit t).leave.steps
        = (t.steps.map (Step.under (w.here.reverse ++ [i]))).reverse ++ w.steps := by
      show ((w.enter i).visit t).steps = _
      rw [steps_visit]; simp [enter]
    rw [visitChildren, steps_visitChildren, hhere, hsteps, Tree.childSteps]
    simp [Step.under_under]

end

/-- Pruning puts on record what the node is met as, if anything lies beneath it. -/
theorem pruned_prune {t : Tree} (h : t.disposition = .prune) (w : Walk) :
    (w.prune t).pruned
      = ((t.met.map (Step.under w.here.reverse)).filterMap Step.cut?).reverse ++ w.pruned := by
  have hcut := Step.cut?_of_prune (s := (⟨[], t⟩ : Step).under w.here.reverse) h
  rw [Tree.met_of_prune h, List.map_singleton, List.filterMap_cons, hcut]
  rw [prune]
  by_cases hc : t.children.isEmpty <;> simp [hc]

mutual

/-- A walk adds the cuts among the nodes it meets to its record. -/
theorem pruned_visit : ∀ (t : Tree) (w : Walk),
    (w.visit t).pruned
      = ((t.met.map (Step.under w.here.reverse)).filterMap Step.cut?).reverse ++ w.pruned
  | ⟨kind, operation, value, children⟩, w => by
    rw [visit]
    split
    next hd => exact pruned_prune hd w
    next hd =>
      have hcut := Step.cut?_of_schedule
        (s := (⟨[], ⟨kind, operation, value, children⟩⟩ : Step).under w.here.reverse) hd
      rw [Tree.met_of_schedule hd, pruned_visitChildren, List.map_cons, List.filterMap_cons, hcut]
      rfl

/-- The same for siblings; the first one stands at `i` beneath the node at hand. -/
theorem pruned_visitChildren : ∀ (ts : List Tree) (i : Nat) (w : Walk),
    (w.visitChildren i ts).pruned
      = (((Tree.childMet i ts).map (Step.under w.here.reverse)).filterMap Step.cut?).reverse
        ++ w.pruned
  | [], _, _ => rfl
  | t :: ts, i, w => by
    have hhere : ((w.enter i).visit t).leave.here = w.here := by
      rw [leave, here_visit]; rfl
    have hpruned : ((w.enter i).visit t).leave.pruned
        = ((t.met.map (Step.under (w.here.reverse ++ [i]))).filterMap Step.cut?).reverse
          ++ w.pruned := by
      show ((w.enter i).visit t).pruned = _
      rw [pruned_visit]; simp [enter]
    rw [visitChildren, pruned_visitChildren, hhere, hpruned, Tree.childMet]
    simp [Step.under_under, Function.comp_def]

end

/-- The schedule of a walk over siblings that starts at their parent. -/
theorem scheduled_visitChildren (path : List Nat) (i : Nat) (ts : List Tree) :
    ((startAt path).visitChildren i ts).scheduled
      = (Tree.childSteps i ts).map (Step.under path) := by
  rw [scheduled, steps_visitChildren]
  simp [startAt]

/-- The cuts of a walk over siblings that starts at their parent. -/
theorem cutOff_visitChildren (path : List Nat) (i : Nat) (ts : List Tree) :
    ((startAt path).visitChildren i ts).cutOff
      = ((Tree.childMet i ts).map (Step.under path)).filterMap Step.cut? := by
  rw [cutOff, pruned_visitChildren]
  simp [startAt]

end Walk

/-! ## Which nodes are met, and which are steps -/

namespace Tree

/-- Every node on the path is there and scheduled, but for its end. -/
def ScheduledAbove (t : Tree) (path : List Nat) : Prop :=
  ∀ k < path.length, ∃ u, t.get? (path.take k) = some u ∧ u.disposition = .schedule

/-- Every node from the root down to the end of the path is there and scheduled. -/
def Scheduled (t : Tree) (path : List Nat) : Prop :=
  ∀ k ≤ path.length, ∃ u, t.get? (path.take k) = some u ∧ u.disposition = .schedule

theorem scheduled_iff {t node : Tree} {path : List Nat} (h : t.get? path = some node) :
    t.Scheduled path ↔ t.ScheduledAbove path ∧ node.disposition = .schedule := by
  constructor
  · intro hsch
    refine ⟨fun k hk => hsch k (Nat.le_of_lt hk), ?_⟩
    obtain ⟨u, hu, hd⟩ := hsch path.length (Nat.le_refl _)
    rw [List.take_length, h] at hu
    exact Option.some.inj hu ▸ hd
  · rintro ⟨habove, hd⟩ k hk
    rcases Nat.lt_or_eq_of_le hk with hlt | rfl
    · exact habove k hlt
    · exact ⟨node, by rw [List.take_length, h], hd⟩

/-- A path into a child is scheduled above when the root is scheduled and the rest is, in the child.
-/
theorem scheduledAbove_cons_iff {t c : Tree} {i : Nat} (hc : t.children[i]? = some c)
    (path : List Nat) :
    t.ScheduledAbove (i :: path) ↔ t.disposition = .schedule ∧ c.ScheduledAbove path := by
  constructor
  · intro h
    -- The beginning of length zero gives the node; the others go on from the child.
    obtain ⟨u, hu, hd⟩ := h 0 (by simp)
    refine ⟨by cases hu; exact hd, ?_⟩
    intro k hk
    have hnext := h (k + 1) (by simpa using hk)
    rwa [List.take_succ_cons, get?_cons, hc] at hnext
  · rintro ⟨hd, h⟩ k hk
    cases k with
    | zero => exact ⟨t, rfl, hd⟩
    | succ k =>
      rw [List.take_succ_cons, get?_cons, hc]
      exact h k (by simpa using hk)

/-- `among` lists for siblings what `nodes` lists for each of them, with paths from their parent.
The first sibling stands at the given position. -/
structure Gathers (nodes : Tree → List Step) (among : Nat → List Tree → List Step) : Prop where
  nil : ∀ i, among i [] = []
  cons : ∀ i t ts, among i (t :: ts) = (nodes t).map (Step.under [i]) ++ among (i + 1) ts

theorem gathers_steps : Gathers steps childSteps := ⟨fun _ => rfl, fun _ _ _ => rfl⟩

theorem gathers_met : Gathers met childMet := ⟨fun _ => rfl, fun _ _ _ => rfl⟩

section

variable {nodes : Tree → List Step} {among : Nat → List Tree → List Step}
  (h : Gathers nodes among) {t : Tree} {ts : List Tree} {i : Nat}

include h

/-- What is listed for siblings is listed for one of them, one position further down. -/
theorem Gathers.mem_iff {s : Step} :
    s ∈ among i ts
      ↔ ∃ j path c, s.path = (i + j) :: path ∧ ts[j]? = some c ∧ ⟨path, s.node⟩ ∈ nodes c := by
  induction ts generalizing i with
  | nil => simp [h.nil]
  | cons t ts ih =>
    rw [h.cons, List.mem_append, List.mem_map, ih]
    constructor
    · rintro (⟨s, hs, rfl⟩ | ⟨j, path, c, hpath, hc, hs⟩)
      · exact ⟨0, s.path, t, rfl, rfl, hs⟩
      · exact ⟨j + 1, path, c, by rw [hpath]; congr 1; omega, hc, hs⟩
    · rintro ⟨_ | j, path, c, hpath, hc, hs⟩
      · obtain rfl : t = c := Option.some.inj hc
        exact .inl ⟨⟨path, s.node⟩, hs, Step.under_eq hpath⟩
      · exact .inr ⟨j, path, c, by rw [hpath]; congr 1; omega, hc, hs⟩

/-- Listed in increasing order of path for a sibling and for those behind it, the nodes stand so for
all of them. -/
theorem Gathers.pairwise_path_cons (hfirst : (nodes t).Pairwise fun a b => a.path < b.path)
    (hothers : (among (i + 1) ts).Pairwise fun a b => a.path < b.path) :
    (among i (t :: ts)).Pairwise fun a b => a.path < b.path := by
  rw [h.cons]
  refine List.pairwise_append.mpr ⟨?_, hothers, fun a ha b hb => ?_⟩
  · rw [List.pairwise_map]
    refine hfirst.imp ?_
    intro a b hab
    exact List.cons_lt_cons_iff.mpr (.inr ⟨rfl, hab⟩)
  · obtain ⟨s, -, rfl⟩ := List.mem_map.mp ha
    obtain ⟨j, path, c, hpath, -, -⟩ := h.mem_iff.mp hb
    rw [hpath, Step.path_under]
    exact List.cons_lt_cons_iff.mpr (.inl (by omega))

end

/-- The nodes met among siblings are those of each of them, one position further down. -/
theorem mem_childMet_iff {ts : List Tree} {i : Nat} {s : Step} :
    s ∈ childMet i ts
      ↔ ∃ j path c, s.path = (i + j) :: path ∧ ts[j]? = some c ∧ ⟨path, s.node⟩ ∈ c.met :=
  gathers_met.mem_iff

/-- A walk meets a node exactly when every node above it is scheduled. -/
theorem mem_met_iff (path : List Nat) :
    ∀ {t node : Tree}, ⟨path, node⟩ ∈ t.met ↔ t.get? path = some node ∧ t.ScheduledAbove path := by
  -- On the path and not on the tree: each position of it leads to one child, whose nodes are known.
  induction path with
  | nil =>
    intro t node
    have habove : t.ScheduledAbove [] := fun k hk => absurd hk (Nat.not_lt_zero k)
    cases hd : t.disposition with
    | prune => simp [met_of_prune hd, habove, eq_comm]
    | schedule => simp [met_of_schedule hd, mem_childMet_iff, habove, eq_comm]
  | cons i path ih =>
    intro t node
    rw [get?_cons]
    cases hc : t.children[i]? with
    | none =>
      cases hd : t.disposition with
      | prune => simp [met_of_prune hd]
      | schedule => simp [met_of_schedule hd, mem_childMet_iff, hc]
    | some c =>
      rw [scheduledAbove_cons_iff hc, Option.bind_some]
      cases hd : t.disposition with
      | prune => simp [met_of_prune hd]
      | schedule =>
        rw [met_of_schedule hd, List.mem_cons, mem_childMet_iff]
        constructor
        · rintro (h | ⟨j, rest, c', hpath, hc', hs⟩)
          · simp at h
          · obtain ⟨rfl, rfl⟩ : i = 0 + j ∧ path = rest := by simpa using hpath
            rw [Nat.zero_add, hc'] at hc
            obtain rfl : c' = c := Option.some.inj hc
            obtain ⟨hget, habove⟩ := ih.mp hs
            exact ⟨hget, rfl, habove⟩
        · rintro ⟨hget, -, habove⟩
          exact .inr ⟨i, path, c, by simp, hc, ih.mpr ⟨hget, habove⟩⟩

mutual

/-- The steps of a tree are the scheduled nodes among those that a walk meets. -/
theorem steps_eq_filter_met : ∀ t : Tree, t.steps = t.met.filter Step.isScheduled
  | ⟨kind, operation, value, children⟩ => by
    cases hd : disposition ⟨kind, operation, value, children⟩ with
    | prune => simp [steps_of_prune hd, met_of_prune hd, Step.isScheduled, hd]
    | schedule =>
      simp [steps_of_schedule hd, met_of_schedule hd, Step.isScheduled, hd,
        childSteps_eq_filter_childMet children 0]

theorem childSteps_eq_filter_childMet : ∀ (ts : List Tree) (i : Nat),
    childSteps i ts = (childMet i ts).filter Step.isScheduled
  | [], _ => rfl
  | t :: ts, i => by
    rw [childSteps, childMet, List.filter_append, List.filter_map, steps_eq_filter_met t,
      childSteps_eq_filter_childMet ts (i + 1)]
    rfl

end

/-- The steps are the nodes that are met and scheduled. -/
theorem mem_steps_iff_mem_met {t node : Tree} {path : List Nat} :
    ⟨path, node⟩ ∈ t.steps ↔ ⟨path, node⟩ ∈ t.met ∧ node.disposition = .schedule := by
  simp [steps_eq_filter_met, Step.isScheduled]

/-- The steps of siblings are those of each of them, one position further down. -/
theorem mem_childSteps_iff {ts : List Tree} {i : Nat} {s : Step} :
    s ∈ childSteps i ts
      ↔ ∃ j path c, s.path = (i + j) :: path ∧ ts[j]? = some c ∧ ⟨path, s.node⟩ ∈ c.steps :=
  gathers_steps.mem_iff

/-- A node is a step of a tree exactly when every node down to it is scheduled. -/
theorem mem_steps_iff (path : List Nat) {t node : Tree} :
    ⟨path, node⟩ ∈ t.steps ↔ t.get? path = some node ∧ t.Scheduled path := by
  rw [mem_steps_iff_mem_met, mem_met_iff]
  constructor
  · rintro ⟨⟨hget, habove⟩, hd⟩
    exact ⟨hget, (scheduled_iff hget).mpr ⟨habove, hd⟩⟩
  · rintro ⟨hget, hsch⟩
    obtain ⟨habove, hd⟩ := (scheduled_iff hget).mp hsch
    exact ⟨⟨hget, habove⟩, hd⟩

/-! ## Their order -/

mutual

/-- A walk meets nodes in increasing order of path, a parent before what is beneath it. -/
theorem pairwise_path_met : ∀ t : Tree, t.met.Pairwise fun a b => a.path < b.path
  | ⟨kind, operation, value, children⟩ => by
    cases hd : disposition ⟨kind, operation, value, children⟩ with
    | prune => rw [met_of_prune hd]; exact List.pairwise_singleton _ _
    | schedule =>
      rw [met_of_schedule hd]
      refine List.pairwise_cons.mpr ⟨?_, pairwise_path_childMet children 0⟩
      intro s hs
      obtain ⟨j, path, c, hpath, -, -⟩ := mem_childMet_iff.mp hs
      rw [hpath]
      exact List.nil_lt_cons _ _

theorem pairwise_path_childMet : ∀ (ts : List Tree) (i : Nat),
    (childMet i ts).Pairwise fun a b => a.path < b.path
  | [], _ => .nil
  | t :: ts, i =>
    gathers_met.pairwise_path_cons (pairwise_path_met t) (pairwise_path_childMet ts (i + 1))

end

/-- Steps stand in increasing order of path, as the nodes that are met do. -/
theorem pairwise_path_steps (t : Tree) : t.steps.Pairwise fun a b => a.path < b.path := by
  rw [steps_eq_filter_met]
  exact (pairwise_path_met t).filter _

theorem pairwise_path_childSteps (ts : List Tree) (i : Nat) :
    (childSteps i ts).Pairwise fun a b => a.path < b.path := by
  rw [childSteps_eq_filter_childMet]
  exact (pairwise_path_childMet ts i).filter _

end Tree

end StepPlan
