import StepPlan.Proofs.Plan.Schedule

/-!
# The nodes of a tree and their places

All nodes of a tree in pre-order, each with its path (`Tree.places`). A node is among them exactly
when it stands at its path (`Tree.mem_places_iff`), and they stand in increasing order of path
(`Tree.pairwise_path_places`), so every path comes up once, a parent before what is beneath it and
siblings from left to right.
-/

namespace StepPlan.Tree

mutual

/-- The nodes of a tree in pre-order, with their paths from its root. -/
def places : Tree → List Step
  | ⟨kind, operation, value, children⟩ =>
    ⟨[], ⟨kind, operation, value, children⟩⟩ :: childPlaces 0 children

/-- The nodes of siblings, with their paths from the parent. The first sibling stands at `i`. -/
def childPlaces (i : Nat) : List Tree → List Step
  | [] => []
  | t :: ts => t.places.map (Step.under [i]) ++ childPlaces (i + 1) ts

end

theorem places_eq (t : Tree) : t.places = ⟨[], t⟩ :: childPlaces 0 t.children := by
  obtain ⟨kind, operation, value, children⟩ := t
  rw [places]

mutual

/-- Without their paths they are the nodes in pre-order. -/
theorem map_node_places : ∀ t : Tree, t.places.map Step.node = t.preorder
  | ⟨kind, operation, value, children⟩ => by
    rw [places, preorder, List.map_cons, map_node_childPlaces children 0]

theorem map_node_childPlaces : ∀ (ts : List Tree) (i : Nat),
    (childPlaces i ts).map Step.node = preorderForest ts
  | [], _ => rfl
  | t :: ts, i => by
    have hfirst : (t.places.map (Step.under [i])).map Step.node = t.places.map Step.node := by
      rw [List.map_map]
      rfl
    rw [childPlaces, preorderForest, List.map_append, hfirst, map_node_places t,
      map_node_childPlaces ts (i + 1)]

end

theorem gathers_places : Gathers places childPlaces := ⟨fun _ => rfl, fun _ _ _ => rfl⟩

/-- A node stands at a path when the path leads to it. -/
theorem mem_places_iff_get? (path : List Nat) :
    ∀ {t node : Tree}, ⟨path, node⟩ ∈ t.places ↔ t.get? path = some node := by
  induction path with
  | nil =>
    intro t node
    rw [places_eq, List.mem_cons, gathers_places.mem_iff]
    simp [eq_comm]
  | cons i path ih =>
    intro t node
    rw [places_eq, List.mem_cons, gathers_places.mem_iff, get?_cons]
    constructor
    · rintro (h | ⟨j, rest, c, hpath, hc, hs⟩)
      · simp at h
      · obtain ⟨rfl, rfl⟩ : i = 0 + j ∧ path = rest := by simpa using hpath
        rw [Nat.zero_add, hc]
        exact ih.mp hs
    · intro hget
      obtain ⟨c, hc, hget⟩ := Option.bind_eq_some_iff.mp hget
      exact .inr ⟨i, path, c, by simp, hc, ih.mpr hget⟩

/-- A node stands at its path, and every node that stands at a path is there with it. -/
theorem mem_places_iff {t : Tree} {s : Step} : s ∈ t.places ↔ t.get? s.path = some s.node :=
  mem_places_iff_get? s.path

/-! ## Their order -/

mutual

/-- Nodes stand in increasing order of path. -/
theorem pairwise_path_places : ∀ t : Tree, t.places.Pairwise fun a b => a.path < b.path
  | ⟨kind, operation, value, children⟩ => by
    rw [places]
    refine List.pairwise_cons.mpr ⟨?_, pairwise_path_childPlaces children 0⟩
    intro s hs
    obtain ⟨j, path, c, hpath, -, -⟩ := gathers_places.mem_iff.mp hs
    rw [hpath]
    exact List.nil_lt_cons _ _

theorem pairwise_path_childPlaces : ∀ (ts : List Tree) (i : Nat),
    (childPlaces i ts).Pairwise fun a b => a.path < b.path
  | [], _ => .nil
  | t :: ts, i =>
    gathers_places.pairwise_path_cons (pairwise_path_places t)
      (pairwise_path_childPlaces ts (i + 1))

end

/-- What holds of every node holds of those of the places. -/
theorem forall_get?_iff_forall_places {t : Tree} {P : List Nat → Tree → Prop} :
    (∀ path node, t.get? path = some node → P path node) ↔ ∀ s ∈ t.places, P s.path s.node :=
  ⟨fun h s hs => h s.path s.node (mem_places_iff.mp hs),
    fun h path node hget => h ⟨path, node⟩ (mem_places_iff.mpr hget)⟩

end StepPlan.Tree
