import StepPlan.Proofs.Json.StringText
import StepPlan.Proofs.Number.Alphabet
import StepPlan.Proofs.Tree.Code
import StepPlan.Proofs.Tree.Places
import StepPlan.Tree.Basic

/-!
# What a drawing shows

A drawing is read line by line. Every node has one, in pre-order, and where the node stands shows in
front of its branch: a guide for each node above it, blank where that one is a last sibling
(`Tree.line`). Names and values may look like guides and branches themselves. But a line is told
from its beginning, and a guide is no branch: so the lines beneath a node end where one starts that
has fewer guides, and the tree comes back from its drawing, each node with its caption
(`Tree.drawn_append_inj`). Only a line break in the name of an operation would break a line in two;
values are written without any (`Json.le_toNat_of_mem_chars`).

Main statement: `Tree.drawing_lines`.
-/

namespace StepPlan

/-! ## Values stand on one line -/

theorem le_toNat_of_isNumeral {c : Char} (h : isNumeral c) : 0x20 ≤ c.toNat := by
  rcases h with hdigit | rfl | rfl | rfl | rfl
  · have hzero : 48 ≤ c.val := by simpa using (Bool.and_eq_true_iff.mp hdigit).1
    exact Nat.le_trans (by decide) (UInt32.le_iff_toNat_le.mp hzero)
  · decide
  · decide
  · decide
  · decide

namespace Json

theorem le_toNat_of_mem_escapedChar (c : Char) : ∀ d ∈ escapedChar c, 0x20 ≤ d.toNat := by
  have hdigit : ∀ n < 16, 0x20 ≤ (Nat.digitChar n).toNat := by decide
  unfold escapedChar
  split
  case h_8 =>
    split
    next hlow =>
      have hhigh := hdigit (c.toNat / 16) (by omega)
      have hrest := hdigit (c.toNat % 16) (by omega)
      simp [hhigh, hrest]
    next hlow => simpa using hlow
  all_goals simp

theorem le_toNat_of_mem_stringChars (s : String) : ∀ c ∈ stringChars s, 0x20 ≤ c.toNat := by
  simp only [stringChars, List.forall_mem_cons, List.forall_mem_append, List.forall_mem_flatMap]
  exact ⟨by decide, fun c _ => le_toNat_of_mem_escapedChar c, by decide, by simp⟩

mutual

/-- The text of a value holds no control characters. -/
theorem le_toNat_of_mem_chars : ∀ (j : Json), ∀ c ∈ j.chars, 0x20 ≤ c.toNat
  | .null | .bool true | .bool false | .arr [] | .obj [] => by simp [chars]
  | .num n => fun c hc => le_toNat_of_isNumeral (Number.isNumeral_of_mem_chars hc)
  | .str s => le_toNat_of_mem_stringChars s
  | .arr (item :: items) => by
    rw [chars, List.forall_mem_cons, List.forall_mem_append]
    exact ⟨by decide, le_toNat_of_mem_chars item, le_toNat_of_mem_itemChars items⟩
  | .obj ((key, value) :: members) => by
    simp only [chars, List.forall_mem_cons, List.forall_mem_append]
    exact ⟨by decide, le_toNat_of_mem_stringChars key, by decide, le_toNat_of_mem_chars value,
      le_toNat_of_mem_memberChars members⟩

theorem le_toNat_of_mem_itemChars : ∀ (items : List Json), ∀ c ∈ itemChars items, 0x20 ≤ c.toNat
  | [] => by simp [itemChars]
  | item :: items => by
    rw [itemChars, List.forall_mem_cons, List.forall_mem_append]
    exact ⟨by decide, le_toNat_of_mem_chars item, le_toNat_of_mem_itemChars items⟩

theorem le_toNat_of_mem_memberChars : ∀ (members : List (String × Json)),
    ∀ c ∈ memberChars members, 0x20 ≤ c.toNat
  | [] => by simp [memberChars]
  | (key, value) :: members => by
    simp only [memberChars, List.forall_mem_cons, List.forall_mem_append]
    exact ⟨by decide, le_toNat_of_mem_stringChars key, by decide, le_toNat_of_mem_chars value,
      le_toNat_of_mem_memberChars members⟩

end

/-- The text of a value is one line. -/
theorem newline_notMem_text (j : Json) : '\n' ∉ j.text.toList := by
  intro h
  rw [text, String.toList_ofList] at h
  exact absurd (le_toNat_of_mem_chars j '\n' h) (by decide)

end Json

namespace Tree

/-! ## Lines -/

/-- What the line of a node says of it, behind the branch. -/
def caption (t : Tree) : String :=
  label t.operation t.kind t.value

/-- The caption of the node at a path. -/
def caption? (t : Tree) (path : List Nat) : Option String :=
  (t.get? path).map caption

/-- No operation has a line break in its name. -/
def HasOneLineNames (t : Tree) : Prop :=
  ∀ path node, t.get? path = some node → '\n' ∉ node.operation.name.toList

/-- The path leads to the root, or no sibling stands behind the node at the path. -/
def isLast (t : Tree) (path : List Nat) : Bool :=
  path.getLast?.all fun i => (t.get? (path.dropLast ++ [i + 1])).isNone

/-- A guide for every node above the one at a path, from the root down. -/
def guides (t : Tree) (path : List Nat) : String :=
  String.join ((List.range path.length).map fun k =>
    if t.isLast (path.take k) then "    " else "│   ")

/-- The line of a node of the tree: its guides, its branch and its caption. -/
def line (t : Tree) (s : Step) : String :=
  t.guides s.path ++ (if t.isLast s.path then "└── " else "├── ") ++ s.node.caption

theorem caption?_cons (t : Tree) (i : Nat) (path : List Nat) :
    t.caption? (i :: path) = (t.children[i]?).bind (caption? · path) := by
  rw [caption?, get?_cons, Option.map_bind]
  rfl

theorem isLast_concat (t : Tree) (path : List Nat) (i : Nat) :
    t.isLast (path ++ [i]) = (t.get? (path ++ [i + 1])).isNone := by
  simp [isLast]

/-- The guides of a child are those of its parent and one for the parent. -/
theorem guides_concat (t : Tree) (path : List Nat) (i : Nat) :
    t.guides (path ++ [i]) = t.guides path ++ guide (t.isLast path) := by
  have hbefore : ∀ k ∈ List.range path.length, (path ++ [i]).take k = path.take k := fun k hk =>
    List.take_append_of_le_length (Nat.le_of_lt (List.mem_range.mp hk))
  rw [guides, List.length_append, List.length_singleton, List.range_succ, List.map_append,
    String.join_append, List.map_singleton, List.take_left, String.join_cons, String.join_nil,
    String.append_empty, List.map_congr_left fun k hk => by rw [hbefore k hk]]
  rfl

/-- A caption is one line if the name of the operation is. -/
theorem newline_notMem_caption {t : Tree} (h : '\n' ∉ t.operation.name.toList) :
    '\n' ∉ t.caption.toList := by
  obtain ⟨kind, operation, value, children⟩ := t
  have hkind : '\n' ∉ kind.name.toList := by cases kind <;> decide
  cases value with
  | none => simpa [caption, label, hkind] using h
  | some v => simpa [caption, label, hkind, Json.newline_notMem_text] using h

/-- A line has no line end but its own. -/
theorem newline_notMem_line (t : Tree) {s : Step} (h : '\n' ∉ s.node.caption.toList) :
    '\n' ∉ (t.line s).toList := by
  have hguides : '\n' ∉ (t.guides s.path).toList := by
    rw [guides, String.toList_join]
    simp only [List.mem_flatMap, List.mem_map, not_exists, not_and]
    rintro _ ⟨k, -, rfl⟩
    split <;> decide
  have hbranch : '\n' ∉ (if t.isLast s.path then "└── " else "├── ").toList := by
    split <;> decide
  simp [line, hguides, hbranch, h]

mutual

/-- The lines of a tree that stands in `root` at this path. -/
theorem drawn_eq_join_line (root : Tree) : ∀ (t : Tree) (path : List Nat),
    root.get? path = some t →
      drawn (root.guides path) (root.isLast path) t
        = String.join (t.places.map fun s => root.line (s.under path) ++ "\n")
  | ⟨kind, operation, value, children⟩, path, h => by
    have hchildren : ∀ j, root.get? (path ++ [0 + j]) = children[j]? := by
      intro j
      rw [get?_append, h, Nat.zero_add]
      simp
    have hline : root.line ((⟨[], ⟨kind, operation, value, children⟩⟩ : Step).under path)
        = root.guides path ++ branch (root.isLast path) ++ label operation kind value := by
      rw [line, Step.path_under, List.append_nil]
      rfl
    rw [drawn, places, List.map_cons, String.join_cons, hline,
      drawnForest_eq_join_line root children path 0 hchildren]

/-- The lines of siblings, the first of which stands at `i`. -/
theorem drawnForest_eq_join_line (root : Tree) : ∀ (ts : List Tree) (path : List Nat) (i : Nat),
    (∀ j, root.get? (path ++ [i + j]) = ts[j]?) →
      drawnForest (root.guides path ++ guide (root.isLast path)) ts
        = String.join ((childPlaces i ts).map fun s => root.line (s.under path) ++ "\n")
  | [], _, _, _ => rfl
  | t :: ts, path, i, h => by
    have hfirst : root.get? (path ++ [i]) = some t := h 0
    have hothers : ∀ j, root.get? (path ++ [i + 1 + j]) = ts[j]? := by
      intro j
      rw [Nat.add_assoc, Nat.add_comm 1 j]
      exact h (j + 1)
    -- The first one is a last sibling if there are no others.
    have hlast : root.isLast (path ++ [i]) = ts.isEmpty := by
      rw [isLast_concat, hothers 0]
      cases ts <;> rfl
    have hdrawn := drawn_eq_join_line root t (path ++ [i]) hfirst
    rw [guides_concat, hlast] at hdrawn
    rw [drawnForest, hdrawn, drawnForest_eq_join_line root ts path (i + 1) hothers, childPlaces,
      List.map_append, String.join_append, List.map_map]
    simp only [Function.comp_def, Step.under_under]

end

/-- A drawing is made of the lines of all nodes in pre-order. -/
theorem drawing_eq_join_line (t : Tree) :
    t.drawing = String.join (t.places.map fun s => t.line s ++ "\n") :=
  drawn_eq_join_line t t [] rfl

/-! ## The tree behind a drawing -/

theorem HasOneLineNames.root {t : Tree} (h : t.HasOneLineNames) : '\n' ∉ t.caption.toList :=
  newline_notMem_caption (h [] t rfl)

theorem HasOneLineNames.child {t c : Tree} (h : t.HasOneLineNames) (hc : c ∈ t.children) :
    c.HasOneLineNames := by
  intro path node hnode
  obtain ⟨i, hi⟩ := List.mem_iff_getElem?.mp hc
  refine h (i :: path) node ?_
  rw [get?_cons, hi]
  exact hnode

/-- A drawing starts with its guides, its branch and its caption, in this order. -/
theorem toList_drawn (guides : String) (isLast : Bool) (t : Tree) :
    (drawn guides isLast t).toList
      = guides.toList ++ ((branch isLast).toList
        ++ (t.caption.toList ++ '\n' :: (drawnForest (guides ++ guide isLast) t.children).toList))
    := by
  obtain ⟨kind, operation, value, children⟩ := t
  simp [drawn, caption]

theorem toList_drawnForest_cons (guides : String) (t : Tree) (ts : List Tree) :
    (drawnForest guides (t :: ts)).toList
      = (drawn guides ts.isEmpty t).toList ++ (drawnForest guides ts).toList := by
  rw [drawnForest, String.toList_append]

/-- The two branches are told from each other, and so is what stands behind them. -/
theorem branch_append_inj {l m : Bool} {x y : List Char}
    (h : (branch l).toList ++ x = (branch m).toList ++ y) : l = m ∧ x = y := by
  cases l <;> cases m <;> simp [branch] at h <;> exact ⟨rfl, h⟩

/-- No guide is a branch. -/
theorem not_guide_prefix_branch (l m : Bool) (x : List Char) :
    ¬(guide l).toList <+: (branch m).toList ++ x := by
  cases l <;> cases m <;> simp [branch, guide]

/-- Where a node is the last one beneath another, a line with fewer guides follows, or the end. -/
theorem not_prefix_drawnForest {guides : String} {x : List Char} (h : ¬guides.toList <+: x)
    (l : Bool) (ts : List Tree) :
    ¬(guides ++ guide l).toList <+: (drawnForest guides ts).toList ++ x := by
  intro hprefix
  rw [String.toList_append] at hprefix
  cases ts with
  | nil => exact h ((List.prefix_append ..).trans hprefix)
  | cons t ts =>
    rw [toList_drawnForest_cons, toList_drawn] at hprefix
    simp only [List.append_assoc, List.prefix_append_right_inj] at hprefix
    exact not_guide_prefix_branch _ _ _ hprefix

mutual

/-- Two trees that are drawn alike behind the same guides show the same captions at the same paths,
whatever stands behind them without the guides of their children. -/
theorem drawn_append_inj : ∀ {a b : Tree} {guides : String} {l : Bool} {x y : List Char},
    a.HasOneLineNames → b.HasOneLineNames →
    ¬(guides ++ guide l).toList <+: x → ¬(guides ++ guide l).toList <+: y →
    (drawn guides l a).toList ++ x = (drawn guides l b).toList ++ y →
      (∀ path, a.caption? path = b.caption? path) ∧ x = y
  | ⟨kind, operation, value, children⟩, b, guides, l, x, y, ha, hb, hx, hy, h => by
    simp only [toList_drawn, List.append_assoc, List.cons_append, List.append_cancel_left_eq] at h
    -- The first line break ends both captions, and what follows is drawn beneath the two nodes.
    obtain ⟨hcaption, hchildren⟩ := append_cons_inj_of_notMem ha.root hb.root h
    obtain ⟨hbeneath, hxy⟩ := drawnForest_append_inj (fun c hc => ha.child hc)
      (fun c hc => hb.child hc) hx hy hchildren
    refine ⟨fun path => ?_, hxy⟩
    cases path with
    | nil => exact congrArg some (String.toList_injective hcaption)
    | cons i path => rw [caption?_cons, caption?_cons, hbeneath i path]

/-- The same of siblings, with what follows on the last of them. -/
theorem drawnForest_append_inj : ∀ {as bs : List Tree} {guides : String} {x y : List Char},
    (∀ a ∈ as, a.HasOneLineNames) → (∀ b ∈ bs, b.HasOneLineNames) →
    ¬guides.toList <+: x → ¬guides.toList <+: y →
    (drawnForest guides as).toList ++ x = (drawnForest guides bs).toList ++ y →
      (∀ (i : Nat) path, (as[i]?).bind (caption? · path) = (bs[i]?).bind (caption? · path))
        ∧ x = y
  | [], [], _, _, _, _, _, _, _, h => ⟨fun _ _ => rfl, h⟩
  | [], b :: bs, guides, x, y, _, _, hx, _, h => by
    -- The line of `b` would start with the guides, and what follows on no line does not.
    rw [toList_drawnForest_cons, toList_drawn] at h
    simp only [drawnForest, String.toList_empty, List.nil_append, List.append_assoc] at h
    exact absurd (h ▸ List.prefix_append ..) hx
  | a :: as, [], guides, x, y, _, _, _, hy, h => by
    rw [toList_drawnForest_cons, toList_drawn] at h
    simp only [drawnForest, String.toList_empty, List.nil_append, List.append_assoc] at h
    exact absurd (h ▸ List.prefix_append ..) hy
  | a :: as, b :: bs, guides, x, y, has, hbs, hx, hy, h => by
    obtain ⟨ha, has⟩ := List.forall_mem_cons.mp has
    obtain ⟨hb, hbs⟩ := List.forall_mem_cons.mp hbs
    rw [toList_drawnForest_cons, toList_drawnForest_cons, List.append_assoc,
      List.append_assoc] at h
    -- The branches tell on both sides whether siblings follow.
    have hlast : as.isEmpty = bs.isEmpty := by
      have hbranches := h
      simp only [toList_drawn, List.append_assoc, List.append_cancel_left_eq] at hbranches
      exact (branch_append_inj hbranches).1
    rw [hlast] at h
    obtain ⟨hfirst, hrest⟩ := drawn_append_inj ha hb (not_prefix_drawnForest hx _ _)
      (not_prefix_drawnForest hy _ _) h
    obtain ⟨hothers, hxy⟩ := drawnForest_append_inj has hbs hx hy hrest
    refine ⟨fun i path => ?_, hxy⟩
    cases i with
    | zero => exact hfirst path
    | succ i => exact hothers i path

end

/-- Trees of one drawing have the same nodes with the same captions. -/
theorem caption?_eq_of_drawing_eq {a b : Tree} (ha : a.HasOneLineNames) (hb : b.HasOneLineNames)
    (h : a.drawing = b.drawing) (path : List Nat) : a.caption? path = b.caption? path := by
  have hend : ¬("" ++ guide true).toList <+: [] := by decide
  have hdrawn : (drawn "" true a).toList ++ [] = (drawn "" true b).toList ++ [] := by
    rw [← drawing, ← drawing, h]
  exact (drawn_append_inj ha hb hend hend hdrawn).1 path

/-- The drawing of a tree has one line for each node in pre-order, with a guide for every node above
it and a branch to it that show which of them are last siblings. If another tree has the same
drawing, the two have the same shape, and their nodes the same captions. -/
theorem drawing_lines {a : Tree} (ha : a.HasOneLineNames) :
    (a.drawing = String.join (a.places.map fun s => a.line s ++ "\n")
        ∧ ∀ s ∈ a.places, '\n' ∉ (a.line s).toList)
      ∧ (a.places.map Step.node = a.preorder
        ∧ (∀ s, s ∈ a.places ↔ a.get? s.path = some s.node)
        ∧ a.places.Pairwise fun r s => r.path < s.path)
      ∧ ∀ b : Tree, b.HasOneLineNames → a.drawing = b.drawing →
          ∀ path, a.caption? path = b.caption? path := by
  refine ⟨⟨drawing_eq_join_line a, fun s hs => ?_⟩,
    ⟨map_node_places a, fun _ => mem_places_iff, pairwise_path_places a⟩,
    fun b hb h => caption?_eq_of_drawing_eq ha hb h⟩
  exact newline_notMem_line a
    (newline_notMem_caption (ha s.path s.node (mem_places_iff.mp hs)))

/-- A tree with an operation whose name looks like the line of a node. -/
def sketchTree (o : Operation) : Tree :=
  (leaf .nonTerminal (.named "root")).withChildren
    [(leaf .nonTerminal (.named "│   ├── group")).withChildren
        [(leaf .terminal o).withValue (.str "a\nb"), leaf .terminal (.named "send")],
      leaf .terminal (.named "")]

/-- The marker and the operation that has its name are drawn alike, and the trees are told from the
drawing up to this. -/
theorem drawing_sketchTree :
    (sketchTree .type).HasOneLineNames ∧ (sketchTree (.named "type")).HasOneLineNames
      ∧ (sketchTree .type).drawing = "└── root [NonTerminal]\n"
          ++ "    ├── │   ├── group [NonTerminal]\n"
          ++ "    │   ├── type [Terminal] = \"a\\nb\"\n"
          ++ "    │   └── send [Terminal]\n"
          ++ "    └──  [Terminal]\n"
      ∧ (sketchTree .type).drawing = (sketchTree (.named "type")).drawing
      ∧ ∀ path, (sketchTree .type).caption? path = (sketchTree (.named "type")).caption? path := by
  have hnames : ∀ o ∈ [Operation.type, .named "type"], (sketchTree o).HasOneLineNames :=
    fun o ho => forall_get?_iff_forall_places.mpr (by revert o; decide +kernel)
  have hmarker := hnames .type (by decide)
  have hnamed := hnames (.named "type") (by decide)
  exact ⟨hmarker, hnamed, by decide +kernel, rfl, (drawing_lines hmarker).2.2 _ hnamed rfl⟩

/-- With a line break in a name one node may be drawn like two. -/
example : (leaf .terminal (.named "root [NonTerminal]\n    └── send")).drawing
    = ((leaf .nonTerminal (.named "root")).withChildren
        [leaf .terminal (.named "send")]).drawing := by
  decide +kernel

end Tree

end StepPlan
