import StepPlan.Definition.Load

/-!
# What a definition is converted to

The conversion carries a path along and stops at the first node whose type names no kind. Here that
node is told from the definition alone: `Definition.unknowns` are all such nodes, in increasing
order of path, and the conversion fails with the first of them. When there are none, the result is
the definition converted node by node (`Definition.converted`).

Main statement: `Definition.toTree_and_loadTree`.
-/

namespace StepPlan

/-! ## Names of kinds -/

/-- There are no other kinds. -/
theorem NodeKind.mem_all (k : NodeKind) : k ∈ all := by
  cases k <;> decide

/-- No two kinds have the same letters. -/
theorem NodeKind.eq_of_sameLetters {k l : NodeKind}
    (h : Text.sameLetters k.name l.name = true) : k = l := by
  have hk := ofName?_name k
  have hfind : ofName? l.name = ofName? k.name := by
    unfold ofName?
    congr 1
    funext m
    rw [Bool.eq_iff_iff]
    exact ⟨fun hm => Text.sameLetters_trans hm (Text.sameLetters_symm h),
      fun hm => Text.sameLetters_trans hm h⟩
  rw [ofName?_name l, hk] at hfind
  exact (Option.some.inj hfind).symm

/-- A name is that of a kind exactly when it has the letters of the kind's name. -/
theorem NodeKind.ofName?_eq_some_iff {s : String} {k : NodeKind} :
    ofName? s = some k ↔ Text.sameLetters k.name s = true := by
  have hfound : ∀ l, ofName? s = some l → Text.sameLetters l.name s = true := fun l hl =>
    List.find?_some (p := fun m : NodeKind => Text.sameLetters m.name s) hl
  constructor
  · exact hfound k
  · intro h
    have hsome : (ofName? s).isSome := List.find?_isSome.mpr ⟨k, mem_all k, h⟩
    obtain ⟨l, hl⟩ := Option.isSome_iff_exists.mp hsome
    rw [hl, eq_of_sameLetters (Text.sameLetters_trans (hfound l hl) (Text.sameLetters_symm h))]

/-- The node of unknown kind as seen from above. -/
def UnknownKind.under (path : List Nat) (e : UnknownKind) : UnknownKind :=
  ⟨path ++ e.path, e.name⟩

/-- A path that starts with another is put behind it again. -/
theorem UnknownKind.under_eq {path rest : List Nat} {e : UnknownKind} (h : e.path = path ++ rest) :
    (⟨rest, e.name⟩ : UnknownKind).under path = e := by
  obtain ⟨whole, name⟩ := e
  obtain rfl : whole = path ++ rest := h
  rfl

namespace Definition

/-- The name is that of a kind, in letters of any case. -/
def NamesKind (name : String) : Prop :=
  ∃ k : NodeKind, Text.sameLetters k.name name = true

/-- A name names a kind when one is found for it. -/
theorem namesKind_iff {name : String} : NamesKind name ↔ ∃ k, NodeKind.ofName? name = some k := by
  simp only [NamesKind, NodeKind.ofName?_eq_some_iff]

/-- A name names no kind when none is found for it. -/
theorem not_namesKind_iff {name : String} : ¬NamesKind name ↔ NodeKind.ofName? name = none := by
  rw [namesKind_iff, ← Option.isSome_iff_exists, Bool.not_eq_true, Option.isSome_eq_false_iff,
    Option.isNone_iff_eq_none]

/-! ## Nodes by path -/

/-- The node at a path. -/
def get? (d : Definition) : List Nat → Option Definition
  | [] => some d
  | i :: path => (d.childNodes[i]?).bind (get? · path)

@[simp] theorem get?_nil (d : Definition) : d.get? [] = some d := rfl

@[simp] theorem get?_cons (d : Definition) (i : Nat) (path : List Nat) :
    d.get? (i :: path) = (d.childNodes[i]?).bind (get? · path) := rfl

/-- What holds of all nodes by their depths holds of the root and, one level deeper, beneath it. -/
theorem forall_get?_iff {d : Definition} {P : Nat → Definition → Prop} :
    (∀ path n, d.get? path = some n → P path.length n)
      ↔ P 0 d ∧ ∀ c ∈ d.childNodes, ∀ path n, c.get? path = some n → P (path.length + 1) n := by
  constructor
  · intro h
    refine ⟨h [] d rfl, fun c hc path n hn => ?_⟩
    obtain ⟨i, hi⟩ := List.mem_iff_getElem?.mp hc
    refine h (i :: path) n ?_
    rw [get?_cons, hi]
    exact hn
  · rintro ⟨hroot, hbeneath⟩ path n hn
    cases path with
    | nil =>
      obtain rfl := Option.some.inj hn
      exact hroot
    | cons i path =>
      obtain ⟨c, hc, hn⟩ := Option.bind_eq_some_iff.mp hn
      exact hbeneath c (List.mem_of_getElem? hc) path n hn

/-- What holds of a node if it holds of its children holds of every node. -/
theorem induction {P : Definition → Prop} (node : ∀ d, (∀ c ∈ d.childNodes, P c) → P d) :
    ∀ d : Definition, P d
  | ⟨_, _, _, childNodes⟩ => node _ fun c _ => induction node c
termination_by d => sizeOf d
decreasing_by
  have hsize := List.sizeOf_lt_of_mem ‹c ∈ childNodes›
  rw [mk.sizeOf_spec]
  omega

/-! ## Nodes of unknown kind -/

mutual

/-- The nodes whose types name no kind, in pre-order, with their paths from the root. -/
def unknowns : Definition → List UnknownKind
  | ⟨nodeType, _, _, childNodes⟩ =>
    match NodeKind.ofName? nodeType with
    | none => ⟨[], nodeType⟩ :: childUnknowns 0 childNodes
    | some _ => childUnknowns 0 childNodes

/-- The same among siblings, with their paths from the parent. The first sibling stands at `i`. -/
def childUnknowns (i : Nat) : List Definition → List UnknownKind
  | [] => []
  | d :: ds => d.unknowns.map (UnknownKind.under [i]) ++ childUnknowns (i + 1) ds

end

/-- A node of unknown kind comes before those beneath it. -/
theorem unknowns_of_none {d : Definition} (h : NodeKind.ofName? d.nodeType = none) :
    d.unknowns = ⟨[], d.nodeType⟩ :: childUnknowns 0 d.childNodes := by
  obtain ⟨nodeType, operationType, values, childNodes⟩ := d
  rw [unknowns, h]

/-- A node of known kind adds nothing to those beneath it. -/
theorem unknowns_of_some {d : Definition} {kind : NodeKind}
    (h : NodeKind.ofName? d.nodeType = some kind) :
    d.unknowns = childUnknowns 0 d.childNodes := by
  obtain ⟨nodeType, operationType, values, childNodes⟩ := d
  rw [unknowns, h]

/-- Beneath a node stand those of each child, its position in front of their paths. -/
theorem mem_childUnknowns_iff {ds : List Definition} {i : Nat} {e : UnknownKind} :
    e ∈ childUnknowns i ds
      ↔ ∃ j path d, e.path = (i + j) :: path ∧ ds[j]? = some d ∧ ⟨path, e.name⟩ ∈ d.unknowns := by
  induction ds generalizing i with
  | nil => simp [childUnknowns]
  | cons d ds ih =>
    rw [childUnknowns, List.mem_append, List.mem_map, ih]
    constructor
    · rintro (⟨e, he, rfl⟩ | ⟨j, path, c, hpath, hc, he⟩)
      · exact ⟨0, e.path, d, rfl, rfl, he⟩
      · exact ⟨j + 1, path, c, by rw [hpath]; congr 1; omega, hc, he⟩
    · rintro ⟨_ | j, path, c, hpath, hc, he⟩
      · obtain rfl : d = c := Option.some.inj hc
        exact .inl ⟨⟨path, e.name⟩, he, UnknownKind.under_eq hpath⟩
      · exact .inr ⟨j, path, c, by rw [hpath]; congr 1; omega, hc, he⟩

/-- These are all nodes whose types name no kind. -/
theorem mem_unknowns_iff (path : List Nat) {name : String} :
    ∀ {d : Definition}, ⟨path, name⟩ ∈ d.unknowns
      ↔ ∃ n, d.get? path = some n ∧ n.nodeType = name ∧ ¬NamesKind name := by
  -- By induction on the path: the root tells of itself, and a longer path of the child it leads
  -- into.
  induction path with
  | nil =>
    intro d
    have hbeneath : ⟨[], name⟩ ∉ childUnknowns 0 d.childNodes := by
      rw [mem_childUnknowns_iff]
      simp
    cases hk : NodeKind.ofName? d.nodeType with
    | none =>
      rw [unknowns_of_none hk, List.mem_cons]
      simp only [hbeneath, or_false, UnknownKind.mk.injEq, true_and, get?_nil, Option.some.injEq]
      constructor
      · rintro rfl
        exact ⟨d, rfl, rfl, not_namesKind_iff.mpr hk⟩
      · rintro ⟨n, rfl, rfl, -⟩
        rfl
    | some kind =>
      rw [unknowns_of_some hk]
      simp only [hbeneath, false_iff, get?_nil, Option.some.injEq]
      rintro ⟨n, rfl, rfl, hname⟩
      exact hname (namesKind_iff.mpr ⟨kind, hk⟩)
  | cons i path ih =>
    intro d
    have hroot : ⟨i :: path, name⟩ ∈ d.unknowns
        ↔ ⟨i :: path, name⟩ ∈ childUnknowns 0 d.childNodes := by
      cases hk : NodeKind.ofName? d.nodeType with
      | none => rw [unknowns_of_none hk]; simp
      | some kind => rw [unknowns_of_some hk]
    rw [hroot, mem_childUnknowns_iff, get?_cons]
    constructor
    · rintro ⟨j, rest, c, hpath, hc, he⟩
      obtain ⟨rfl, rfl⟩ : i = 0 + j ∧ path = rest := by simpa using hpath
      rw [Nat.zero_add, hc]
      exact ih.mp he
    · rintro ⟨n, hget, hname⟩
      obtain ⟨c, hc, hget⟩ := Option.bind_eq_some_iff.mp hget
      exact ⟨i, path, c, by simp, hc, ih.mpr ⟨n, hget, hname⟩⟩

/-- What lies in one child comes before what lies in the later ones. -/
theorem path_lt_of_childUnknowns {d : Definition} {ds : List Definition} {i : Nat}
    {a b : UnknownKind} (ha : a ∈ d.unknowns.map (UnknownKind.under [i]))
    (hb : b ∈ childUnknowns (i + 1) ds) : a.path < b.path := by
  obtain ⟨e, -, rfl⟩ := List.mem_map.mp ha
  obtain ⟨j, path, c, hpath, -, -⟩ := mem_childUnknowns_iff.mp hb
  rw [hpath]
  exact List.cons_lt_cons_iff.mpr (.inl (by omega))

mutual

/-- They stand in increasing order of path, a parent before what is beneath it. -/
theorem pairwise_path_unknowns : ∀ d : Definition,
    d.unknowns.Pairwise fun a b => a.path < b.path
  | ⟨nodeType, operationType, values, childNodes⟩ => by
    have hbeneath := pairwise_path_childUnknowns childNodes 0
    rw [unknowns]
    split
    next =>
      refine List.pairwise_cons.mpr ⟨?_, hbeneath⟩
      intro e he
      obtain ⟨j, path, c, hpath, -, -⟩ := mem_childUnknowns_iff.mp he
      rw [hpath]
      exact List.nil_lt_cons _ _
    next => exact hbeneath

/-- Those of children stand in increasing order of path, one child after another. -/
theorem pairwise_path_childUnknowns : ∀ (ds : List Definition) (i : Nat),
    (childUnknowns i ds).Pairwise fun a b => a.path < b.path
  | [], _ => .nil
  | d :: ds, i => by
    rw [childUnknowns]
    refine List.pairwise_append.mpr ⟨?_, pairwise_path_childUnknowns ds (i + 1),
      fun a ha b hb => path_lt_of_childUnknowns ha hb⟩
    rw [List.pairwise_map]
    refine (pairwise_path_unknowns d).imp ?_
    intro a b hab
    exact List.cons_lt_cons_iff.mpr (.inr ⟨rfl, hab⟩)

end

/-! ## The result of the conversion -/

mutual

/-- The definition converted node by node. A type that names no kind does not matter here. -/
def converted : Definition → Tree
  | ⟨nodeType, operationType, values, childNodes⟩ =>
    ⟨(NodeKind.ofName? nodeType).getD default, .ofName operationType, values,
      convertedAll childNodes⟩

/-- Definitions converted node by node. -/
def convertedAll : List Definition → List Tree
  | [] => []
  | d :: ds => d.converted :: convertedAll ds

end

/-- Definitions are converted one by one. -/
theorem convertedAll_eq_map (ds : List Definition) : convertedAll ds = ds.map converted := by
  induction ds with
  | nil => rfl
  | cons d ds ih => rw [convertedAll, ih, List.map_cons]

/-- A node is converted by itself and its children by themselves. -/
theorem converted_eq (d : Definition) :
    d.converted = ⟨(NodeKind.ofName? d.nodeType).getD default, .ofName d.operationType, d.values,
      d.childNodes.map converted⟩ := by
  obtain ⟨nodeType, operationType, values, childNodes⟩ := d
  rw [converted, convertedAll_eq_map]

/-- What a definition is converted to has the converted nodes at the same paths. -/
theorem get?_converted (path : List Nat) :
    ∀ d : Definition, d.converted.get? path = (d.get? path).map converted := by
  induction path with
  | nil => intro d; rfl
  | cons i path ih =>
    intro d
    rw [Tree.get?_cons, get?_cons, converted_eq, List.getElem?_map]
    cases d.childNodes[i]? with
    | none => rfl
    | some c => exact ih c

mutual

/-- The conversion of a node fails with the first node of unknown kind, its path put behind that of
the node, and else gives the definition converted node by node. -/
theorem treeAt_eq : ∀ (d : Definition) (path : List Nat),
    treeAt path d = match d.unknowns.head? with
      | some e => .error (e.under path.reverse)
      | none => .ok d.converted
  | ⟨nodeType, operationType, values, childNodes⟩, path => by
    have hbeneath := treesAt_eq childNodes path 0
    cases hk : NodeKind.ofName? nodeType with
    | none =>
      rw [unknowns_of_none (d := ⟨nodeType, operationType, values, childNodes⟩) hk, treeAt, hk]
      simp [UnknownKind.under]
    | some kind =>
      rw [unknowns_of_some (d := ⟨nodeType, operationType, values, childNodes⟩) hk, treeAt, hk,
        converted, hk]
      simp only [hbeneath]
      cases (childUnknowns 0 childNodes).head? with
      | some e => rfl
      | none => rfl

/-- The conversion of children fails with the first node of unknown kind in any of them. -/
theorem treesAt_eq : ∀ (ds : List Definition) (path : List Nat) (i : Nat),
    treesAt path i ds = match (childUnknowns i ds).head? with
      | some e => .error (e.under path.reverse)
      | none => .ok (convertedAll ds)
  | [], _, _ => rfl
  | d :: ds, path, i => by
    rw [treesAt, treeAt_eq d, treesAt_eq ds, childUnknowns, convertedAll, List.head?_append,
      List.head?_map]
    cases d.unknowns.head? with
    | some e =>
      simp [UnknownKind.under, bind, Except.bind]
    | none =>
      cases (childUnknowns (i + 1) ds).head? with
      | some e => rfl
      | none => rfl

end

/-- A definition is converted node by node unless a node is of unknown kind; then the first one is
told. -/
theorem toTree_eq (d : Definition) :
    d.toTree = match d.unknowns.head? with
      | some e => .error e
      | none => .ok d.converted := by
  rw [toTree, treeAt_eq]
  cases d.unknowns.head? with
  | some e => rfl
  | none => rfl

/-- The conversion fails with the least path of a node whose type names no kind. -/
theorem toTree_eq_error_iff {d : Definition} {e : UnknownKind} :
    d.toTree = .error e
      ↔ e ∈ d.unknowns ∧ ∀ other ∈ d.unknowns, ¬other.path < e.path := by
  have horder := pairwise_path_unknowns d
  rw [toTree_eq]
  cases hu : d.unknowns with
  | nil => simp
  | cons first rest =>
    rw [hu, List.pairwise_cons] at horder
    simp only [List.head?_cons, Except.error.injEq]
    constructor
    · rintro rfl
      refine ⟨List.mem_cons_self, fun other hother => ?_⟩
      rcases List.mem_cons.mp hother with rfl | hrest
      · exact List.lt_irrefl _
      · exact List.lt_asymm (horder.1 other hrest)
    · rintro ⟨he, hleast⟩
      rcases List.mem_cons.mp he with rfl | hrest
      · rfl
      · exact absurd (horder.1 e hrest) (hleast first List.mem_cons_self)

/-- The conversion succeeds when no node is of unknown kind. -/
theorem toTree_eq_ok_iff {d : Definition} {t : Tree} :
    d.toTree = .ok t ↔ d.unknowns = [] ∧ d.converted = t := by
  rw [toTree_eq]
  cases hu : d.unknowns with
  | nil => simp
  | cons first rest => simp

/-- A node of a tree is what a node of a definition says. -/
structure Says (n : Definition) (t : Tree) : Prop where
  kind : Text.sameLetters t.kind.name n.nodeType = true
  operation : t.operation = .ofName n.operationType
  value : t.value = n.values

/-- A node of known kind is converted to one that says the same. -/
theorem says_converted {n : Definition} (h : NamesKind n.nodeType) : n.Says n.converted := by
  obtain ⟨kind, hkind⟩ := namesKind_iff.mp h
  rw [converted_eq, hkind]
  exact ⟨NodeKind.ofName?_eq_some_iff.mp hkind, rfl, rfl⟩

/-- No node is of unknown kind when every type names a kind. -/
theorem unknowns_eq_nil_iff {d : Definition} :
    d.unknowns = [] ↔ ∀ path n, d.get? path = some n → NamesKind n.nodeType := by
  rw [List.eq_nil_iff_forall_not_mem]
  constructor
  · intro h path n hn
    by_cases hname : NamesKind n.nodeType
    · exact hname
    · exact absurd ((mem_unknowns_iff path).mpr ⟨n, hn, rfl, hname⟩) (h ⟨path, n.nodeType⟩)
  · rintro h ⟨path, name⟩ he
    obtain ⟨n, hn, rfl, hname⟩ := (mem_unknowns_iff path).mp he
    exact hname (h path n hn)

/-- A tree is loaded by reading a definition and converting it. -/
theorem loadTree_eq_ok_iff {s : String} {t : Tree} :
    loadTree s = .ok t ↔ ∃ d, ofText s = .ok d ∧ d.unknowns = [] ∧ d.converted = t := by
  simp only [← toTree_eq_ok_iff]
  cases hd : ofText s with
  | error e => simp [loadTree, hd]
  | ok d =>
    cases ht : d.toTree with
    | error e => simp [loadTree, hd, ht]
    | ok u => simp [loadTree, hd, ht]

/-- A definition has a tree exactly when every node type names a kind; then at every path of the one
stands a node of the other, and the two say the same. Otherwise the error is the node of the least
path whose type names no kind, with that type as it is written. A text that is read as a definition
loads as that definition is converted, and a text that is not is unreadable. -/
theorem toTree_and_loadTree :
    (∀ d : Definition,
      ((∃ t, d.toTree = .ok t) ↔ ∀ path n, d.get? path = some n → NamesKind n.nodeType)
        ∧ (∀ t, d.toTree = .ok t → ∀ path, Option.Rel Says (d.get? path) (t.get? path))
        ∧ ∀ e, d.toTree = .error e
          ↔ (∃ n, d.get? e.path = some n ∧ n.nodeType = e.name) ∧ ¬NamesKind e.name
            ∧ ∀ path n, d.get? path = some n → ¬NamesKind n.nodeType → ¬path < e.path)
      ∧ ∀ s : String,
        (∀ d, ofText s = .ok d →
          (∀ t, loadTree s = .ok t ↔ d.toTree = .ok t)
            ∧ ∀ e, loadTree s = .error (.unknownKind e) ↔ d.toTree = .error e)
          ∧ ∀ e, ofText s = .error e → loadTree s = .error (.unreadable e) := by
  refine ⟨fun d => ⟨?_, ?_, ?_⟩, fun s => ⟨?_, ?_⟩⟩
  -- In the order of the statement: when the conversion succeeds, what it gives, what it fails with,
  -- and the same for texts that are definitions and texts that are none.
  · rw [← unknowns_eq_nil_iff]
    simp only [toTree_eq_ok_iff, exists_and_left, exists_eq', and_true]
  · intro t ht path
    obtain ⟨hknown, rfl⟩ := toTree_eq_ok_iff.mp ht
    rw [get?_converted]
    cases hn : d.get? path with
    | none => exact .none
    | some n => exact .some (says_converted (unknowns_eq_nil_iff.mp hknown path n hn))
  · intro e
    rw [toTree_eq_error_iff]
    constructor
    · rintro ⟨he, hleast⟩
      obtain ⟨n, hn, hname, hunknown⟩ := (mem_unknowns_iff e.path).mp he
      refine ⟨⟨n, hn, hname⟩, hunknown, fun path m hm hm' => ?_⟩
      exact hleast ⟨path, m.nodeType⟩ ((mem_unknowns_iff path).mpr ⟨m, hm, rfl, hm'⟩)
    · rintro ⟨⟨n, hn, hname⟩, hunknown, hleast⟩
      refine ⟨(mem_unknowns_iff e.path).mpr ⟨n, hn, hname, hunknown⟩, fun other hother => ?_⟩
      obtain ⟨m, hm, hmname, hmunknown⟩ := (mem_unknowns_iff other.path).mp hother
      exact hleast other.path m hm (hmname ▸ hmunknown)
  · intro d hd
    cases ht : d.toTree with
    | error e => simp [loadTree, hd, ht]
    | ok t => simp [loadTree, hd, ht]
  · intro e he
    simp only [loadTree, he]

end Definition

end StepPlan
