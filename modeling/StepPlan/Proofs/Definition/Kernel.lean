import StepPlan.Proofs.Definition.Conversion
import StepPlan.Proofs.Tree.OperationNames

/-!
# Which definitions have the same tree

Trees are equal when they have a node at the same paths and the nodes there agree
(`Tree.same_iff_forall_get?`). So two definitions that are converted to equal trees agree node by
node as well, up to the names that mean the same (`Definition.Agrees`): node types may differ in the
case of their letters, and operation types only if they are spellings of one reserved word.

Main statement: `Definition.same_toTree_iff`.
-/

namespace StepPlan

namespace Tree

/-! ## Equality node by node -/

/-- Two nodes agree, apart from what stands beneath them. -/
structure Agrees (a b : Tree) : Prop where
  kind : a.kind = b.kind
  operation : a.operation = b.operation
  value : sameValue a.value b.value = true

/-- Trees are equal when their roots agree and their children are equal. -/
theorem same_iff {a b : Tree} :
    a.same b = true ↔ a.Agrees b ∧ sameForest a.children b.children = true := by
  obtain ⟨kind, operation, value, children⟩ := a
  obtain ⟨kind', operation', value', children'⟩ := b
  simp only [same, Bool.and_eq_true, beq_iff_eq]
  constructor
  · rintro ⟨⟨⟨hkind, hoperation⟩, hvalue⟩, hchildren⟩
    exact ⟨⟨hkind, hoperation, hvalue⟩, hchildren⟩
  · rintro ⟨⟨hkind, hoperation, hvalue⟩, hchildren⟩
    exact ⟨⟨⟨hkind, hoperation⟩, hvalue⟩, hchildren⟩

mutual

/-- Trees are equal exactly when at every path both have a node and the nodes agree, or neither has.
-/
theorem same_iff_forall_get? : ∀ {a b : Tree},
    a.same b = true ↔ ∀ path, Option.Rel Agrees (a.get? path) (b.get? path)
  | ⟨kind, operation, value, children⟩, b => by
    rw [same_iff, sameForest_iff_forall_get?]
    constructor
    · rintro ⟨hroot, hbeneath⟩ path
      cases path with
      | nil => exact .some hroot
      | cons i path => exact hbeneath i path
    · intro h
      refine ⟨?_, fun i path => h (i :: path)⟩
      cases h [] with
      | some hroot => exact hroot

/-- Lists of trees are equal when the nodes at all paths agree. -/
theorem sameForest_iff_forall_get? : ∀ {as bs : List Tree},
    sameForest as bs = true ↔ ∀ (i : Nat) (path : List Nat),
      Option.Rel Agrees ((as[i]?).bind (get? · path)) ((bs[i]?).bind (get? · path))
  | [], [] => iff_of_true rfl fun i path => .none
  | [], b :: bs => by
    refine iff_of_false Bool.false_ne_true fun h => ?_
    cases h 0 []
  | a :: as, [] => by
    refine iff_of_false Bool.false_ne_true fun h => ?_
    cases h 0 []
  | a :: as, b :: bs => by
    rw [sameForest, Bool.and_eq_true, same_iff_forall_get?, sameForest_iff_forall_get?]
    constructor
    · rintro ⟨hfirst, hrest⟩ i path
      cases i with
      | zero => exact hfirst path
      | succ i => exact hrest i path
    · intro h
      exact ⟨h 0, fun i => h (i + 1)⟩

end

end Tree

namespace Definition

/-! ## Names that mean the same -/

/-- Two nodes of definitions say the same: their types are names of one kind, their operations the
same name or spellings of one reserved word, and their payloads are equal. -/
structure Agrees (m n : Definition) : Prop where
  nodeType : Text.sameLetters m.nodeType n.nodeType = true
  operationType : m.operationType = n.operationType ∨ ∃ word ∈ Operation.reservedWords,
    Text.sameLetters m.operationType word = true ∧ Text.sameLetters n.operationType word = true
  values : Tree.sameValue m.values n.values = true

/-- Names of kinds are names of one kind exactly when they have the same letters. -/
theorem ofName?_eq_ofName?_iff {s s' : String} (h : NamesKind s) :
    NodeKind.ofName? s = NodeKind.ofName? s' ↔ Text.sameLetters s s' = true := by
  obtain ⟨k, hk⟩ := h
  rw [NodeKind.ofName?_eq_some_iff.mpr hk, eq_comm, NodeKind.ofName?_eq_some_iff]
  exact ⟨fun hk' => Text.sameLetters_trans (Text.sameLetters_symm hk) hk',
    fun hs => Text.sameLetters_trans hk hs⟩

/-- Two nodes of known kind are converted to nodes that agree exactly when they agree. -/
theorem agrees_converted_iff {m n : Definition} (hm : NamesKind m.nodeType)
    (hn : NamesKind n.nodeType) : m.converted.Agrees n.converted ↔ m.Agrees n := by
  obtain ⟨k, hk⟩ := namesKind_iff.mp hm
  obtain ⟨l, hl⟩ := namesKind_iff.mp hn
  have hkinds : k = l ↔ Text.sameLetters m.nodeType n.nodeType = true := by
    rw [← ofName?_eq_ofName?_iff hm, hk, hl, Option.some.injEq]
  rw [converted_eq, converted_eq, hk, hl]
  constructor
  · rintro ⟨hkind, hoperation, hvalue⟩
    exact ⟨hkinds.mp hkind, Operation.ofName_eq_ofName_iff.mp hoperation, hvalue⟩
  · rintro ⟨htype, hoperation, hvalues⟩
    exact ⟨hkinds.mpr htype, Operation.ofName_eq_ofName_iff.mpr hoperation, hvalues⟩

/-- Two definitions have equal trees exactly when they have nodes at the same paths and the nodes
there agree. -/
theorem same_toTree_iff {a b : Definition} {t u : Tree} (ha : a.toTree = .ok t)
    (hb : b.toTree = .ok u) :
    t.same u = true ↔ ∀ path, Option.Rel Agrees (a.get? path) (b.get? path) := by
  obtain ⟨hknownA, rfl⟩ := toTree_eq_ok_iff.mp ha
  obtain ⟨hknownB, rfl⟩ := toTree_eq_ok_iff.mp hb
  rw [unknowns_eq_nil_iff] at hknownA hknownB
  rw [Tree.same_iff_forall_get?]
  -- The conversion keeps every node at its path, so the paths can be gone through one by one.
  refine forall_congr' fun path => ?_
  rw [get?_converted, get?_converted]
  cases hm : a.get? path with
  | none =>
    cases hn : b.get? path with
    | none => exact iff_of_true .none .none
    | some n => exact iff_of_false nofun nofun
  | some m =>
    cases hn : b.get? path with
    | none => exact iff_of_false nofun nofun
    | some n =>
      rw [Option.map_some, Option.map_some, Option.rel_some_some, Option.rel_some_some]
      exact agrees_converted_iff (hknownA path m hm) (hknownB path n hn)

end Definition

/-- A definition of an operation behind a marker, with these names for its nodes. -/
def namedDefinition (nodeType marker operationType : String) : Definition :=
  ⟨nodeType, "root", some (.num (.int 1)),
    [⟨"Terminal", marker, some .null, []⟩, ⟨"Terminal", operationType, none, []⟩]⟩

/-- Two spellings of a node type and of a marker are forgotten, those of an operation are not. -/
theorem same_toTree_namedDefinition :
    ∃ loud quiet renamed,
      (namedDefinition "nonterminal" "TYPE" "Send").toTree = .ok loud
        ∧ (namedDefinition "NonTerminal" "Type" "Send").toTree = .ok quiet
        ∧ (namedDefinition "NonTerminal" "Type" "send").toTree = .ok renamed
        ∧ (∀ path, Option.Rel Definition.Agrees
          ((namedDefinition "nonterminal" "TYPE" "Send").get? path)
          ((namedDefinition "NonTerminal" "Type" "Send").get? path))
        ∧ ¬∀ path, Option.Rel Definition.Agrees
          ((namedDefinition "NonTerminal" "Type" "Send").get? path)
          ((namedDefinition "NonTerminal" "Type" "send").get? path) := by
  have hloud : (namedDefinition "nonterminal" "TYPE" "Send").toTree = .ok _ :=
    Definition.toTree_eq_ok_iff.mpr ⟨by decide +kernel, rfl⟩
  have hquiet : (namedDefinition "NonTerminal" "Type" "Send").toTree = .ok _ :=
    Definition.toTree_eq_ok_iff.mpr ⟨by decide +kernel, rfl⟩
  have hrenamed : (namedDefinition "NonTerminal" "Type" "send").toTree = .ok _ :=
    Definition.toTree_eq_ok_iff.mpr ⟨by decide +kernel, rfl⟩
  refine ⟨_, _, _, hloud, hquiet, hrenamed, ?_, ?_⟩
  · exact (Definition.same_toTree_iff hloud hquiet).mp (by decide +kernel)
  · rw [← Definition.same_toTree_iff hquiet hrenamed]
    decide +kernel

end StepPlan
