import StepPlan.Proofs.Definition.Inversion
import StepPlan.Proofs.Plan.Enumeration
import StepPlan.Proofs.Tree.OperationNames

/-!
# Loaded trees are canonical

A tree built by hand may have nodes that no text has: payloads `null`, and operations for the
runtime that go by a reserved name. The trees that are loaded from texts have neither
(`Tree.Canonical`). The reader makes a payload `null` none wherever it stands, and the conversion
takes every reserved name for its marker. So no step goes by a reserved name, and a loaded tree is
what its own definition is converted to.

Main statement: `loadTree_canonical`.
-/

namespace StepPlan

open Json (Doc)

/-! ## No payload `null` is read -/

/-- Only `null` is read as the value `null`. -/
theorem Json.Doc.eq_null_of_value_eq_null {n : Nat} {d : Doc} (h : d.value n = .ok .null) :
    d = .null := by
  -- One case a document: no other one is read as null, and an array or object is read as one of
  -- them.
  cases d with
  | null => rfl
  | bool b => cases h
  | num number => cases number <;> cases h
  | str string => cases string <;> cases h
  | arr items ending =>
    cases n with
    | zero => cases h
    | succ n =>
      rw [Doc.value] at h
      obtain ⟨js, -, h⟩ := bind_eq_ok_iff.mp h
      obtain ⟨u, -, h⟩ := bind_eq_ok_iff.mp h
      cases h
  | obj members ending =>
    cases n with
    | zero => cases h
    | succ n =>
      rw [Doc.value] at h
      obtain ⟨js, -, h⟩ := bind_eq_ok_iff.mp h
      obtain ⟨u, -, h⟩ := bind_eq_ok_iff.mp h
      cases h
  | broken piece => cases h

namespace Definition

/-- No node has the payload `null`. -/
def HasNoNull (d : Definition) : Prop :=
  ∀ path n, d.get? path = some n → n.values ≠ some .null

/-- No null stands at the root or in any child. -/
theorem hasNoNull_iff {d : Definition} :
    d.HasNoNull ↔ d.values ≠ some .null ∧ ∀ c ∈ d.childNodes, c.HasNoNull :=
  forall_get?_iff (P := fun _ n => n.values ≠ some .null)

/-- No payload `null` is read, however deep the reader follows the text. -/
theorem hasNoNull_ofText {s : String} {d : Definition} (h : ofText s = .ok d) : d.HasNoNull := by
  obtain ⟨hread, -⟩ := ofText_eq_ok_iff.mp h
  intro path c hc hnull
  obtain ⟨n, x, -, -, hpayload⟩ := exists_doc_of_values Doc.inherited_true trivial hread hc hnull
  obtain ⟨hx, hvalue⟩ := payload_eq_some_iff.mp hpayload
  exact hx (Doc.eq_null_of_value_eq_null hvalue)

end Definition

namespace Tree

/-! ## Trees as definitions -/

/-- Trees are written one by one. -/
theorem toDefinitions_eq_map (ts : List Tree) : toDefinitions ts = ts.map toDefinition := by
  induction ts with
  | nil => rfl
  | cons t ts ih => rw [toDefinitions, ih, List.map_cons]

/-- What a tree is written as has the written nodes at the paths of the nodes. -/
theorem get?_toDefinition (path : List Nat) :
    ∀ t : Tree, t.toDefinition.get? path = (t.get? path).map toDefinition := by
  induction path with
  | nil => intro t; rfl
  | cons i path ih =>
    rintro ⟨kind, operation, value, children⟩
    rw [toDefinition, Definition.get?_cons, get?_cons, toDefinitions_eq_map, List.getElem?_map]
    cases children[i]? with
    | none => rfl
    | some c => exact ih c

/-- A tree is written with the names of kinds only. -/
theorem unknowns_toDefinition (t : Tree) : t.toDefinition.unknowns = [] := by
  rw [Definition.unknowns_eq_nil_iff]
  intro path n hn
  rw [get?_toDefinition] at hn
  obtain ⟨⟨kind, operation, value, children⟩, -, rfl⟩ := Option.map_eq_some_iff.mp hn
  exact Definition.namesKind_iff.mpr ⟨kind, NodeKind.ofName?_name kind⟩

/-- Every operation of the tree is read back from its name. -/
def KeepsOperations (t : Tree) : Prop :=
  ∀ path n, t.get? path = some n → Operation.ofName n.operation.name = n.operation

/-- Operations are kept at the root and in every child. -/
theorem keepsOperations_iff {t : Tree} :
    t.KeepsOperations ↔ Operation.ofName t.operation.name = t.operation
      ∧ ∀ c ∈ t.children, c.KeepsOperations := by
  constructor
  · intro h
    refine ⟨h [] t rfl, fun c hc path n hn => ?_⟩
    obtain ⟨i, hi⟩ := List.mem_iff_getElem?.mp hc
    refine h (i :: path) n ?_
    rw [get?_cons, hi]
    exact hn
  · rintro ⟨hroot, hbeneath⟩ path n hn
    cases path with
    | nil =>
      obtain rfl := Option.some.inj hn
      exact hroot
    | cons i path =>
      obtain ⟨c, hc, hn⟩ := Option.bind_eq_some_iff.mp hn
      exact hbeneath c (List.mem_of_getElem? hc) path n hn

mutual

/-- A tree is what its definition is converted to exactly when its operations are read back from
their names. -/
theorem converted_toDefinition_iff : ∀ {t : Tree},
    t.toDefinition.converted = t ↔ t.KeepsOperations
  | ⟨kind, operation, value, children⟩ => by
    rw [toDefinition, Definition.converted, NodeKind.ofName?_name, keepsOperations_iff, mk.injEq,
      convertedAll_toDefinitions_iff]
    simp only [Option.getD_some, true_and]

/-- Trees are converted back to themselves if each of them is. -/
theorem convertedAll_toDefinitions_iff : ∀ {ts : List Tree},
    Definition.convertedAll (toDefinitions ts) = ts ↔ ∀ t ∈ ts, t.KeepsOperations
  | [] => iff_of_true rfl nofun
  | t :: ts => by
    rw [toDefinitions, Definition.convertedAll, List.cons.injEq, converted_toDefinition_iff,
      convertedAll_toDefinitions_iff, List.forall_mem_cons]

end

/-- A tree is converted back from its definition, just as it was, exactly when none of its
operations for the runtime goes by a reserved name. -/
theorem toTree_toDefinition_iff {t : Tree} :
    t.toDefinition.toTree = .ok t ↔ ∀ path n, t.get? path = some n →
      ∀ name, n.operation = .named name → ¬Operation.IsReservedName name := by
  rw [Definition.toTree_eq_ok_iff, and_iff_right t.unknowns_toDefinition,
    converted_toDefinition_iff]
  simp only [KeepsOperations, Operation.ofName_name_iff]

/-- A tree as it is loaded: no node has the value `null`, and no operation for the runtime goes by a
reserved name. -/
structure Canonical (t : Tree) : Prop where
  value : ∀ path n, t.get? path = some n → n.value ≠ some .null
  operation : ∀ path n, t.get? path = some n →
    ∀ name, n.operation = .named name → ¬Operation.IsReservedName name

/-- No step of a canonical tree goes by a reserved name. -/
theorem Canonical.not_isReservedName_of_mem_steps {t : Tree} (h : t.Canonical) {s : Step}
    (hs : s ∈ t.compile.steps) : ¬Operation.IsReservedName s.node.operation.name := by
  obtain ⟨hget, hleads⟩ := mem_steps_compile_iff.mp hs
  obtain ⟨u, hu, hscheduled⟩ := hleads.scheduled s.path.length hleads.two_le_length (Nat.le_refl _)
  rw [List.take_length, hget] at hu
  obtain rfl := Option.some.inj hu
  have hmarker := ((disposition_eq_schedule_iff _).mp hscheduled).1
  cases hop : s.node.operation with
  | named name => exact h.operation s.path s.node hget name hop
  | _ => rw [hop] at hmarker; cases hmarker

end Tree

/-- What is read is converted to a canonical tree. -/
theorem Definition.HasNoNull.canonical_converted {d : Definition} (h : d.HasNoNull) :
    d.converted.Canonical := by
  refine ⟨fun path n hn => ?_, fun path n hn name hname => ?_⟩
  · rw [get?_converted] at hn
    obtain ⟨m, hm, rfl⟩ := Option.map_eq_some_iff.mp hn
    rw [converted_eq]
    exact h path m hm
  · rw [get?_converted] at hn
    obtain ⟨m, hm, rfl⟩ := Option.map_eq_some_iff.mp hn
    rw [converted_eq] at hname
    obtain ⟨rfl, hnot⟩ := Operation.ofName_eq_named_iff.mp hname
    exact hnot

/-- A tree that is loaded from a text is canonical, none of its steps goes by a reserved name in
letters of any case, and its own definition is converted to just this tree. -/
theorem loadTree_canonical {s : String} {t : Tree} (h : loadTree s = .ok t) :
    t.Canonical
      ∧ (∀ step ∈ t.compile.steps, ¬Operation.IsReservedName step.node.operation.name)
      ∧ t.toDefinition.toTree = .ok t := by
  have hcanonical : t.Canonical := by
    rw [loadTree] at h
    cases hread : Definition.ofText s with
    | error e => rw [hread] at h; cases h
    | ok d =>
      simp only [hread] at h
      cases hconvert : d.toTree with
      | error e => rw [hconvert] at h; cases h
      | ok u =>
        rw [hconvert] at h
        obtain rfl := Except.ok.inj h
        obtain ⟨-, rfl⟩ := Definition.toTree_eq_ok_iff.mp hconvert
        exact (Definition.hasNoNull_ofText hread).canonical_converted
  exact ⟨hcanonical, fun step hstep => hcanonical.not_isReservedName_of_mem_steps hstep,
    Tree.toTree_toDefinition_iff.mpr hcanonical.operation⟩

/-- A text of nodes written as arrays, with payloads `null` and a marker in capitals. -/
def capitalText : String :=
  "[\"NONTERMINAL\",\"root\",null,[[\"Terminal\",\"info\"],[\"NonTerminal\",\"run\",null,"
    ++ "[[\"Terminal\",\"TYPE\"],[\"Terminal\",\"Send\",null]]]]]"

/-- A text with capitals in its reserved names loads as a canonical tree. -/
theorem loadTree_capitalText :
    ∃ t, loadTree capitalText = .ok t ∧ t.compile.steps.map (·.node.operation) = [.named "Send"]
      ∧ t.Canonical
      ∧ (∀ step ∈ t.compile.steps, ¬Operation.IsReservedName step.node.operation.name)
      ∧ t.toDefinition.toTree = .ok t := by
  have hsteps : (loadTree capitalText).toOption.map
      (fun t => t.compile.steps.map (·.node.operation)) = some [.named "Send"] := by
    decide +kernel
  cases hload : loadTree capitalText with
  | error e => rw [hload] at hsteps; cases hsteps
  | ok t =>
    rw [hload] at hsteps
    exact ⟨t, rfl, Option.some.inj hsteps, loadTree_canonical hload⟩

end StepPlan
