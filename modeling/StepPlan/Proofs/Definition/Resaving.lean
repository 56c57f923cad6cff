import StepPlan.Proofs.Definition.Canonical
import StepPlan.Proofs.Definition.Presentation
import StepPlan.Proofs.Json.NumberRange

/-!
# Saving a definition that has been read

Whatever a definition has been read from, its own text is a text of it: the payloads that are read
are plain, and none is `null`. But the text may be nested deeper than the one that was read, for
there a node without children may leave them out, and its own text gives them as an empty list. This
is one level more for the nodes that stand deepest, and that level counts where the reader's limit
leaves just one: for nodes 63 levels beneath the root. A definition without any is read back from
its own text; one with such a node is not. Main statement: `ofText_text_of_ofText`.
-/

namespace StepPlan

open Json (Doc)

/-- What stands in a document in range is in range. -/
theorem Json.Doc.inherited_inRange : Doc.Inherited Doc.InRange where
  arr := by
    intro items ending h d hd n hn
    exact h n (.arr hd hn)
  obj := by
    intro members ending h m hm n hn
    exact h n (.obj hm hn)

namespace Definition

/-! ## Parts of a definition -/

/-- Definitions are plain when each of them is. -/
theorem arePlain_iff {ds : List Definition} :
    arePlain ds = true ↔ ∀ d ∈ ds, d.isPlain = true := by
  induction ds with
  | nil => simp [arePlain]
  | cons d ds ih => simp [arePlain, ih]

/-- A definition is plain when its value and its children are. -/
theorem isPlain_iff {d : Definition} :
    d.isPlain = true ↔ isPlainPayload d.values = true ∧ ∀ c ∈ d.childNodes, c.isPlain = true := by
  obtain ⟨nodeType, operationType, values, childNodes⟩ := d
  rw [isPlain, Bool.and_eq_true_iff, arePlain_iff]

/-- A definition is plain if the payloads of all its nodes are. -/
theorem isPlain_of_get? (d : Definition)
    (h : ∀ path c, d.get? path = some c → isPlainPayload c.values = true) : d.isPlain = true := by
  induction d using induction with
  | node d ih =>
    obtain ⟨hroot, hbeneath⟩ :=
      (forall_get?_iff (P := fun _ c => isPlainPayload c.values = true)).mp h
    exact isPlain_iff.mpr ⟨hroot, fun c hc => ih c hc (hbeneath c hc)⟩

/-- Nulls are dropped from each definition by itself. -/
theorem withoutNullsAll_eq_map (ds : List Definition) :
    withoutNullsAll ds = ds.map withoutNulls := by
  induction ds with
  | nil => rfl
  | cons d ds ih => rw [withoutNullsAll, ih, List.map_cons]

/-- A value that is not null stays. -/
theorem nonNull_eq_self {values : Option Json} (h : values ≠ some .null) :
    nonNull values = values := by
  cases values with
  | none => rfl
  | some v => exact nonNull_some fun hv => h (congrArg some hv)

/-- Without nulls there is nothing to drop. -/
theorem withoutNulls_eq_self {d : Definition} (h : d.HasNoNull) : d.withoutNulls = d := by
  induction d using induction with
  | node d ih =>
    obtain ⟨nodeType, operationType, values, childNodes⟩ := d
    obtain ⟨hvalues, hchildren⟩ := hasNoNull_iff.mp h
    have hnodes : childNodes.map withoutNulls = childNodes.map id :=
      List.map_congr_left fun c hc => ih c hc (hchildren c hc)
    rw [withoutNulls, withoutNullsAll_eq_map, nonNull_eq_self hvalues, hnodes, List.map_id]

/-- The items of an array are as deep as the deepest of them. -/
theorem itemDepth_toJsons_le_iff {ds : List Definition} {n : Nat} :
    Json.itemDepth (toJsons ds) ≤ n ↔ ∀ d ∈ ds, d.toJson.depth ≤ n := by
  induction ds with
  | nil => simp [toJsons, Json.itemDepth]
  | cons d ds ih => simp only [toJsons, Json.itemDepth, Nat.max_le, ih, List.forall_mem_cons]

/-- A node with `k` brackets around it is nested no deeper than its list of children, its payload
and its children are. -/
theorem depth_toJson_add_le_iff {d : Definition} {k n : Nat} :
    d.toJson.depth + k ≤ n
      ↔ (2 + k ≤ n ∧ payloadDepth d.values + 1 + k ≤ n)
        ∧ ∀ c ∈ d.childNodes, c.toJson.depth + (2 + k) ≤ n := by
  obtain ⟨nodeType, operationType, values, childNodes⟩ := d
  rw [depth_toJson]
  by_cases hroom : 2 + k ≤ n
  · obtain ⟨m, rfl⟩ := Nat.exists_eq_add_of_le' hroom
    have hitems : Json.itemDepth (toJsons childNodes) ≤ m ↔ ∀ c ∈ childNodes, c.toJson.depth ≤ m :=
      itemDepth_toJsons_le_iff
    simp only [Nat.add_le_add_iff_right, ← hitems]
    omega
  · exact iff_of_false (by omega) fun h => hroom h.1.1

/-- A definition is written with two brackets for every node on the way to one, and there with two
for the node and its list of children, or with one and those of its payload. -/
theorem depth_toJson_add_le_iff_get? (d : Definition) {k n : Nat} :
    d.toJson.depth + k ≤ n
      ↔ ∀ path c, d.get? path = some c →
          2 * path.length + 2 + k ≤ n ∧ 2 * path.length + payloadDepth c.values + 1 + k ≤ n := by
  induction d using induction generalizing k with
  | node d ih =>
    rw [depth_toJson_add_le_iff, forall_get?_iff
      (P := fun l c => 2 * l + 2 + k ≤ n ∧ 2 * l + payloadDepth c.values + 1 + k ≤ n)]
    refine and_congr (by omega) (forall₂_congr fun c hc => ?_)
    rw [ih c hc]
    refine forall₃_congr fun path b _ => and_congr ?_ ?_
    · omega
    · omega

/-! ## Nodes and payloads that have been read -/

/-- No payload of the definition has a double. -/
def HasNoDouble (d : Definition) : Prop :=
  ∀ path c v, d.get? path = some c → c.values = some v → v.HasNoDouble

section

variable {s : String} {d : Definition} (h : ofText s = .ok d)

include h

/-- Two brackets around every node on the way, and one around the node or its payload: no more than
the reader follows. -/
theorem fits_of_ofText {path : List Nat} {c : Definition} (hc : d.get? path = some c) :
    2 * path.length + 1 ≤ 127 ∧ 2 * path.length + payloadDepth c.values + 1 ≤ 127 := by
  obtain ⟨hread, -⟩ := ofText_eq_ok_iff.mp h
  obtain ⟨n, x, hn, -, hnode⟩ := exists_doc_of_get? Doc.inherited_true trivial hread hc
  obtain ⟨m, rfl, -⟩ := partsFrom_of_ofDoc Doc.inherited_true trivial hnode
  rw [Json.maxDepth] at hn
  refine ⟨by omega, ?_⟩
  cases hv : c.values with
  | none =>
    show 2 * path.length + 0 + 1 ≤ 127
    omega
  | some v =>
    obtain ⟨k, y, hk, -, hpayload⟩ := exists_doc_of_values Doc.inherited_true trivial hread hc hv
    obtain ⟨-, hvalue⟩ := payload_eq_some_iff.mp hpayload
    have hdepth : v.depth ≤ k := (Doc.isKept_of_value y hvalue).depth_le
    rw [Json.maxDepth] at hk
    show 2 * path.length + v.depth + 1 ≤ 127
    omega

/-- Payloads that are read and have no doubles are plain. -/
theorem isPlainPayload_of_ofText (hdouble : d.HasNoDouble) {path : List Nat} {c : Definition}
    (hc : d.get? path = some c) : isPlainPayload c.values = true := by
  obtain ⟨hread, -⟩ := ofText_eq_ok_iff.mp h
  cases hv : c.values with
  | none => rfl
  | some v =>
    obtain ⟨n, x, -, hx, hpayload⟩ :=
      exists_doc_of_values Doc.inherited_inRange (Doc.inRange_ofText s) hread hc hv
    obtain ⟨-, hvalue⟩ := payload_eq_some_iff.mp hpayload
    exact Bool.and_eq_true_iff.mpr ⟨Json.isWhole_of_value hx hvalue (hdouble path c v hc hv),
      (Doc.isKept_of_value x hvalue).isSorted⟩

/-- A definition without doubles that was read from a text is plain. -/
theorem isPlain_of_ofText (hdouble : d.HasNoDouble) : d.isPlain = true :=
  d.isPlain_of_get? fun _ _ hc => isPlainPayload_of_ofText h hdouble hc

end

/-! ## Nodes without a list of children -/

/-- Nodes that stand in each other, written as arrays. The innermost one has no list of children. -/
def briefJson : Nat → Json
  | 0 => .arr [.str "Terminal", .str "send_request"]
  | n + 1 => .arr [.str "NonTerminal", .str "group", .null, .arr [briefJson n]]

/-- The brief form holds no double. -/
theorem isWhole_briefJson (n : Nat) : (briefJson n).isWhole = true := by
  induction n with
  | zero => rfl
  | succ n ih => simp [briefJson, Json.isWhole, Json.areWhole, ih]

/-- The brief form says as many nodes in each other, with two brackets for each. -/
theorem saysNode_briefJson (n : Nat) {m : Nat} (hm : 2 * n + 1 ≤ m) :
    SaysNode m (Doc.ofJson (briefJson n)) (nestedDefinition n) := by
  induction n generalizing m with
  | zero =>
    obtain ⟨m, rfl⟩ := Nat.exists_eq_add_of_le' hm
    exact .array id .absent .absent
  | succ n ih =>
    obtain ⟨m, rfl⟩ := Nat.exists_eq_add_of_le' (show 2 ≤ m by omega)
    have hinner : SaysNode m (Doc.ofJson (briefJson n)) (nestedDefinition n) := ih (by omega)
    exact .array (fun _ => rfl) .null (.list (.cons hinner .nil))

/-- One bracket around the innermost node is enough to read it. -/
theorem ofText_briefJson {n : Nat} (hn : n ≤ 63) :
    ofText (briefJson n).text = .ok (nestedDefinition n) :=
  ofText_of_isWrittenAs ⟨Doc.ofJson (briefJson n),
    saysNode_briefJson n (by rw [Json.maxDepth]; omega), Doc.isWritten_text (isWhole_briefJson n)⟩

/-- No node of the nested definition lies deeper than it says, and none has a value. -/
theorem get?_nestedDefinition {n : Nat} {path : List Nat} {c : Definition}
    (h : (nestedDefinition n).get? path = some c) : path.length ≤ n ∧ c.values = none := by
  induction path generalizing n with
  | nil =>
    obtain rfl := Option.some.inj h
    refine ⟨Nat.zero_le _, ?_⟩
    cases n <;> rfl
  | cons i path ih =>
    obtain ⟨child, hchild, hc⟩ := Option.bind_eq_some_iff.mp h
    cases n with
    | zero => cases hchild
    | succ n =>
      obtain rfl := List.mem_singleton.mp (List.mem_of_getElem? hchild)
      obtain ⟨hle, hvalues⟩ := ih hc
      exact ⟨Nat.succ_le_succ hle, hvalues⟩

/-- Nodes without values hold no doubles. -/
theorem hasNoDouble_nestedDefinition (n : Nat) : (nestedDefinition n).HasNoDouble := by
  intro path c v hc hv
  rw [(get?_nestedDefinition hc).2] at hv
  cases hv

/-! ## The text of a definition that has been read -/

/-- A definition that has been read and has no doubles is read again from its own text, and loaded
just as it was, unless some node stands 63 levels beneath the root. With such a node its text nests
one bracket more than the reader follows, and is malformed. -/
theorem ofText_text_of_ofText {s : String} {d : Definition} (h : ofText s = .ok d)
    (hdouble : d.HasNoDouble) :
    ((∀ path, path.length = 63 → d.get? path = none) →
        ofText d.text = .ok d ∧ loadTree d.text = loadTree s)
      ∧ ((∃ path, path.length = 63 ∧ d.get? path ≠ none) →
        Json.nesting d.text = 128 ∧ ofText d.text = .error (.fault .malformed)) := by
  have hread := ofText_text_eq_ite d (isPlain_of_ofText h hdouble)
  rw [withoutNulls_eq_self (hasNoNull_ofText h), Json.maxDepth] at hread
  -- A node 63 levels down is the only thing in the way: what was read from a text is at most one
  -- level too deep, and nothing else of it is deep enough.
  constructor
  · intro hnone
    have hdepth : d.toJson.depth + 0 ≤ 127 := by
      refine d.depth_toJson_add_le_iff_get?.mpr fun path c hc => ?_
      obtain ⟨hnode, hpayload⟩ := fits_of_ofText h hc
      have hshort : path.length ≠ 63 := by
        intro hlength
        rw [hnone path hlength] at hc
        cases hc
      omega
    rw [if_pos (by omega)] at hread
    refine ⟨hread, ?_⟩
    unfold loadTree
    rw [hread, h]
  · rintro ⟨path, hlength, hsome⟩
    obtain ⟨c, hc⟩ := Option.ne_none_iff_exists'.mp hsome
    have hle : d.toJson.depth + 0 ≤ 128 := by
      refine d.depth_toJson_add_le_iff_get?.mpr fun path c hc => ?_
      obtain ⟨hnode, hpayload⟩ := fits_of_ofText h hc
      omega
    have hdeep : ¬d.toJson.depth ≤ 127 := by
      intro hdepth
      obtain ⟨hnode, -⟩ := (d.depth_toJson_add_le_iff_get? (k := 0)).mp hdepth path c hc
      omega
    rw [if_neg hdeep] at hread
    refine ⟨?_, hread⟩
    rw [text, Json.nesting_text]
    omega

/-- With 62 nodes beneath the root the text is read again, with 63 it is not. -/
theorem ofText_text_briefJson :
    (ofText (briefJson 62).text = .ok (nestedDefinition 62)
        ∧ ofText (nestedDefinition 62).text = .ok (nestedDefinition 62)
        ∧ loadTree (nestedDefinition 62).text = loadTree (briefJson 62).text)
      ∧ ofText (briefJson 63).text = .ok (nestedDefinition 63)
      ∧ Json.nesting (nestedDefinition 63).text = 128
      ∧ ofText (nestedDefinition 63).text = .error (.fault .malformed) := by
  have hread := ofText_briefJson (n := 62) (by omega)
  have hread' := ofText_briefJson (n := 63) (by omega)
  have hshallow : ∀ path, path.length = 63 → (nestedDefinition 62).get? path = none := by
    intro path hlength
    refine Option.eq_none_iff_forall_ne_some.mpr fun c hc => ?_
    have hle := (get?_nestedDefinition hc).1
    omega
  have hdeep : ∃ path, path.length = 63 ∧ (nestedDefinition 63).get? path ≠ none :=
    ⟨List.replicate 63 0, List.length_replicate, nofun⟩
  exact ⟨⟨hread, (ofText_text_of_ofText hread (hasNoDouble_nestedDefinition 62)).1 hshallow⟩,
    hread', (ofText_text_of_ofText hread' (hasNoDouble_nestedDefinition 63)).2 hdeep⟩

/-- Not everything that is read, without doubles, is read again from its own text: 64 nodes in each
other, the innermost one without a list of children, are written with 128 brackets. -/
theorem ofText_text_nestedDefinition :
    ofText (briefJson 63).text = .ok (nestedDefinition 63) ∧ (nestedDefinition 63).HasNoDouble
      ∧ ofText (nestedDefinition 63).text = .error (.fault .malformed) := by
  refine ⟨ofText_briefJson (Nat.le_refl 63), hasNoDouble_nestedDefinition 63, ?_⟩
  have hplain : (nestedDefinition 63).isPlain = true := by decide +kernel
  have hdeep : ¬(nestedDefinition 63).toJson.depth ≤ Json.maxDepth := by decide +kernel
  rw [ofText_text_eq_ite _ hplain, if_neg hdeep]

end Definition

end StepPlan
