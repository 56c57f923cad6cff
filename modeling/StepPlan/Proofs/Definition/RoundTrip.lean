import StepPlan.Proofs.Definition.Members

/-!
# Definitions are read back from their text

A definition is written as a JSON object of objects and arrays, two levels for every node and more
for a payload, and the reader follows them so deep and no deeper. Main statement:
`Definition.ofText_text`. Within the limit the text of a definition is read as that definition,
except that a payload `null` counts as none; beyond the limit it is malformed.

Payloads are taken to hold whole numbers and sorted objects (`Definition.isPlain`).
-/

namespace StepPlan

open Json (Doc Key liftFault bind_within bind_within_ok)

namespace Definition

/-! ## What is read of a definition -/

/-- A payload `null` is none. -/
def nonNull : Option Json → Option Json
  | some .null => none
  | v => v

/-- A value other than null stays. -/
theorem nonNull_some {v : Json} (h : v ≠ .null) : nonNull (some v) = some v := by
  cases v with
  | null => exact absurd rfl h
  | _ => rfl

mutual

/-- The definition without its payloads `null`. -/
def withoutNulls : Definition → Definition
  | ⟨nodeType, operationType, values, childNodes⟩ =>
    ⟨nodeType, operationType, nonNull values, withoutNullsAll childNodes⟩

/-- Definitions without their payloads `null`. -/
def withoutNullsAll : List Definition → List Definition
  | [] => []
  | d :: ds => withoutNulls d :: withoutNullsAll ds

end

/-- A payload has whole numbers and sorted objects only. -/
def isPlainPayload (values : Option Json) : Bool :=
  values.all fun v => v.isWhole && v.isSorted

mutual

/-- All payloads of a definition have whole numbers and sorted objects only. -/
def isPlain : Definition → Bool
  | ⟨_, _, values, childNodes⟩ => isPlainPayload values && arePlain childNodes

/-- The same of some definitions. -/
def arePlain : List Definition → Bool
  | [] => true
  | d :: ds => isPlain d && arePlain ds

end

mutual

/-- A plain definition is written without doubles. -/
theorem isWhole_toJson : ∀ (d : Definition), d.isPlain = true → d.toJson.isWhole = true
  | ⟨nodeType, operationType, values, childNodes⟩, h => by
    obtain ⟨hvalues, hchildren⟩ := Bool.and_eq_true_iff.mp h
    have hrest := areWhole_toJsons childNodes hchildren
    cases values with
    | none => simp [toJson, Json.isWhole, Json.haveWhole, hrest]
    | some v =>
      have hv : v.isWhole = true := (Bool.and_eq_true_iff.mp hvalues).1
      simp [toJson, Json.isWhole, Json.haveWhole, hv, hrest]

/-- Plain definitions are written without doubles. -/
theorem areWhole_toJsons : ∀ (ds : List Definition), arePlain ds = true →
    Json.areWhole (toJsons ds) = true
  | [], _ => rfl
  | d :: ds, h => by
    obtain ⟨hfirst, hrest⟩ := Bool.and_eq_true_iff.mp h
    rw [toJsons, Json.areWhole, isWhole_toJson d hfirst, areWhole_toJsons ds hrest]
    rfl

end

/-! ## Depths -/

/-- The depth of a payload. -/
def payloadDepth (values : Option Json) : Nat :=
  (values.map Json.depth).getD 0

/-- A node adds the braces around it and the brackets around its children. -/
theorem depth_toJson (nodeType operationType : String) (values : Option Json)
    (childNodes : List Definition) :
    (toJson ⟨nodeType, operationType, values, childNodes⟩).depth
      = max (payloadDepth values) (Json.itemDepth (toJsons childNodes) + 1) + 1 := by
  cases values <;> simp [toJson, Json.depth, Json.memberDepth, payloadDepth]

/-! ## Reading -/

/-- A written node is an object of its three or four members, in their order. -/
theorem ofJson_toJson (nodeType operationType : String) (values : Option Json)
    (childNodes : List Definition) :
    Doc.ofJson (toJson ⟨nodeType, operationType, values, childNodes⟩)
      = .obj ((.text (some "nodeType"), .str (some nodeType))
          :: (.text (some "operationType"), .str (some operationType))
          :: ((values.map fun v => (Key.text (some "values"), Doc.ofJson v)).toList
            ++ [(.text (some "childNodes"), .arr (Doc.ofItems (toJsons childNodes)) .closed)]))
        .closed := by
  cases values <;> rfl

/-- Reads a payload from what it is written as, if it is there. -/
def payloadOfValues (n : Nat) : Option Json → Except Json.ReadError (Option Json)
  | none => .ok none
  | some v => payload n (Doc.ofJson v)

/-- A node is read from its payload and its children. -/
theorem ofDoc_succ_ofJson (n : Nat) (nodeType operationType : String) (values : Option Json)
    (childNodes : List Definition) :
    ofDoc (n + 1) (Doc.ofJson (toJson ⟨nodeType, operationType, values, childNodes⟩))
      = payloadOfValues n values >>= fun v =>
        childrenOfDoc n (.arr (Doc.ofItems (toJsons childNodes)) .closed) >>= fun ds =>
        .ok ⟨nodeType, operationType, v, ds⟩ := by
  have htype : "nodeType" ∈ Field.nodeType.spellings := by decide
  have hoperation : "operationType" ∈ Field.operationType.spellings := by decide
  have hvalues : "values" ∈ Field.values.spellings := by decide
  have hchildren : "childNodes" ∈ Field.childNodes.spellings := by decide
  rw [ofJson_toJson, ofDoc, ofMembers_names htype hoperation]
  -- The member of the value is there or left out; everything else is the same.
  cases values with
  | none =>
    rw [Option.map_none, Option.toList_none, List.nil_append, ofMembers_childNodes hchildren]
    cases childrenOfDoc n (.arr (Doc.ofItems (toJsons childNodes)) .closed) <;> rfl
  | some v =>
    rw [Option.map_some, Option.toList_some, List.singleton_append, ofMembers_values hvalues]
    rw [payloadOfValues]
    cases payload n (Doc.ofJson v) with
    | error e => rfl
    | ok w =>
      show (ofMembers n ⟨some nodeType, some operationType, some w, none⟩ _ >>= fun fields =>
        Except.ok () >>= fun _ => fields.finish) = _
      rw [ofMembers_childNodes hchildren]
      cases childrenOfDoc n (.arr (Doc.ofItems (toJsons childNodes)) .closed) <;> rfl

/-- A payload is read back if it is nested no deeper than allowed. -/
theorem payload_ofJson {v : Json} (n : Nat) (h : v.isSorted = true) :
    payload n (Doc.ofJson v)
      = if v.depth ≤ n then .ok (nonNull (some v)) else .error (.fault .malformed) := by
  have hvalue := Doc.value_ofJson v n h
  by_cases hnull : v = .null
  · rw [hnull]
    rfl
  · have hdoc : Doc.ofJson v ≠ .null := by
      cases v with
      | null => exact absurd rfl hnull
      | _ => exact nofun
    rw [payload_of_ne_null hdoc, hvalue, nonNull_some hnull]
    by_cases hdeep : v.depth ≤ n
    · rw [if_pos hdeep, if_pos hdeep]
      rfl
    · rw [if_neg hdeep, if_neg hdeep]
      rfl

/-- A plain value is read back if it is not too deep, and a null as no value. -/
theorem payload_ofValues {values : Option Json} (n : Nat) (h : isPlainPayload values = true) :
    payloadOfValues n values
      = if payloadDepth values ≤ n then .ok (nonNull values) else .error (.fault .malformed) := by
  cases values with
  | none => rfl
  | some v => exact payload_ofJson n (Bool.and_eq_true_iff.mp h).2

mutual

/-- A node is read back if it is nested no deeper than allowed. -/
theorem ofDoc_ofJson : ∀ (d : Definition) (n : Nat), d.isPlain = true →
    ofDoc n (Doc.ofJson d.toJson)
      = if d.toJson.depth ≤ n then .ok d.withoutNulls else .error (.fault .malformed)
  | ⟨nodeType, operationType, values, childNodes⟩, 0, _ => by
    rw [depth_toJson, if_neg (by omega), toJson, Doc.ofJson, ofDoc]
  | ⟨nodeType, operationType, values, childNodes⟩, n + 1, h => by
    obtain ⟨hvalues, hchildren⟩ := Bool.and_eq_true_iff.mp h
    have hpayload := payload_ofValues n hvalues
    have hread := childrenOfDoc_ofItems childNodes n hchildren
    rw [depth_toJson, ofDoc_succ_ofJson, hpayload, hread, withoutNulls]
    simp only [Nat.add_le_add_iff_right]
    exact bind_within (bind_within_ok rfl)

/-- So are its children, with the brackets around them. -/
theorem childrenOfDoc_ofItems : ∀ (ds : List Definition) (n : Nat), arePlain ds = true →
    childrenOfDoc n (.arr (Doc.ofItems (toJsons ds)) .closed)
      = if Json.itemDepth (toJsons ds) + 1 ≤ n then .ok (withoutNullsAll ds)
        else .error (.fault .malformed)
  | ds, 0, _ => by
    rw [childrenOfDoc, if_neg (by omega)]
  | ds, n + 1, h => by
    rw [childrenOfDoc, ofDocs_ofItems ds n h]
    simp only [Nat.add_le_add_iff_right]
    exact bind_within_ok rfl

/-- Plain definitions are read back if none is too deep. -/
theorem ofDocs_ofItems : ∀ (ds : List Definition) (n : Nat), arePlain ds = true →
    ofDocs n (Doc.ofItems (toJsons ds))
      = if Json.itemDepth (toJsons ds) ≤ n then .ok (withoutNullsAll ds)
        else .error (.fault .malformed)
  | [], _, _ => rfl
  | d :: ds, n, h => by
    obtain ⟨hfirst, hrest⟩ := Bool.and_eq_true_iff.mp h
    rw [toJsons, Doc.ofItems, ofDocs, ofDoc_ofJson d n hfirst, ofDocs_ofItems ds n hrest,
      Json.itemDepth]
    exact bind_within (bind_within_ok rfl)

end

/-- The text of a definition is read back if it is nested no deeper than the reader follows. -/
theorem ofText_text_eq_ite (d : Definition) (h : d.isPlain = true) :
    ofText d.text
      = if d.toJson.depth ≤ Json.maxDepth then .ok d.withoutNulls
        else .error (.fault .malformed) := by
  rw [ofText, text, Json.readText_text _ (isWhole_toJson d h)]
  exact ofDoc_ofJson d Json.maxDepth h

/-- The text of a definition is read as that definition without its payloads `null`, as long as it
nests no more than 127 brackets; if it nests more, it is malformed. -/
theorem ofText_text (d : Definition) (h : d.isPlain = true) :
    (Json.nesting d.text ≤ 127 → ofText d.text = .ok d.withoutNulls)
      ∧ (128 ≤ Json.nesting d.text → ofText d.text = .error (.fault .malformed)) := by
  have hread : ofText d.text
      = if d.toJson.depth ≤ 127 then .ok d.withoutNulls else .error (.fault .malformed) :=
    ofText_text_eq_ite d h
  rw [text, Json.nesting_text, ← text, hread]
  constructor
  · intro hle
    rw [if_pos hle]
  · intro hge
    rw [if_neg (by omega)]

end Definition

/-- A definition with a payload `null` above one that needs escapes and both ends of the range of
whole numbers. -/
def escapedDefinition : Definition :=
  ⟨"NonTerminal", "root", some .null,
    [⟨"Terminal", "say \"hi\"\n", some (.obj [("a", .arr [.num (.int (-2 ^ (63 : Nat))),
      .num (.int (2 ^ (64 : Nat) - 1))]), ("é", .str "\x01 \\ 😀")]), []⟩]⟩

/-- A definition of nodes that stand in each other, so many beneath the first one. -/
def nestedDefinition : Nat → Definition
  | 0 => ⟨"Terminal", "send_request", none, []⟩
  | n + 1 => ⟨"NonTerminal", "group", none, [nestedDefinition n]⟩

/-- Both halves of the law, at a text with escapes and at 128 nested brackets. -/
theorem ofText_escapedDefinition :
    escapedDefinition.isPlain = true ∧ Json.nesting escapedDefinition.text ≤ 127
      ∧ Definition.ofText escapedDefinition.text = .ok escapedDefinition.withoutNulls
      ∧ (nestedDefinition 63).isPlain = true ∧ 128 ≤ Json.nesting (nestedDefinition 63).text
      ∧ Definition.ofText (nestedDefinition 63).text = .error (.fault .malformed) := by
  have hplain : escapedDefinition.isPlain = true := by decide +kernel
  have hshallow : Json.nesting escapedDefinition.text ≤ 127 := by
    rw [Definition.text, Json.nesting_text]
    decide +kernel
  have hplain' : (nestedDefinition 63).isPlain = true := by decide +kernel
  have hdeep : 128 ≤ Json.nesting (nestedDefinition 63).text := by
    rw [Definition.text, Json.nesting_text]
    decide +kernel
  exact ⟨hplain, hshallow, (Definition.ofText_text _ hplain).1 hshallow, hplain', hdeep,
    (Definition.ofText_text _ hplain').2 hdeep⟩

end StepPlan
