import StepPlan.Json.Reading

/-!
# Definitions

The interchange form of a test tree, node by node as it was written: the names of node type and
operation in their own letters, not looked at yet. As JSON a node is an object of four members;
`values` is left out when there is none, `childNodes` is always there.

A node is read from an object or from an array.

* In an object the four fields stand in any order, each under its name or under the same name with
  underscores. A second occurrence of a field is an error as soon as its name is read. Members of
  other names are passed over. At the end the two names must have been given; the other fields may
  be absent.
* In an array the fields stand in order, and the last two may be cut off.
-/

namespace StepPlan

/-- A node of a definition with everything beneath it. -/
structure Definition where
  nodeType : String
  operationType : String
  values : Option Json
  childNodes : List Definition

namespace Definition

instance : Inhabited Definition := ⟨⟨"", "", none, []⟩⟩

mutual

/-- A definition as JSON. -/
def toJson : Definition → Json
  | ⟨nodeType, operationType, values, childNodes⟩ =>
    .obj (("nodeType", .str nodeType) :: ("operationType", .str operationType)
      :: ((values.map fun v => ("values", v)).toList
        ++ [("childNodes", .arr (toJsons childNodes))]))

/-- Definitions as JSON. -/
def toJsons : List Definition → List Json
  | [] => []
  | d :: ds => toJson d :: toJsons ds

end

/-- The JSON text of a definition. -/
def text (d : Definition) : String :=
  d.toJson.text

end Definition

end StepPlan

/-! ## Reading definitions -/

namespace StepPlan.Definition

open Json (Doc Ending Fault Key Mismatch ReadError Wanted liftFault)

/-- The fields of a node. -/
inductive Field where
  | nodeType
  | operationType
  | values
  | childNodes
deriving DecidableEq

namespace Field

/-- The name of a field. -/
def name : Field → String
  | .nodeType => "nodeType"
  | .operationType => "operationType"
  | .values => "values"
  | .childNodes => "childNodes"

/-- The field of a key. -/
def ofKey? (key : String) : Option Field :=
  if key = "nodeType" ∨ key = "node_type" then some .nodeType
  else if key = "operationType" ∨ key = "operation_type" then some .operationType
  else if key = "values" then some .values
  else if key = "childNodes" ∨ key = "child_nodes" then some .childNodes
  else none

end Field

/-- The fields of a node that have been read. -/
structure Fields where
  nodeType : Option String
  operationType : Option String
  /-- The payload, which may have been given as nothing. -/
  values : Option (Option Json)
  childNodes : Option (List Definition)

namespace Fields

/-- No field. -/
def empty : Fields :=
  ⟨none, none, none, none⟩

/-- The field has been read. -/
def has (fs : Fields) : Field → Bool
  | .nodeType => fs.nodeType.isSome
  | .operationType => fs.operationType.isSome
  | .values => fs.values.isSome
  | .childNodes => fs.childNodes.isSome

/-- The node of some fields, unless a name is missing. -/
def finish (fs : Fields) : Except ReadError Definition :=
  match fs.nodeType, fs.operationType with
  | none, _ => .error (.mismatch (.missing Field.nodeType.name))
  | some _, none => .error (.mismatch (.missing Field.operationType.name))
  | some nodeType, some operationType =>
    .ok ⟨nodeType, operationType, fs.values.getD none, fs.childNodes.getD []⟩

end Fields

/-- The name of the record in messages. -/
def recordName : String :=
  "RawStepNode"

/-- An array of so few items is no node. -/
def tooShort (found : Nat) : ReadError :=
  .mismatch (.length found recordName 4)

/-- Reads a payload; `null` is none. -/
def payload (depth : Nat) : Doc → Except ReadError (Option Json) :=
  Doc.optional fun d => liftFault (d.value depth)

mutual

/-- Reads a node in which arrays and objects may be nested `depth` deep. -/
def ofDoc (depth : Nat) : Doc → Except ReadError Definition
  | .obj members ending =>
    match depth with
    | 0 => .error (.fault .malformed)
    | depth + 1 => do
      let fields ← ofMembers depth .empty members
      liftFault ending.check
      fields.finish
  | .arr items ending =>
    match depth with
    | 0 => .error (.fault .malformed)
    | depth + 1 => ofItems depth ending items
  | d => .error (d.mismatch (.record recordName))

/-- Reads the members of an object behind those read before. -/
def ofMembers (depth : Nat) (fields : Fields) : List (Key × Doc) → Except ReadError Fields
  | [] => .ok fields
  | (key, d) :: members => do
    match Field.ofKey? (← liftFault key.read) with
    | none =>
      liftFault d.skip
      ofMembers depth fields members
    | some field =>
      if fields.has field then .error (.mismatch (.duplicate field.name))
      else
        match field with
        | .nodeType => do
          let s ← d.string
          ofMembers depth { fields with nodeType := some s } members
        | .operationType => do
          let s ← d.string
          ofMembers depth { fields with operationType := some s } members
        | .values => do
          let v ← payload depth d
          ofMembers depth { fields with values := some v } members
        | .childNodes => do
          let ds ← childrenOfDoc depth d
          ofMembers depth { fields with childNodes := some ds } members

/-- Reads a node from the items of an array. -/
def ofItems (depth : Nat) (ending : Ending) : List Doc → Except ReadError Definition
  | [] => do
    liftFault ending.check
    .error (tooShort 0)
  | a :: rest => do
    let nodeType ← a.string
    match rest with
    | [] => do
      liftFault ending.check
      .error (tooShort 1)
    | b :: rest => do
      let operationType ← b.string
      match rest with
      | [] => do
        liftFault ending.check
        return ⟨nodeType, operationType, none, []⟩
      | c :: rest => do
        let values ← payload depth c
        match rest with
        | [] => do
          liftFault ending.check
          return ⟨nodeType, operationType, values, []⟩
        | d :: rest => do
          let childNodes ← childrenOfDoc depth d
          match rest with
          | [] => do
            liftFault ending.check
            return ⟨nodeType, operationType, values, childNodes⟩
          | _ :: _ => .error (.fault .malformed)

/-- Reads the nodes of an array. -/
def childrenOfDoc (depth : Nat) : Doc → Except ReadError (List Definition)
  | .arr items ending =>
    match depth with
    | 0 => .error (.fault .malformed)
    | depth + 1 => do
      let ds ← ofDocs depth items
      liftFault ending.check
      return ds
  | d => .error (d.mismatch .sequence)

/-- Reads nodes one by one. -/
def ofDocs (depth : Nat) : List Doc → Except ReadError (List Definition)
  | [] => .ok []
  | item :: items => do
    let d ← ofDoc depth item
    let ds ← ofDocs depth items
    return d :: ds

end

/-- Reads the text of a definition. -/
def ofText (s : String) : Except ReadError Definition :=
  Json.readText (ofDoc Json.maxDepth) s

end StepPlan.Definition
