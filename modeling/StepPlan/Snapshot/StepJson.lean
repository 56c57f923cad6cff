import StepPlan.Json.Record
import StepPlan.Json.Value
import StepPlan.Snapshot.Basic

/-!
# Steps of snapshots as JSON

A step is a record of four fields; the value may be absent, and is written as `null` then. A kind is
its name; a marker is its name, and a named operation an object with the name as its one member. A
bare name may also be written as an object in which it has the value `null`.
-/

namespace StepPlan

open Json (Doc Ending ReadError liftFault)

/-! ## Kinds and operations -/

/-- Reads a kind. -/
def NodeKind.ofDoc : Doc → Except ReadError NodeKind :=
  Doc.variant (all.map name) ofExactName? .ok fun kind d => do
    d.nothing
    return kind

namespace Operation

/-- An operation as JSON. -/
def toJson : Operation → Json
  | .type => .str "Type"
  | .validate => .str "Validate"
  | .followRedirect => .str "FollowRedirect"
  | .named s => .obj [("Operation", .str s)]

/-- The sorts of operations: the markers, and none of them for a named operation. -/
def sorts : List (String × Option Operation) :=
  [("Type", some .type), ("Validate", some .validate), ("FollowRedirect", some .followRedirect),
    ("Operation", none)]

/-- Reads an operation. -/
def ofDoc : Doc → Except ReadError Operation :=
  Doc.variant (sorts.map Prod.fst) (fun s => List.lookup s sorts)
    (fun
      | some marker => .ok marker
      | none => .error (.mismatch (.sort .bareVariant .filledVariant)))
    fun
      | some marker, d => do
        d.nothing
        return marker
      | none, d => .named <$> d.string

end Operation

/-! ## Steps -/

namespace SnapshotStep

/-- A step as JSON. -/
def toJson (s : SnapshotStep) : Json :=
  .obj [("path", .arr (s.path.map fun w => .num (.int w.toNat))),
    ("node_kind", .str s.kind.name),
    ("operation", s.operation.toJson),
    ("values", .ofOption s.value)]

/-- The fields of a step. -/
inductive Field where
  | path
  | kind
  | operation
  | value
deriving DecidableEq

/-- The name of a field. -/
def Field.name : Field → String
  | .path => "path"
  | .kind => "node_kind"
  | .operation => "operation"
  | .value => "values"

/-- The field of a name. -/
def Field.ofName? (s : String) : Option Field :=
  [Field.path, .kind, .operation, .value].find? fun f => f.name == s

/-- The fields of a step that have been read. -/
structure Fields where
  path : Option (List UInt64)
  kind : Option NodeKind
  operation : Option Operation
  /-- The JSON text of the value, which may have been given as nothing. -/
  value : Option (Option String)

namespace Fields

/-- No field. -/
def empty : Fields :=
  ⟨none, none, none, none⟩

/-- The field has been read. -/
def has (fs : Fields) : Field → Bool
  | .path => fs.path.isSome
  | .kind => fs.kind.isSome
  | .operation => fs.operation.isSome
  | .value => fs.value.isSome

/-- Reads a field. -/
def read (fs : Fields) (f : Field) (d : Doc) : Except ReadError Fields :=
  match f with
  | .path => do
    let path ← d.list (Doc.word .index)
    return { fs with path := some path }
  | .kind => do
    let kind ← NodeKind.ofDoc d
    return { fs with kind := some kind }
  | .operation => do
    let operation ← Operation.ofDoc d
    return { fs with operation := some operation }
  | .value => do
    let value ← d.optional Doc.string
    return { fs with value := some value }

/-- The step of some fields. The first one missing in the order of writing is reported; the value
may be absent. -/
def finish (fs : Fields) : Except ReadError SnapshotStep :=
  let missing (f : Field) : Except ReadError SnapshotStep := .error (.mismatch (.missing f.name))
  match fs.path, fs.kind, fs.operation with
  | none, _, _ => missing .path
  | some _, none, _ => missing .kind
  | some _, some _, none => missing .operation
  | some path, some kind, some operation => .ok ⟨path, kind, operation, fs.value.getD none⟩

end Fields

/-- The name of the record in messages. -/
def recordName : String :=
  "PlannedStep"

/-- Reads a step from the items of an array. -/
def ofItems (ending : Ending) (items : List Doc) : Except ReadError SnapshotStep := do
  let (path, items) ← Doc.nextItem recordName 4 ending 0 (Doc.list (Doc.word .index)) items
  let (kind, items) ← Doc.nextItem recordName 4 ending 1 NodeKind.ofDoc items
  let (operation, items) ← Doc.nextItem recordName 4 ending 2 Operation.ofDoc items
  let (value, items) ← Doc.nextItem recordName 4 ending 3 (Doc.optional Doc.string) items
  Doc.noMoreItems ending items
  return ⟨path, kind, operation, value⟩

/-- Reads a step. -/
def ofDoc : Doc → Except ReadError SnapshotStep
  | .obj members ending => do
    let fields ← Doc.members Field.ofName? Field.name Fields.has Fields.read .empty members
    liftFault ending.check
    fields.finish
  | .arr items ending => ofItems ending items
  | d => .error (d.mismatch (.record recordName))

end SnapshotStep

end StepPlan
