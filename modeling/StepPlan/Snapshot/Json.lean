import StepPlan.Snapshot.StepJson

/-!
# Snapshots as JSON

The form in which snapshots are shown to people: a record of five fields, written in order. The
error may be absent, and is written as `null` then.
-/

namespace StepPlan

open Json (Doc Ending ReadError liftFault)

namespace Snapshot

/-- A snapshot as JSON. -/
def toJson (s : Snapshot) : Json :=
  .obj [("crate_version", .str s.version),
    ("fingerprint", .num (.int s.fingerprint.toNat)),
    ("follow_redirects", .bool s.followRedirects),
    ("error", .ofOption s.error),
    ("steps", .arr (s.steps.map SnapshotStep.toJson))]

/-- The JSON text of a snapshot. -/
def text (s : Snapshot) : String :=
  s.toJson.text

/-- The fields of a snapshot. -/
inductive Field where
  | version
  | fingerprint
  | followRedirects
  | error
  | steps
deriving DecidableEq

/-- The name of a field. -/
def Field.name : Field → String
  | .version => "crate_version"
  | .fingerprint => "fingerprint"
  | .followRedirects => "follow_redirects"
  | .error => "error"
  | .steps => "steps"

/-- The field of a name. -/
def Field.ofName? (s : String) : Option Field :=
  [Field.version, .fingerprint, .followRedirects, .error, .steps].find? fun f => f.name == s

/-- The fields of a snapshot that have been read. -/
structure Fields where
  version : Option String
  fingerprint : Option UInt64
  followRedirects : Option Bool
  /-- Why the tree cannot be executed, which may have been given as nothing. -/
  error : Option (Option String)
  steps : Option (List SnapshotStep)

namespace Fields

/-- No field. -/
def empty : Fields :=
  ⟨none, none, none, none, none⟩

/-- The field has been read. -/
def has (fs : Fields) : Field → Bool
  | .version => fs.version.isSome
  | .fingerprint => fs.fingerprint.isSome
  | .followRedirects => fs.followRedirects.isSome
  | .error => fs.error.isSome
  | .steps => fs.steps.isSome

/-- Reads a field. -/
def read (fs : Fields) (f : Field) (d : Doc) : Except ReadError Fields :=
  match f with
  | .version => do
    let version ← d.string
    return { fs with version := some version }
  | .fingerprint => do
    let fingerprint ← d.word .word
    return { fs with fingerprint := some fingerprint }
  | .followRedirects => do
    let followRedirects ← d.boolean
    return { fs with followRedirects := some followRedirects }
  | .error => do
    let error ← d.optional Doc.string
    return { fs with error := some error }
  | .steps => do
    let steps ← d.list SnapshotStep.ofDoc
    return { fs with steps := some steps }

/-- The snapshot of some fields. The first one missing in the order of writing is reported; the
error may be absent. -/
def finish (fs : Fields) : Except ReadError Snapshot :=
  let missing (f : Field) : Except ReadError Snapshot := .error (.mismatch (.missing f.name))
  match fs.version, fs.fingerprint, fs.followRedirects, fs.steps with
  | none, _, _, _ => missing .version
  | some _, none, _, _ => missing .fingerprint
  | some _, some _, none, _ => missing .followRedirects
  | some _, some _, some _, none => missing .steps
  | some version, some fingerprint, some followRedirects, some steps =>
    .ok ⟨version, fingerprint, followRedirects, fs.error.getD none, steps⟩

end Fields

/-- The name of the record in messages. -/
def recordName : String :=
  "CompiledPlan"

/-- Reads a snapshot from the items of an array. -/
def ofItems (ending : Ending) (items : List Doc) : Except ReadError Snapshot := do
  let (version, items) ← Doc.nextItem recordName 5 ending 0 Doc.string items
  let (fingerprint, items) ← Doc.nextItem recordName 5 ending 1 (Doc.word .word) items
  let (followRedirects, items) ← Doc.nextItem recordName 5 ending 2 Doc.boolean items
  let (error, items) ← Doc.nextItem recordName 5 ending 3 (Doc.optional Doc.string) items
  let (steps, items) ← Doc.nextItem recordName 5 ending 4 (Doc.list SnapshotStep.ofDoc) items
  Doc.noMoreItems ending items
  return ⟨version, fingerprint, followRedirects, error, steps⟩

/-- Reads a snapshot. -/
def ofDoc : Doc → Except ReadError Snapshot
  | .obj members ending => do
    let fields ← Doc.members Field.ofName? Field.name Fields.has Fields.read .empty members
    liftFault ending.check
    fields.finish
  | .arr items ending => ofItems ending items
  | d => .error (d.mismatch (.record recordName))

/-- Reads the JSON text of a snapshot. -/
def ofText (s : String) : Except ReadError Snapshot :=
  Json.readText ofDoc s

end Snapshot

end StepPlan
