import StepPlan.Proofs.Json.Records
import StepPlan.Snapshot.Json

/-!
# Snapshots are read back from their JSON text

A snapshot is written as an object of its fields, and so is each of its steps; a named operation is
an object of its own, and what is absent is written as `null`. Reading takes the members one by one,
and whatever strings, words and operations they hold comes back as it was. Main statement:
`Snapshot.ofText_ownText`.
-/

namespace StepPlan

open Json (Doc)
open Json.Doc (Reads reads_list reads_optional reads_variant_bare reads_variant_content reads_word)

/-! ## Kinds and operations -/

theorem NodeKind.reads_ofDoc (k : NodeKind) : Reads ofDoc (.str k.name) k :=
  reads_variant_bare (ofExactName?_name k) rfl

theorem Operation.isWhole_toJson (o : Operation) : o.toJson.isWhole = true := by
  cases o <;> rfl

/-- A marker is read back from its name, a named operation from the object with its name. -/
theorem Operation.reads_ofDoc (o : Operation) : Reads ofDoc o.toJson o := by
  cases o with
  | type => exact reads_variant_bare (b := some .type) (by decide +kernel) rfl
  | validate => exact reads_variant_bare (b := some .validate) (by decide +kernel) rfl
  | followRedirect => exact reads_variant_bare (b := some .followRedirect) (by decide +kernel) rfl
  | named s => exact reads_variant_content (b := none) (by decide +kernel) rfl

/-! ## Steps -/

namespace SnapshotStep

/-- The fields of a step in the order of writing. -/
def Field.all : List Field :=
  [.path, .kind, .operation, .value]

theorem Field.ofName?_name (f : Field) : ofName? f.name = some f := by
  cases f <;> decide +kernel

/-- What a field of a step is written as. -/
def written (s : SnapshotStep) : Field → Json
  | .path => .arr (s.path.map fun w => .num (.int w.toNat))
  | .kind => .str s.kind.name
  | .operation => s.operation.toJson
  | .value => .ofOption s.value

/-- The fields with one of a step. -/
def put (s : SnapshotStep) (fields : Fields) : Field → Fields
  | .path => { fields with path := some s.path }
  | .kind => { fields with kind := some s.kind }
  | .operation => { fields with operation := some s.operation }
  | .value => { fields with value := some s.value }

theorem has_put (s : SnapshotStep) (fields : Fields) (f g : Field) :
    (s.put fields f).has g = (decide (f = g) || fields.has g) := by
  cases f <;> cases g <;> rfl

/-- Each field of a step is read back. -/
theorem read_written (s : SnapshotStep) (fields : Fields) (f : Field) :
    fields.read f (Doc.ofJson (s.written f)) = .ok (s.put fields f) := by
  cases f with
  | path =>
    have hpath : Doc.list (Doc.word .index) (Doc.ofJson (s.written .path)) = .ok s.path :=
      reads_list fun w _ => reads_word .index w
    rw [Fields.read, hpath]
    rfl
  | kind =>
    have hkind : NodeKind.ofDoc (Doc.ofJson (s.written .kind)) = .ok s.kind := s.kind.reads_ofDoc
    rw [Fields.read, hkind]
    rfl
  | operation =>
    have hoperation : Operation.ofDoc (Doc.ofJson (s.written .operation)) = .ok s.operation :=
      s.operation.reads_ofDoc
    rw [Fields.read, hoperation]
    rfl
  | value =>
    have hvalue : Doc.optional Doc.string (Doc.ofJson (s.written .value)) = .ok s.value :=
      reads_optional s.value
    rw [Fields.read, hvalue]
    rfl

/-- A step is read back from its members. -/
theorem reads_ofDoc (s : SnapshotStep) : Reads ofDoc s.toJson s := by
  have hwritten : s.toJson = .obj (Field.all.map fun f => (f.name, s.written f)) := rfl
  unfold Reads
  rw [hwritten, Doc.ofJson, ofDoc,
    Doc.members_written Field.ofName?_name s.read_written s.has_put]
  · rfl
  · decide
  · decide

theorem isWhole_toJson (s : SnapshotStep) : s.toJson.isWhole = true := by
  have hpath : Json.areWhole (s.path.map fun w => .num (.int w.toNat)) = true :=
    Json.areWhole_map fun w _ => Json.isWhole_word w
  simp [toJson, Json.isWhole, Json.haveWhole, hpath, s.operation.isWhole_toJson,
    Json.isWhole_ofOption s.value]

end SnapshotStep

/-! ## Snapshots -/

namespace Snapshot

/-- The fields of a snapshot in the order of writing. -/
def Field.all : List Field :=
  [.version, .fingerprint, .followRedirects, .error, .steps]

theorem Field.ofName?_name (f : Field) : ofName? f.name = some f := by
  cases f <;> decide +kernel

/-- What a field of a snapshot is written as. -/
def written (s : Snapshot) : Field → Json
  | .version => .str s.version
  | .fingerprint => .num (.int s.fingerprint.toNat)
  | .followRedirects => .bool s.followRedirects
  | .error => .ofOption s.error
  | .steps => .arr (s.steps.map SnapshotStep.toJson)

/-- The fields with one of a snapshot. -/
def put (s : Snapshot) (fields : Fields) : Field → Fields
  | .version => { fields with version := some s.version }
  | .fingerprint => { fields with fingerprint := some s.fingerprint }
  | .followRedirects => { fields with followRedirects := some s.followRedirects }
  | .error => { fields with error := some s.error }
  | .steps => { fields with steps := some s.steps }

theorem has_put (s : Snapshot) (fields : Fields) (f g : Field) :
    (s.put fields f).has g = (decide (f = g) || fields.has g) := by
  cases f <;> cases g <;> rfl

/-- Each field of a snapshot is read back. -/
theorem read_written (s : Snapshot) (fields : Fields) (f : Field) :
    fields.read f (Doc.ofJson (s.written f)) = .ok (s.put fields f) := by
  cases f with
  | version => rfl
  | fingerprint =>
    have hword : Doc.word .word (Doc.ofJson (s.written .fingerprint)) = .ok s.fingerprint :=
      reads_word .word s.fingerprint
    rw [Fields.read, hword]
    rfl
  | followRedirects => rfl
  | error =>
    have herror : Doc.optional Doc.string (Doc.ofJson (s.written .error)) = .ok s.error :=
      reads_optional s.error
    rw [Fields.read, herror]
    rfl
  | steps =>
    have hsteps : Doc.list SnapshotStep.ofDoc (Doc.ofJson (s.written .steps)) = .ok s.steps :=
      reads_list fun step _ => step.reads_ofDoc
    rw [Fields.read, hsteps]
    rfl

/-- A snapshot is read back from its members. -/
theorem reads_ofDoc (s : Snapshot) : Reads ofDoc s.toJson s := by
  have hwritten : s.toJson = .obj (Field.all.map fun f => (f.name, s.written f)) := rfl
  unfold Reads
  rw [hwritten, Doc.ofJson, ofDoc,
    Doc.members_written Field.ofName?_name s.read_written s.has_put]
  · rfl
  · decide
  · decide

theorem isWhole_toJson (s : Snapshot) : s.toJson.isWhole = true := by
  have hsteps : Json.areWhole (s.steps.map SnapshotStep.toJson) = true :=
    Json.areWhole_map fun step _ => step.isWhole_toJson
  have hfingerprint := Json.isWhole_word s.fingerprint
  rw [Json.isWhole] at hfingerprint
  simp [toJson, Json.isWhole, Json.haveWhole, hsteps, hfingerprint, Json.isWhole_ofOption s.error]

/-- The JSON text of a snapshot is read as that snapshot. -/
theorem ofText_ownText (s : Snapshot) : ofText s.text = .ok s := by
  rw [ofText, text, Json.readText_text _ s.isWhole_toJson]
  exact s.reads_ofDoc

end Snapshot

end StepPlan
