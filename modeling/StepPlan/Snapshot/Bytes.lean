import StepPlan.Bytes.Value
import StepPlan.Snapshot.Basic

/-!
# Snapshots as bytes

The form in which snapshots are stored: the fields one after the other without names, kinds and
operations by their number. Bytes behind the snapshot are not looked at.
-/

namespace StepPlan

open Bytes (Decoder encodeBool encodeList encodeNat encodeOption encodeString)

namespace NodeKind

/-- A kind as bytes. -/
def bytes (k : NodeKind) : List UInt8 :=
  encodeNat k.index

/-- Takes a kind. -/
def decoder : Decoder NodeKind := do
  let i ← Decoder.index
  match i with
  | 0 => return .terminal
  | 1 => return .nonTerminal
  | 2 => return .nonExecutable
  | i => Decoder.fail (.noVariant i 3)

end NodeKind

namespace Operation

/-- An operation as bytes. -/
def bytes : Operation → List UInt8
  | .named s => encodeNat 3 ++ encodeString s
  | o => encodeNat o.index

/-- Takes an operation. -/
def decoder : Decoder Operation := do
  let i ← Decoder.index
  match i with
  | 0 => return .type
  | 1 => return .validate
  | 2 => return .followRedirect
  | 3 => do
    let s ← Decoder.string
    return .named s
  | i => Decoder.fail (.noVariant i 4)

end Operation

/-- A word as bytes. -/
def wordBytes (w : UInt64) : List UInt8 :=
  encodeNat w.toNat

/-- Takes a word. -/
def wordDecoder : Decoder UInt64 := do
  let n ← Decoder.word
  return .ofNat n

namespace SnapshotStep

/-- A step as bytes. -/
def bytes (s : SnapshotStep) : List UInt8 :=
  encodeList wordBytes s.path ++ s.kind.bytes ++ s.operation.bytes
    ++ encodeOption encodeString s.value

/-- Takes a step. -/
def decoder : Decoder SnapshotStep := do
  let path ← Decoder.list wordDecoder
  let kind ← NodeKind.decoder
  let operation ← Operation.decoder
  let value ← Decoder.option Decoder.string
  return ⟨path, kind, operation, value⟩

end SnapshotStep

namespace Snapshot

/-- A snapshot as bytes. -/
def bytes (s : Snapshot) : List UInt8 :=
  encodeString s.version ++ wordBytes s.fingerprint ++ encodeBool s.followRedirects
    ++ encodeOption encodeString s.error ++ encodeList SnapshotStep.bytes s.steps

/-- Takes a snapshot. -/
def decoder : Decoder Snapshot := do
  let version ← Decoder.string
  let fingerprint ← wordDecoder
  let followRedirects ← Decoder.bool
  let error ← Decoder.option Decoder.string
  let steps ← Decoder.list SnapshotStep.decoder
  return ⟨version, fingerprint, followRedirects, error, steps⟩

/-- The snapshot at the front of some bytes. -/
def ofBytes (bytes : List UInt8) : Except Bytes.DecodeError Snapshot :=
  decoder.run bytes

end Snapshot

end StepPlan
