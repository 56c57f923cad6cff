import StepPlan.Proofs.Bytes.Truncation
import StepPlan.Proofs.Snapshot.RoundTrip

/-!
# Snapshots that are cut short

A snapshot whose writing was interrupted leaves the front of its bytes. Main statement:
`Snapshot.ofBytes_of_prefix`. Wherever the bytes are cut, inside a number, a text, a list or between
two fields, reading them fails for want of bytes, so they are never taken for another snapshot.
-/

namespace StepPlan

open Bytes (Decoder)
open Bytes.Decoder

theorem NodeKind.anticipates_decoder : Anticipates decoder decoder := by
  refine anticipates_index.bind fun i => ?_
  match i with
  | 0 | 1 | 2 => exact anticipates_pure _
  | i + 3 => exact anticipates_fail _ _

theorem Operation.anticipates_decoder : Anticipates decoder decoder := by
  refine anticipates_index.bind fun i => ?_
  match i with
  | 0 | 1 | 2 => exact anticipates_pure _
  | 3 => exact anticipates_string.bind fun _ => anticipates_pure _
  | i + 4 => exact anticipates_fail _ _

theorem anticipates_wordDecoder : Anticipates wordDecoder wordDecoder :=
  anticipates_word.bind fun _ => anticipates_pure _

/-- A step is settled once its bytes are there. -/
theorem SnapshotStep.anticipates_decoder : Anticipates decoder decoder := by
  refine (anticipates_list anticipates_wordDecoder).bind fun _ => ?_
  refine NodeKind.anticipates_decoder.bind fun _ => ?_
  refine Operation.anticipates_decoder.bind fun _ => ?_
  exact (anticipates_option anticipates_string).bind fun _ => anticipates_pure _

namespace Snapshot

/-- A snapshot is settled once its bytes are there. -/
theorem anticipates_decoder : Anticipates decoder decoder := by
  refine anticipates_string.bind fun _ => ?_
  refine anticipates_wordDecoder.bind fun _ => ?_
  refine anticipates_bool.bind fun _ => ?_
  refine (anticipates_option anticipates_string).bind fun _ => ?_
  exact (anticipates_list SnapshotStep.anticipates_decoder).bind fun _ => anticipates_pure _

/-- The bytes of a snapshot, cut anywhere before their end, are not read as a snapshot: the error
tells that bytes are missing. -/
theorem ofBytes_of_prefix (s : Snapshot) (h : s.Sized) {front : List UInt8}
    (hfront : front <+: s.bytes) (hne : front ≠ s.bytes) :
    ∃ n, ofBytes front = .error (.unexpectedEnd n) := by
  have hread : decoder s.bytes = .ok (s, []) := by
    have hall := reads_decoder h []
    rwa [List.append_nil] at hall
  obtain ⟨n, hcut⟩ := anticipates_decoder.error_of_prefix hread hfront hne
  exact ⟨n, by rw [ofBytes, Decoder.run, hcut]⟩

end Snapshot

/-- A snapshot of one step, at a position that takes three bytes. -/
def oneStepSnapshot : Snapshot where
  version := "0.1.0"
  fingerprint := 0xFEDCBA9876543210
  followRedirects := false
  error := none
  steps := [⟨[1, 300], .terminal, .named "send_request", some "1"⟩]

/-- Cut inside the position. -/
theorem ofBytes_take_oneStepSnapshot :
    oneStepSnapshot.Sized ∧ oneStepSnapshot.bytes.take 21 <+: oneStepSnapshot.bytes
      ∧ oneStepSnapshot.bytes.take 21 ≠ oneStepSnapshot.bytes
      ∧ ∃ n, Snapshot.ofBytes (oneStepSnapshot.bytes.take 21) = .error (.unexpectedEnd n) := by
  have hsized : oneStepSnapshot.Sized := by
    refine ⟨by decide, nofun, by decide, ?_⟩
    intro step hs
    obtain rfl := List.mem_singleton.mp hs
    refine ⟨by decide, ?_, ?_⟩
    · intro name hn
      obtain rfl : name = "send_request" := (Operation.named.inj hn).symm
      decide
    · intro text ht
      obtain rfl : text = "1" := (Option.some.inj ht).symm
      decide
  have hfront := List.take_prefix 21 oneStepSnapshot.bytes
  have hne : oneStepSnapshot.bytes.take 21 ≠ oneStepSnapshot.bytes := by decide
  exact ⟨hsized, hfront, hne, Snapshot.ofBytes_of_prefix _ hsized hfront hne⟩

end StepPlan
