import StepPlan.Proofs.Bytes.Reads
import StepPlan.Snapshot.Bytes

/-!
# Snapshots are read back from their bytes

Main statement: `Snapshot.ofBytes_bytes_append`. Every snapshot has its bytes, and with anything
behind them they are read as that snapshot. Lengths are written as words of 64 bits, so this asks
that every list and every text in the snapshot is that short (`Snapshot.Sized`); none in memory is
longer.
-/

namespace StepPlan

open Bytes (Decoder)
open Bytes.Decoder (Reads reads_bool reads_index reads_list reads_option reads_string reads_word)

/-- The lengths in a step are words of 64 bits. -/
structure SnapshotStep.Sized (s : SnapshotStep) : Prop where
  path : s.path.length < 2 ^ (64 : Nat)
  operation : ∀ name, s.operation = .named name → name.utf8ByteSize < 2 ^ (64 : Nat)
  value : ∀ text, s.value = some text → text.utf8ByteSize < 2 ^ (64 : Nat)

/-- The lengths in a snapshot are words of 64 bits. -/
structure Snapshot.Sized (s : Snapshot) : Prop where
  version : s.version.utf8ByteSize < 2 ^ (64 : Nat)
  error : ∀ text, s.error = some text → text.utf8ByteSize < 2 ^ (64 : Nat)
  length : s.steps.length < 2 ^ (64 : Nat)
  steps : ∀ step ∈ s.steps, step.Sized

theorem NodeKind.reads_decoder (k : NodeKind) : Reads decoder k.bytes k := by
  intro rest
  cases k <;> rfl

/-- An operation is read back if its name is short enough. -/
theorem Operation.reads_decoder {o : Operation}
    (h : ∀ name, o = .named name → name.utf8ByteSize < 2 ^ (64 : Nat)) :
    Reads decoder o.bytes o := by
  cases o with
  | type => intro rest; rfl
  | validate => intro rest; rfl
  | followRedirect => intro rest; rfl
  | named name =>
    have hindex : Reads Decoder.index (Bytes.encodeNat 3) 3 := reads_index (by decide)
    exact hindex.bind ((reads_string (h name rfl)).bind_pure Operation.named)

theorem reads_wordDecoder (w : UInt64) : Reads wordDecoder (wordBytes w) w := by
  have h := (reads_word (UInt64.toNat_lt w)).bind_pure UInt64.ofNat
  rwa [UInt64.ofNat_toNat] at h

/-- A step is read back, field by field. -/
theorem SnapshotStep.reads_decoder {s : SnapshotStep} (h : s.Sized) : Reads decoder s.bytes s := by
  simp only [bytes, List.append_assoc]
  refine (reads_list h.path fun w _ => reads_wordDecoder w).bind ?_
  refine (NodeKind.reads_decoder s.kind).bind ?_
  refine (Operation.reads_decoder h.operation).bind ?_
  exact (reads_option fun text ht => reads_string (h.value text ht)).bind_pure
    fun value => (⟨s.path, s.kind, s.operation, value⟩ : SnapshotStep)

namespace Snapshot

/-- A snapshot is read back, field by field. -/
theorem reads_decoder {s : Snapshot} (h : s.Sized) : Reads decoder s.bytes s := by
  simp only [bytes, List.append_assoc]
  refine (reads_string h.version).bind ?_
  refine (reads_wordDecoder s.fingerprint).bind ?_
  refine (reads_bool s.followRedirects).bind ?_
  refine (reads_option fun text ht => reads_string (h.error text ht)).bind ?_
  exact (reads_list h.length fun step hs => SnapshotStep.reads_decoder (h.steps step hs)).bind_pure
    fun steps => (⟨s.version, s.fingerprint, s.followRedirects, s.error, steps⟩ : Snapshot)

/-- The bytes of a snapshot are read as that snapshot, whatever stands behind them. -/
theorem ofBytes_bytes_append (s : Snapshot) (h : s.Sized) (rest : List UInt8) :
    ofBytes (s.bytes ++ rest) = .ok s := by
  rw [ofBytes, Decoder.run, reads_decoder h rest]

/-- What a stored snapshot is judged by is read right or not at all, whatever the lengths of its
other parts. -/
theorem heading_of_ofBytes {s found : Snapshot} (hversion : s.version.utf8ByteSize < 2 ^ (64 : Nat))
    (h : ofBytes s.bytes = .ok found) :
    found.version = s.version ∧ found.fingerprint = s.fingerprint
      ∧ found.error.isNone = s.error.isNone := by
  rw [ofBytes, Decoder.run] at h
  cases hdecoder : decoder s.bytes with
  | error e =>
    rw [hdecoder] at h
    cases h
  | ok p =>
    obtain ⟨first, behind⟩ := p
    rw [hdecoder] at h
    obtain rfl : first = found := Except.ok.inj h
    simp only [decoder, bytes, List.append_assoc] at hdecoder
    -- Everything up to the error is of known length; behind it, only its being there is certain.
    rw [Decoder.bind_ok (reads_string hversion _), Decoder.bind_ok (reads_wordDecoder _ _),
      Decoder.bind_ok (reads_bool _ _)] at hdecoder
    obtain ⟨error, more, herror, hdecoder⟩ := Decoder.exists_of_bind_ok hdecoder
    obtain ⟨steps, rest, -, hdecoder⟩ := Decoder.exists_of_bind_ok hdecoder
    cases hdecoder
    exact ⟨rfl, rfl, Decoder.isNone_of_option_ok herror⟩

end Snapshot

/-- A snapshot that needs numbers of every width, with and without its optional parts. -/
def wideSnapshot : Snapshot where
  version := "0.0.9"
  fingerprint := 0xFEDCBA9876543210
  followRedirects := true
  error := some "naïve"
  steps :=
    [⟨[1, 0, 250, 251, 65535, 65536, 4294967295, 4294967296], .terminal, .named "send_request",
      some "\x7b\"a\":1\x7d"⟩,
    ⟨List.replicate 251 0, .nonExecutable, .validate, none⟩]

/-- The sample snapshot has numbers of every width and is read back with more bytes behind. -/
theorem ofBytes_wideSnapshot :
    wideSnapshot.Sized ∧ Snapshot.ofBytes (wideSnapshot.bytes ++ [0xFF, 0]) = .ok wideSnapshot := by
  have hsized : wideSnapshot.Sized := by
    -- Every length is known, the longest being that of a path of 251 positions.
    refine ⟨by decide, ?_, by decide, ?_⟩
    · intro text ht
      obtain rfl : text = "naïve" := (Option.some.inj ht).symm
      decide
    · intro step hs
      rcases List.mem_cons.mp hs with rfl | hlast
      · refine ⟨by decide, ?_, ?_⟩
        · intro name hn
          obtain rfl : name = "send_request" := (Operation.named.inj hn).symm
          decide
        · intro text ht
          obtain rfl : text = "\x7b\"a\":1\x7d" := (Option.some.inj ht).symm
          decide
      · obtain rfl := List.mem_singleton.mp hlast
        refine ⟨?_, ?_, ?_⟩
        · show (List.replicate 251 (0 : UInt64)).length < 2 ^ (64 : Nat)
          rw [List.length_replicate]
          decide
        · intro name hn
          cases hn
        · intro text ht
          cases ht
  exact ⟨hsized, Snapshot.ofBytes_bytes_append wideSnapshot hsized [0xFF, 0]⟩
end StepPlan
