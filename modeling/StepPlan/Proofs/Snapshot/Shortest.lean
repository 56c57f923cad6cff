import StepPlan.Proofs.Bytes.Shortest
import StepPlan.Proofs.Snapshot.RoundTrip

/-!
# The bytes of a snapshot are the shortest

Many bytes are read as the same snapshot: any number in them may be wider than it need be, and
anything may stand behind. Main statement: `Snapshot.bytes_shortest`. Whatever is read as a
snapshot, the bytes of that snapshot are shorter, or they are just what was read; and they are read
as it.
-/

namespace StepPlan

open Bytes (AtLeast Decoder atLeast_nil)
open Bytes.Decoder

theorem NodeKind.takes_decoder : Takes decoder fun front k => AtLeast k.bytes front := by
  refine takes_index.bind fun front i hfront => ?_
  match i with
  | 0 | 1 | 2 => exact takes_pure (by rwa [List.append_nil])
  | i + 3 => exact takes_fail _

/-- An operation is taken in no fewer bytes than it is written in. -/
theorem Operation.takes_decoder : Takes decoder fun front o =>
    AtLeast o.bytes front ∧ ∀ name, o = .named name → name.utf8ByteSize < 2 ^ (64 : Nat) := by
  refine takes_index.bind fun front i hfront => ?_
  match i with
  | 0 | 1 | 2 => exact takes_pure ⟨by rwa [List.append_nil], nofun⟩
  | 3 =>
    refine takes_string.bind fun more name hname => takes_pure ?_
    obtain ⟨hmore, hlt⟩ := hname
    rw [List.append_nil]
    refine ⟨hfront.append hmore, ?_⟩
    rintro name' heq
    obtain rfl := Operation.named.inj heq
    exact hlt
  | i + 4 => exact takes_fail _

theorem takes_wordDecoder : Takes wordDecoder fun front w => AtLeast (wordBytes w) front := by
  refine takes_word.bind fun front n hn => takes_pure ?_
  obtain ⟨hfront, hlt⟩ := hn
  rwa [List.append_nil, wordBytes, UInt64.toNat_ofNat_of_lt' hlt]

/-- A path is taken in no fewer bytes than it is written in. -/
theorem takes_path : Takes (list wordDecoder) fun front path =>
    AtLeast (Bytes.encodeList wordBytes path) front ∧ path.length < 2 ^ (64 : Nat) := by
  have hword : Takes wordDecoder fun front w => AtLeast (wordBytes w) front ∧ True :=
    takes_wordDecoder.mono fun _ _ h => ⟨h, trivial⟩
  refine (takes_list hword).mono ?_
  rintro front path ⟨hfront, hlength, -⟩
  exact ⟨hfront, hlength⟩

/-- A step is taken in no fewer bytes than it is written in, and could be written. -/
theorem SnapshotStep.takes_decoder : Takes decoder fun front s =>
    AtLeast s.bytes front ∧ s.Sized := by
  refine takes_path.bind fun front₁ path hpath => ?_
  refine NodeKind.takes_decoder.bind fun front₂ kind hkind => ?_
  refine Operation.takes_decoder.bind fun front₃ operation hoperation => ?_
  refine (takes_option takes_string).bind fun front₄ value hvalue => takes_pure ?_
  obtain ⟨hpath, hlength⟩ := hpath
  obtain ⟨hoperation, hname⟩ := hoperation
  obtain ⟨hvalue, htext⟩ := hvalue
  simp only [bytes, List.append_nil, List.append_assoc]
  exact ⟨hpath.append (hkind.append (hoperation.append hvalue)), hlength, hname, htext⟩

namespace Snapshot

/-- A snapshot is taken in no fewer bytes than it is written in, and could be written. -/
theorem takes_decoder : Takes decoder fun front s => AtLeast s.bytes front ∧ s.Sized := by
  refine takes_string.bind fun front₁ version hversion => ?_
  refine takes_wordDecoder.bind fun front₂ fingerprint hfingerprint => ?_
  refine takes_bool.bind fun front₃ followRedirects hfollow => ?_
  refine (takes_option takes_string).bind fun front₄ error herror => ?_
  refine (takes_list SnapshotStep.takes_decoder).bind fun front₅ steps hsteps => takes_pure ?_
  obtain ⟨hversion, hversionLength⟩ := hversion
  obtain ⟨herror, herrorLength⟩ := herror
  obtain ⟨hsteps, hlength, hsized⟩ := hsteps
  simp only [bytes, List.append_nil, List.append_assoc]
  exact ⟨hversion.append (hfingerprint.append (hfollow.append (herror.append hsteps))),
    hversionLength, herrorLength, hlength, hsized⟩

/-- Whatever bytes are read as a snapshot, its own bytes are read as it, too, and they are shorter
unless they are the same. -/
theorem bytes_shortest {given : List UInt8} {s : Snapshot} (h : ofBytes given = .ok s) :
    ofBytes s.bytes = .ok s ∧ (s.bytes = given ∨ s.bytes.length < given.length) := by
  rw [ofBytes, Decoder.run] at h
  cases hdecoder : decoder given with
  | error e =>
    rw [hdecoder] at h
    cases h
  | ok p =>
    obtain ⟨found, rest⟩ := p
    rw [hdecoder] at h
    obtain rfl := Except.ok.inj h
    obtain ⟨front, rfl, hfront, hsized⟩ := takes_decoder _ _ _ hdecoder
    have hread : decoder found.bytes = .ok (found, []) := by
      have hall := reads_decoder hsized []
      rwa [List.append_nil] at hall
    refine ⟨by rw [ofBytes, Decoder.run, hread], ?_⟩
    -- What stands behind the snapshot is written as nothing.
    have hwhole := hfront.append (atLeast_nil rest)
    rw [List.append_nil] at hwhole
    exact hwhole.imp Eq.symm id

end Snapshot

/-- Bytes with numbers that are wider than they need be, and with something behind them. -/
def looseBytes : List UInt8 :=
  [0xFB, 5, 0, 48, 46, 49, 46, 48, 0xFD, 7, 0, 0, 0, 0, 0, 0, 0, 1, 0, 0xFC, 1, 0, 0, 0, 2,
    0xFB, 1, 0, 0xFC, 44, 1, 0, 0, 0xFB, 0, 0, 0xFC, 3, 0, 0, 0, 4, 112, 105, 110, 103, 0, 9]

/-- The sample bytes have a number and a length in wider forms than needed. -/
theorem bytes_shortest_looseBytes :
    ∃ s, Snapshot.ofBytes looseBytes = .ok s ∧ s.steps.map SnapshotStep.path = [[1, 300]]
      ∧ Snapshot.ofBytes s.bytes = .ok s
      ∧ (s.bytes = looseBytes ∨ s.bytes.length < looseBytes.length) := by
  have hread : Snapshot.ofBytes looseBytes
      = .ok ⟨"0.1.0", 7, true, none, [⟨[1, 300], .terminal, .named "ping", none⟩]⟩ := by
    rfl
  exact ⟨_, hread, rfl, Snapshot.bytes_shortest hread⟩

end StepPlan
