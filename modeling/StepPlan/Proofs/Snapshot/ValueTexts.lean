import StepPlan.Proofs.Definition.Resaving
import StepPlan.Proofs.Tree.Places
import StepPlan.Proofs.Tree.ZeroSigns

/-!
# The values of a snapshot

A snapshot has the values of its steps as texts only. For a tree that has been loaded and has no
doubles nothing is lost by that: reading the text of a value gives the value. Its numbers are in the
range in which whole numbers are kept, its objects are sorted, and its brackets stood inside those
of a definition that the reader followed to the end, so there are few enough of them.

Main statement: `values_of_loadTree`.
-/

namespace StepPlan

open Json (Doc)

/-! ## Values by themselves -/

namespace Json

/-- Reads a text as a value. -/
def ofText (s : String) : Except ReadError Json :=
  readText (fun d => liftFault (d.value maxDepth)) s

/-- A value is read back from its text if it is nested no deeper than the reader follows. -/
theorem ofText_eq_ok_of_isWhole {v : Json} (hwhole : v.isWhole = true) (hsorted : v.isSorted = true)
    (hdepth : v.depth ≤ maxDepth) : ofText v.text = .ok v := by
  rw [ofText, readText_text _ hwhole, Doc.value_ofJson v maxDepth hsorted, if_pos hdepth]
  rfl

theorem areWhole_iff {items : List Json} :
    areWhole items = true ↔ ∀ j ∈ items, j.isWhole = true := by
  induction items with
  | nil => simp [areWhole]
  | cons item items ih => simp [areWhole, ih]

theorem haveWhole_iff {members : List (String × Json)} :
    haveWhole members = true ↔ ∀ m ∈ members, m.2.isWhole = true := by
  induction members with
  | nil => simp [haveWhole]
  | cons m members ih => simp [haveWhole, ih]

/-- A value of whole numbers has no double. -/
theorem hasNoDouble_of_isWhole {v : Json} (h : v.isWhole = true) : v.HasNoDouble := by
  intro d hd
  induction hd with
  | num => cases h
  | arr hj _ ih => exact ih (areWhole_iff.mp h _ hj)
  | obj hm _ ih => exact ih (haveWhole_iff.mp h _ hm)

mutual

/-- Whole numbers have no zeros of two signs. -/
theorem zeroSigns_of_isWhole : ∀ {v : Json}, v.isWhole = true → v.zeroSigns = []
  | .null, _ | .bool _, _ | .num (.int _), _ | .str _, _ => rfl
  | .arr _, h => itemZeroSigns_of_areWhole h
  | .obj _, h => memberZeroSigns_of_haveWhole h

/-- Without doubles no item has a zero with a sign. -/
theorem itemZeroSigns_of_areWhole : ∀ {items : List Json}, areWhole items = true →
    itemZeroSigns items = []
  | [], _ => rfl
  | item :: items, h => by
    obtain ⟨hitem, hitems⟩ := Bool.and_eq_true_iff.mp h
    rw [itemZeroSigns, zeroSigns_of_isWhole hitem, itemZeroSigns_of_areWhole hitems]
    rfl

/-- Without doubles no member has a zero with a sign. -/
theorem memberZeroSigns_of_haveWhole : ∀ {members : List (String × Json)},
    haveWhole members = true → memberZeroSigns members = []
  | [], _ => rfl
  | (key, value) :: members, h => by
    obtain ⟨hvalue, hmembers⟩ := Bool.and_eq_true_iff.mp h
    rw [memberZeroSigns, zeroSigns_of_isWhole hvalue, memberZeroSigns_of_haveWhole hmembers]
    rfl

end

end Json

/-- Equal values of whole numbers are the same. -/
theorem Tree.eq_of_sameValue {v w : Option Json} (hv : Definition.isPlainPayload v = true)
    (hw : Definition.isPlainPayload w = true) (h : sameValue v w = true) : v = w := by
  have hsigns : ∀ {u : Option Json}, Definition.isPlainPayload u = true →
      (u.map Json.zeroSigns).getD [] = [] := by
    intro u hu
    cases u with
    | none => rfl
    | some u => exact Json.zeroSigns_of_isWhole (Bool.and_eq_true_iff.mp hu).1
  exact (value_eq_of_same_append (x := []) (y := []) h (by rw [hsigns hv, hsigns hw])).1

/-! ## Values of loaded trees -/

/-- No value of the tree has a double. -/
def Tree.HasNoDouble (t : Tree) : Prop :=
  ∀ path node v, t.get? path = some node → node.value = some v → v.HasNoDouble

section

variable {s : String} {t : Tree} (h : loadTree s = .ok t) (hdouble : t.HasNoDouble)

include h hdouble

/-- A payload of a loaded tree has whole numbers and sorted objects only, and is nested no deeper
than the reader follows. -/
theorem isPlainPayload_of_loadTree {path : List Nat} {node : Tree}
    (hnode : t.get? path = some node) :
    Definition.isPlainPayload node.value = true
      ∧ Definition.payloadDepth node.value ≤ Json.maxDepth := by
  obtain ⟨d, hread, -, rfl⟩ := Definition.loadTree_eq_ok_iff.mp h
  -- The conversion keeps payloads as they are, so what is known of those that are read is theirs.
  have hvalue : ∀ c : Definition, c.converted.value = c.values := fun c => by
    rw [Definition.converted_eq]
  have hnodouble : d.HasNoDouble := by
    intro path c v hc hv
    refine hdouble path c.converted v ?_ ((hvalue c).trans hv)
    rw [Definition.get?_converted, hc]
    rfl
  rw [Definition.get?_converted] at hnode
  obtain ⟨c, hc, rfl⟩ := Option.map_eq_some_iff.mp hnode
  have hfits := (Definition.fits_of_ofText hread hc).2
  rw [hvalue, Json.maxDepth]
  exact ⟨Definition.isPlainPayload_of_ofText hread hnodouble hc, by omega⟩

/-- The text of a payload is read as that payload, and there is a text if there is a payload. -/
theorem ofText_text_of_loadTree {path : List Nat} {node : Tree} (hnode : t.get? path = some node) :
    Option.Rel (fun text v => Json.ofText text = .ok v) (node.value.map Json.text) node.value := by
  obtain ⟨hplain, hdepth⟩ := isPlainPayload_of_loadTree h hdouble hnode
  cases hv : node.value with
  | none => exact .none
  | some v =>
    rw [hv] at hplain hdepth
    obtain ⟨hwhole, hsorted⟩ := Bool.and_eq_true_iff.mp hplain
    exact .some (Json.ofText_eq_ok_of_isWhole hwhole hsorted hdepth)

/-- Payloads have one text exactly when they are equal. -/
theorem text_eq_iff_of_loadTree {path path' : List Nat} {a b : Tree} (ha : t.get? path = some a)
    (hb : t.get? path' = some b) :
    a.value.map Json.text = b.value.map Json.text ↔ Tree.sameValue a.value b.value = true := by
  constructor
  · intro htext
    rw [Option.map_injective (fun _ _ => Json.text_injective) htext]
    exact Tree.sameValue_self b.value
  · intro hsame
    rw [Tree.eq_of_sameValue (isPlainPayload_of_loadTree h hdouble ha).1
      (isPlainPayload_of_loadTree h hdouble hb).1 hsame]

end

/-- Positions that are words are told from a stored path. -/
theorem map_toNat_map_ofNat {path : List Nat} (h : ∀ k ∈ path, k < 2 ^ (64 : Nat)) :
    (path.map UInt64.ofNat).map UInt64.toNat = path := by
  have hposition : ∀ k ∈ path, (UInt64.ofNat k).toNat = k := fun k hk =>
    UInt64.toNat_ofNat_of_lt' (h k hk)
  rw [List.map_map]
  exact (List.map_congr_left hposition).trans (List.map_id path)

/-- In the snapshot of a loaded tree without doubles a step has a text for its value exactly when
the node at its path has a value, and reading the text gives this value. So two steps have the same
text, or both none, exactly when the values of their nodes are equal. -/
theorem values_of_loadTree [Hasher] {s : String} {t : Tree} (h : loadTree s = .ok t)
    (hdouble : t.HasNoDouble) :
    (Snapshot.ofTree t).steps = t.compile.steps.map SnapshotStep.ofStep
      ∧ (∀ step ∈ t.compile.steps,
        t.get? step.path = some step.node
          ∧ ((∀ k ∈ step.path, k < 2 ^ (64 : Nat)) →
            (SnapshotStep.ofStep step).path.map UInt64.toNat = step.path)
          ∧ Option.Rel (fun text v => Json.ofText text = .ok v) (SnapshotStep.ofStep step).value
            step.node.value)
      ∧ ∀ a ∈ t.compile.steps, ∀ b ∈ t.compile.steps,
        (SnapshotStep.ofStep a).value = (SnapshotStep.ofStep b).value
          ↔ Tree.sameValue a.node.value b.node.value = true := by
  have hget : ∀ step ∈ t.compile.steps, t.get? step.path = some step.node := fun step hstep =>
    (Tree.mem_steps_compile_iff.mp hstep).1
  refine ⟨rfl, fun step hstep => ?_, fun a ha b hb => ?_⟩
  · exact ⟨hget step hstep, map_toNat_map_ofNat,
      ofText_text_of_loadTree h hdouble (hget step hstep)⟩
  · exact text_eq_iff_of_loadTree h hdouble (hget a ha) (hget b hb)

/-- A payload with escapes and both ends of the range of whole numbers. -/
def widePayload : Json :=
  .obj [("a", .arr [.num (.int (-2 ^ (63 : Nat))), .num (.int (2 ^ (64 : Nat) - 1))]),
    ("é", .str "\x01 \\ 😀")]

/-- A definition of three operations behind a marker, two of them with this payload. -/
def payloadDefinition : Definition :=
  ⟨"NonTerminal", "root", none, [⟨"Terminal", "info", none, []⟩,
    ⟨"NonTerminal", "run", none, [⟨"Terminal", "type", some (.bool true), []⟩,
      ⟨"Terminal", "send", some widePayload, []⟩, ⟨"Terminal", "send", some widePayload, []⟩,
      ⟨"Terminal", "wait", none, []⟩]⟩]⟩

theorem values_payloadDefinition :
    ∃ t, loadTree payloadDefinition.text = .ok t ∧ t.HasNoDouble
      ∧ t.compile.steps.map (fun step => (step.path, (SnapshotStep.ofStep step).value))
        = [([1, 1], some widePayload.text), ([1, 2], some widePayload.text), ([1, 3], none)]
      ∧ ∀ step ∈ t.compile.steps,
        Option.Rel (fun text v => Json.ofText text = .ok v) (SnapshotStep.ofStep step).value
          step.node.value := by
  -- The text is written and read again by the general law, so it need not be evaluated.
  have hread : Definition.ofText payloadDefinition.text = .ok payloadDefinition := by
    have hplain : payloadDefinition.isPlain = true := by decide +kernel
    have hshallow : payloadDefinition.toJson.depth ≤ Json.maxDepth := by decide +kernel
    rw [Definition.ofText_text_eq_ite _ hplain, if_pos hshallow]
    rfl
  have hunknowns : payloadDefinition.unknowns = [] := by decide +kernel
  have hload := Definition.loadTree_eq_ok_iff.mpr ⟨_, hread, hunknowns, rfl⟩
  have hwhole : (payloadDefinition.converted.places.all fun s => s.node.value.all Json.isWhole)
      = true := by
    decide +kernel
  have hdouble : payloadDefinition.converted.HasNoDouble := by
    intro path node v hnode hv
    have hall := List.all_eq_true.mp hwhole ⟨path, node⟩ (Tree.mem_places_iff.mpr hnode)
    rw [hv] at hall
    exact Json.hasNoDouble_of_isWhole hall
  exact ⟨_, hload, hdouble, by decide +kernel,
    fun step hstep => ((values_of_loadTree hload hdouble).2.1 step hstep).2.2⟩

end StepPlan
