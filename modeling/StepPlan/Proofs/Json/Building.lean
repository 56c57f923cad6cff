import StepPlan.Proofs.Json.Documents

/-!
# What holds of the documents that are built

A property that the scalars among some tokens have, and that passes on to arrays and objects from
what stands in them, holds of the document of these tokens, broken or not, and of every part of it
on the way: `Doc.root_ofTokens`.
-/

namespace StepPlan.Json

/-- The property passes on to arrays and objects from what stands in them, and holds of whatever
breaks off. -/
structure Spreads (Q : Doc → Prop) : Prop where
  broken : ∀ piece, Q (.broken piece)
  arr : ∀ {items ending}, (∀ d ∈ items, Q d) → Q (.arr items ending)
  obj : ∀ {members ending}, (∀ m ∈ members, Q m.2) → Q (.obj members ending)

/-- The document that a token says by itself. -/
def Token.scalar? : Token → Option Doc
  | .null => some .null
  | .bool b => some (.bool b)
  | .num n => some (.num n)
  | .str s => some (.str s)
  | _ => none

/-- Everything that stands in the frame so far has the property. -/
def Frame.All (Q : Doc → Prop) : Frame → Prop
  | .items before => ∀ d ∈ before, Q d
  | .members before _ => ∀ m ∈ before, Q m.2

namespace Builder

/-- Every document that has been built so far has the property. -/
def All (Q : Doc → Prop) : Builder → Prop
  | .value stack | .firstItem stack | .firstKey stack => ∀ f ∈ stack, f.All Q
  | .afterItem items stack => (∀ d ∈ items, Q d) ∧ ∀ f ∈ stack, f.All Q
  | .nextKey members stack | .colon members _ stack | .afterMember members stack =>
    (∀ m ∈ members, Q m.2) ∧ ∀ f ∈ stack, f.All Q
  | .whole root | .overfull root | .halted root => Q root

variable {Q : Doc → Prop}

/-- A document of the kind goes into its frame, or is the whole. -/
theorem all_complete {d : Doc} {stack : List Frame} (hd : Q d) (hstack : ∀ f ∈ stack, f.All Q) :
    (complete d stack).All Q := by
  cases stack with
  | nil => exact hd
  | cons f stack =>
    obtain ⟨hf, hbelow⟩ := List.forall_mem_cons.mp hstack
    cases f with
    | items before => exact ⟨List.forall_mem_cons.mpr ⟨hd, hf⟩, hbelow⟩
    | members before key => exact ⟨List.forall_mem_cons.mpr ⟨hd, hf⟩, hbelow⟩

section

variable (hQ : Spreads Q)

include hQ

/-- The items of a frame, which stand in reverse, make an array of the kind. -/
theorem arr_reverse {items : List Doc} {ending : Ending} (h : ∀ d ∈ items, Q d) :
    Q (.arr items.reverse ending) :=
  hQ.arr fun d hd => h d (List.mem_reverse.mp hd)

/-- The members of a frame, which stand in reverse, make an object of the kind. -/
theorem obj_reverse {members : List (Key × Doc)} {ending : Ending} (h : ∀ m ∈ members, Q m.2) :
    Q (.obj members.reverse ending) :=
  hQ.obj fun m hm => h m (List.mem_reverse.mp hm)

/-- Closing what is still open leaves a document of the kind, frame by frame. -/
theorem of_abandoned {d : Doc} {stack : List Frame} (hd : Q d) (hstack : ∀ f ∈ stack, f.All Q) :
    Q (abandoned d stack) := by
  -- Each frame takes the document so far as its last part and is closed in turn.
  induction stack generalizing d with
  | nil => exact hd
  | cons f stack ih =>
    obtain ⟨hf, hbelow⟩ := List.forall_mem_cons.mp hstack
    cases f with
    | items before => exact ih (arr_reverse hQ (List.forall_mem_cons.mpr ⟨hd, hf⟩)) hbelow
    | members before key => exact ih (obj_reverse hQ (List.forall_mem_cons.mpr ⟨hd, hf⟩)) hbelow

/-- An object that breaks off at a key is of the kind if its members are. -/
theorem of_keyless {piece : Broken} {members : List (Key × Doc)} (h : ∀ m ∈ members, Q m.2) :
    Q (keyless piece members) :=
  obj_reverse hQ (List.forall_mem_cons.mpr ⟨hQ.broken piece, h⟩)

/-- A token where a value is wanted adds a scalar of the kind, opens a frame without members, or
breaks off. -/
theorem all_onValue {t : Token} (ht : ∀ d, t.scalar? = some d → Q d) {stack : List Frame}
    (hstack : ∀ f ∈ stack, f.All Q) : (onValue t stack).All Q := by
  cases t with
  | null | bool b | num n | str s => exact all_complete (ht _ rfl) hstack
  | openArray | openObject => exact hstack
  | closeArray | closeObject | colon | comma | broken piece =>
    exact of_abandoned hQ (hQ.broken _) hstack

/-- A token where a key is wanted adds no document. -/
theorem all_onKey {t : Token} {members : List (Key × Doc)} {stack : List Frame}
    (hmembers : ∀ m ∈ members, Q m.2) (hstack : ∀ f ∈ stack, f.All Q) :
    (onKey t members stack).All Q := by
  cases t with
  | str s => exact ⟨hmembers, hstack⟩
  | _ => exact of_abandoned hQ (of_keyless hQ hmembers) hstack

/-- One token more leaves every document of the kind. -/
theorem all_step {b : Builder} {t : Token} (ht : ∀ d, t.scalar? = some d → Q d) (hb : b.All Q) :
    (b.step t).All Q := by
  -- One case for each thing the builder may be waiting for.
  cases b with
  | value stack => exact all_onValue hQ ht hb
  | firstItem stack =>
    rw [step]
    split
    · exact all_complete (hQ.arr (List.forall_mem_nil _)) hb
    · exact all_onValue hQ ht (List.forall_mem_cons.mpr ⟨List.forall_mem_nil _, hb⟩)
  | afterItem items stack =>
    obtain ⟨hitems, hstack⟩ := hb
    cases t with
    | comma => exact List.forall_mem_cons.mpr ⟨hitems, hstack⟩
    | closeArray => exact all_complete (arr_reverse hQ hitems) hstack
    | _ => exact of_abandoned hQ (arr_reverse hQ hitems) hstack
  | firstKey stack =>
    rw [step]
    split
    · exact all_complete (hQ.obj (List.forall_mem_nil _)) hb
    · exact all_onKey hQ (List.forall_mem_nil _) hb
  | nextKey members stack => exact all_onKey hQ hb.1 hb.2
  | colon members key stack =>
    obtain ⟨hmembers, hstack⟩ := hb
    have hframe : ∀ f ∈ Frame.members members key :: stack, f.All Q :=
      List.forall_mem_cons.mpr ⟨hmembers, hstack⟩
    rw [step]
    split
    · exact hframe
    · exact of_abandoned hQ (hQ.broken _) hframe
  | afterMember members stack =>
    obtain ⟨hmembers, hstack⟩ := hb
    cases t with
    | comma => exact ⟨hmembers, hstack⟩
    | closeObject => exact all_complete (obj_reverse hQ hmembers) hstack
    | _ => exact of_abandoned hQ (obj_reverse hQ hmembers) hstack
  | whole root => exact hb
  | overfull root => exact hb
  | halted root => exact hb

/-- Any tokens leave every document of the kind, if their scalars are. -/
theorem all_run {b : Builder} {ts : List Token}
    (hts : ∀ t ∈ ts, ∀ d, t.scalar? = some d → Q d) (hb : b.All Q) : (b.run ts).All Q := by
  induction ts generalizing b with
  | nil => exact hb
  | cons t ts ih =>
    obtain ⟨ht, hts⟩ := List.forall_mem_cons.mp hts
    exact ih hts (all_step hQ ht hb)

/-- What is there at the end is of the kind. -/
theorem of_finish {b : Builder} (hb : b.All Q) : Q b.finish := by
  cases b with
  | value stack => exact of_abandoned hQ (hQ.broken _) hb
  | firstItem stack => exact of_abandoned hQ (hQ.arr (List.forall_mem_nil _)) hb
  | afterItem items stack => exact of_abandoned hQ (arr_reverse hQ hb.1) hb.2
  | firstKey stack => exact of_abandoned hQ (hQ.obj (List.forall_mem_nil _)) hb
  | nextKey members stack => exact of_abandoned hQ (of_keyless hQ hb.1) hb.2
  | colon members key stack =>
    exact of_abandoned hQ (hQ.broken _) (List.forall_mem_cons.mpr hb)
  | afterMember members stack => exact of_abandoned hQ (obj_reverse hQ hb.1) hb.2
  | whole root => exact hb
  | overfull root => exact hb
  | halted root => exact hb

end

end Builder

/-- What the scalars among some tokens have, and what passes on from there, the document of these
tokens has. -/
theorem Doc.root_ofTokens {Q : Doc → Prop} (hQ : Spreads Q) {ts : List Token}
    (hts : ∀ t ∈ ts, ∀ d, t.scalar? = some d → Q d) : Q (ofTokens ts).root :=
  Builder.of_finish hQ (Builder.all_run hQ hts (List.forall_mem_nil _))

end StepPlan.Json
