import StepPlan.Proofs.Definition.Conversion
import StepPlan.Proofs.Definition.Members

/-!
# What a definition has been read from

A node that has been read has its payload from a document one level beneath its own, and every child
from a document two levels beneath it: the brackets of the node and those of its list of children.
So the node at the end of a path has been read with two levels less to go for every step of the path
(`exists_doc_of_get?`), and its payload with one less again (`exists_doc_of_values`), whichever way
the nodes are written.

What is known of the whole document may pass on to everything in it (`Doc.Inherited`) and is then
known where a node or a payload is read.
-/

namespace StepPlan

open Json (Doc Key)

/-- The property passes on to what stands in arrays and objects. -/
structure Json.Doc.Inherited (Q : Doc → Prop) : Prop where
  arr : ∀ {items ending}, Q (.arr items ending) → ∀ d ∈ items, Q d
  obj : ∀ {members ending}, Q (.obj members ending) → ∀ m ∈ members, Q m.2

/-- What holds of everything is passed on. -/
theorem Json.Doc.inherited_true : Doc.Inherited fun _ => True :=
  ⟨fun _ _ _ => trivial, fun _ _ _ => trivial⟩

namespace Definition

/-- The payload, if there is any, is read from a document with the property. -/
def PayloadFrom (Q : Doc → Prop) (n : Nat) (v : Option Json) : Prop :=
  ∀ j, v = some j → ∃ x, Q x ∧ payload n x = .ok (some j)

/-- The nodes are each read from a document with the property, one level deeper. -/
def NodesFrom (Q : Doc → Prop) (n : Nat) (ds : List Definition) : Prop :=
  ∀ c ∈ ds, ∃ m x, n = m + 1 ∧ Q x ∧ ofDoc m x = .ok c

/-- The parts of a node are read from documents with the property. -/
structure PartsFrom (Q : Doc → Prop) (n : Nat) (d : Definition) : Prop where
  values : PayloadFrom Q n d.values
  childNodes : NodesFrom Q n d.childNodes

/-- The fields that have been read are read from documents with the property. -/
structure Fields.PartsFrom (Q : Doc → Prop) (n : Nat) (fields : Fields) : Prop where
  values : PayloadFrom Q n (fields.values.getD none)
  childNodes : NodesFrom Q n (fields.childNodes.getD [])

variable {Q : Doc → Prop} {n : Nat}

/-- No value comes from anywhere. -/
theorem payloadFrom_none : PayloadFrom Q n none :=
  nofun

/-- No nodes come from anywhere. -/
theorem nodesFrom_nil : NodesFrom Q n [] :=
  List.forall_mem_nil _

/-- A value comes from the document that it is read from. -/
theorem payloadFrom_of_payload {x : Doc} {v : Option Json} (hx : Q x)
    (h : payload n x = .ok v) : PayloadFrom Q n v := by
  rintro j rfl
  exact ⟨x, hx, h⟩

/-- Nodes come from the items that they are read from, one by one. -/
theorem nodesFrom_of_ofDocs {items : List Doc} {ds : List Definition} (hitems : ∀ x ∈ items, Q x)
    (h : ofDocs n items = .ok ds) : NodesFrom Q (n + 1) ds := by
  induction items generalizing ds with
  | nil =>
    rw [ofDocs] at h
    obtain rfl := Except.ok.inj h
    exact nodesFrom_nil
  | cons item items ih =>
    obtain ⟨hitem, hitems⟩ := List.forall_mem_cons.mp hitems
    rw [ofDocs] at h
    obtain ⟨d, hd, h⟩ := bind_eq_ok_iff.mp h
    obtain ⟨rest, hrest, h⟩ := bind_eq_ok_iff.mp h
    obtain rfl := Except.ok.inj h
    exact List.forall_mem_cons.mpr ⟨⟨n, item, rfl, hitem, hd⟩, ih hitems hrest⟩

/-- A finished node has the parts that were gathered for it. -/
theorem partsFrom_finish {fields : Fields} {d : Definition} (h : fields.PartsFrom Q n)
    (hd : fields.finish = .ok d) : d.PartsFrom Q n := by
  obtain ⟨nodeType, operationType, values, childNodes⟩ := fields
  cases nodeType with
  | none => cases hd
  | some nodeType =>
    cases operationType with
    | none => cases hd
    | some operationType =>
      obtain rfl := Except.ok.inj hd
      exact ⟨h.values, h.childNodes⟩

section

variable (hQ : Doc.Inherited Q)

include hQ

/-- Children come from the items of their array, on which the depth counts one less. -/
theorem nodesFrom_of_childrenOfDoc {x : Doc} {ds : List Definition} (hx : Q x)
    (h : childrenOfDoc n x = .ok ds) : NodesFrom Q n ds := by
  -- Children are read from an array, and only with depth to spare.
  cases x with
  | arr items ending =>
    cases n with
    | zero => cases h
    | succ n =>
      rw [childrenOfDoc] at h
      obtain ⟨ds', hds, h⟩ := bind_eq_ok_iff.mp h
      obtain ⟨u, -, h⟩ := bind_eq_ok_iff.mp h
      obtain rfl := Except.ok.inj h
      exact nodesFrom_of_ofDocs (hQ.arr hx) hds
  | _ => cases h

/-- What is read next comes from where it is read. -/
theorem partsFrom_put {fields : Fields} (h : fields.PartsFrom Q n) {d : Doc} {f : Field}
    {c : Content} (hd : Q d) (hc : readContent n d f = .ok c) : (fields.put c).PartsFrom Q n := by
  cases f with
  | nodeType | operationType =>
    obtain ⟨name, -, rfl⟩ := map_eq_ok_iff.mp hc
    exact ⟨h.values, h.childNodes⟩
  | values =>
    obtain ⟨v, hv, rfl⟩ := map_eq_ok_iff.mp hc
    exact ⟨payloadFrom_of_payload hd hv, h.childNodes⟩
  | childNodes =>
    obtain ⟨ds, hds, rfl⟩ := map_eq_ok_iff.mp hc
    exact ⟨h.values, nodesFrom_of_childrenOfDoc hQ hd hds⟩

/-- A member leaves only parts that come from such documents. -/
theorem partsFrom_takeMember {fields after : Fields} {m : Key × Doc}
    (hfields : fields.PartsFrom Q n) (hm : Q m.2) (h : takeMember n fields m = .ok after) :
    after.PartsFrom Q n := by
  obtain ⟨e, he, hafter⟩ := takeMember_eq_ok_iff.mp h
  cases e with
  | none =>
    obtain rfl := Option.some.inj hafter
    exact hfields
  | some c =>
    obtain ⟨-, rfl⟩ := Fields.with?_some_eq_some_iff.mp hafter
    obtain ⟨name, -, he⟩ := bind_eq_ok_iff.mp he
    cases hf : Field.ofKey? name with
    | none =>
      rw [hf] at he
      obtain ⟨u, -, he⟩ := bind_eq_ok_iff.mp he
      cases he
    | some f =>
      rw [hf] at he
      obtain ⟨c', hc', heq⟩ := map_eq_ok_iff.mp he
      obtain rfl := Option.some.inj heq
      exact partsFrom_put hQ hfields hm hc'

/-- All members leave only parts that come from such documents. -/
theorem partsFrom_ofMembers {members : List (Key × Doc)} {fields after : Fields}
    (hmembers : ∀ m ∈ members, Q m.2) (hfields : fields.PartsFrom Q n)
    (h : ofMembers n fields members = .ok after) : after.PartsFrom Q n := by
  induction members generalizing fields with
  | nil =>
    rw [ofMembers] at h
    obtain rfl := Except.ok.inj h
    exact hfields
  | cons m members ih =>
    obtain ⟨hm, hmembers⟩ := List.forall_mem_cons.mp hmembers
    rw [ofMembers_cons] at h
    obtain ⟨between, hfirst, hrest⟩ := bind_eq_ok_iff.mp h
    exact ih hmembers (partsFrom_takeMember hQ hfields hm hfirst) hrest

/-- The items of an array leave only parts that come from such documents. -/
theorem partsFrom_takeItems {items : List Doc} {order : List Field} {fields after : Fields}
    (hitems : ∀ x ∈ items, Q x) (hfields : fields.PartsFrom Q n)
    (h : takeItems n order fields items = .ok after) : after.PartsFrom Q n := by
  induction items generalizing order fields with
  | nil =>
    rw [takeItems] at h
    obtain rfl := Except.ok.inj h
    exact hfields
  | cons x items ih =>
    obtain ⟨hx, hitems⟩ := List.forall_mem_cons.mp hitems
    cases order with
    | nil => cases h
    | cons f order =>
      rw [takeItems] at h
      obtain ⟨between, hfirst, hrest⟩ := bind_eq_ok_iff.mp h
      obtain ⟨c, hc, rfl⟩ := map_eq_ok_iff.mp hfirst
      exact ih hitems (partsFrom_put hQ hfields hx hc) hrest

/-- A node is read one level above its parts. -/
theorem partsFrom_of_ofDoc {x : Doc} {d : Definition} (hx : Q x) (h : ofDoc n x = .ok d) :
    ∃ m, n = m + 1 ∧ d.PartsFrom Q m := by
  cases n with
  | zero => cases x <;> cases h
  | succ n =>
    refine ⟨n, rfl, ?_⟩
    have hnone : Fields.empty.PartsFrom Q n := ⟨payloadFrom_none, nodesFrom_nil⟩
    cases x with
    | obj members ending =>
      rw [ofDoc] at h
      obtain ⟨fields, hfields, h⟩ := bind_eq_ok_iff.mp h
      obtain ⟨u, -, hfinish⟩ := bind_eq_ok_iff.mp h
      exact partsFrom_finish (partsFrom_ofMembers hQ (hQ.obj hx) hnone hfields) hfinish
    | arr items ending =>
      rw [ofDoc, ofItems_eq] at h
      obtain ⟨fields, hfields, h⟩ := bind_eq_ok_iff.mp h
      obtain ⟨u, -, hfinish⟩ := bind_eq_ok_iff.mp h
      exact partsFrom_finish (partsFrom_takeItems hQ (hQ.arr hx) hnone hfields)
        (Fields.finishItems_eq_ok_iff.mp hfinish)
    | _ => cases h

/-- The node at the end of a path is read two levels deeper for every step. -/
theorem exists_doc_of_get? {path : List Nat} {x : Doc} {d c : Definition} (hx : Q x)
    (h : ofDoc n x = .ok d) (hc : d.get? path = some c) :
    ∃ m y, n = m + 2 * path.length ∧ Q y ∧ ofDoc m y = .ok c := by
  -- By induction on the path: each node was read from a document beneath that of its parent.
  induction path generalizing n x d with
  | nil =>
    obtain rfl := Option.some.inj hc
    exact ⟨n, x, rfl, hx, h⟩
  | cons i path ih =>
    obtain ⟨child, hchild, hc⟩ := Option.bind_eq_some_iff.mp hc
    obtain ⟨k, rfl, hparts⟩ := partsFrom_of_ofDoc hQ hx h
    obtain ⟨k, y, rfl, hy, hread⟩ := hparts.childNodes child (List.mem_of_getElem? hchild)
    obtain ⟨m, z, rfl, hz, hread⟩ := ih hy hread hc
    exact ⟨m, z, by rw [List.length_cons]; omega, hz, hread⟩

/-- Its payload is read one level deeper again. -/
theorem exists_doc_of_values {path : List Nat} {x : Doc} {d c : Definition} {v : Json} (hx : Q x)
    (h : ofDoc n x = .ok d) (hc : d.get? path = some c) (hv : c.values = some v) :
    ∃ m y, n = m + 2 * path.length + 1 ∧ Q y ∧ payload m y = .ok (some v) := by
  obtain ⟨k, y, rfl, hy, hread⟩ := exists_doc_of_get? hQ hx h hc
  obtain ⟨m, rfl, hparts⟩ := partsFrom_of_ofDoc hQ hy hread
  obtain ⟨z, hz, hpayload⟩ := hparts.values v hv
  exact ⟨m, z, by omega, hz, hpayload⟩

end

/-- What is read from a text is read from the document of the text, which nothing follows. -/
theorem ofText_eq_ok_iff {s : String} {d : Definition} :
    ofText s = .ok d
      ↔ ofDoc Json.maxDepth (Doc.ofText s).root = .ok d ∧ (Doc.ofText s).overfull = false := by
  rw [ofText, Json.readText, bind_eq_ok_iff]
  constructor
  · rintro ⟨a, ha, h⟩
    cases hover : (Doc.ofText s).overfull with
    | true => rw [hover] at h; cases h
    | false =>
      rw [hover] at h
      obtain rfl := Except.ok.inj h
      exact ⟨ha, rfl⟩
  · rintro ⟨hread, hover⟩
    refine ⟨d, hread, ?_⟩
    rw [hover]
    rfl

end Definition

end StepPlan
