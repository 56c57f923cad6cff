import StepPlan.Definition.Basic
import StepPlan.Proofs.Json.Saying

/-!
# The members of a node

A node written as an object is read member by member. What a member says of its node does not depend
on the members before it: it is the content of a field (`Content`), or nothing if its name is that
of no field. Only a field that comes twice is refused. So members that are read in one order are
read in any other, with the same result: `ofMembers_of_perm`.
-/

namespace StepPlan.Definition

open Json (Doc Key liftFault ReadError)

namespace Field

/-- The names that a field goes by. -/
def spellings : Field → List String
  | .nodeType => ["nodeType", "node_type"]
  | .operationType => ["operationType", "operation_type"]
  | .values => ["values"]
  | .childNodes => ["childNodes", "child_nodes"]

/-- A key is read as the field that goes by it. -/
theorem ofKey?_of_mem_spellings {key : String} {f : Field} (h : key ∈ f.spellings) :
    ofKey? key = some f := by
  have hall : ∀ f : Field, ∀ key ∈ f.spellings, ofKey? key = some f := by
    intro f
    cases f <;> decide
  exact hall f key h

/-- A key that spells no field names none. -/
theorem ofKey?_of_not_mem_spellings {key : String} (h : ∀ f : Field, key ∉ f.spellings) :
    ofKey? key = none := by
  have htype := h .nodeType
  have hoperation := h .operationType
  have hvalues := h .values
  have hchildren := h .childNodes
  simp only [spellings, List.mem_cons, List.not_mem_nil, or_false] at *
  rw [ofKey?, if_neg htype, if_neg hoperation, if_neg hvalues, if_neg hchildren]

end Field

/-! ## One member -/

/-- What a member says of its node. -/
inductive Content where
  | nodeType (name : String)
  | operationType (name : String)
  | values (payload : Option Json)
  | childNodes (children : List Definition)

/-- The field that a content belongs to. -/
def Content.field : Content → Field
  | .nodeType _ => .nodeType
  | .operationType _ => .operationType
  | .values _ => .values
  | .childNodes _ => .childNodes

namespace Fields

/-- The fields with a content more. -/
def put (fields : Fields) : Content → Fields
  | .nodeType name => { fields with nodeType := some name }
  | .operationType name => { fields with operationType := some name }
  | .values payload => { fields with values := some payload }
  | .childNodes children => { fields with childNodes := some children }

/-- A field is given after it was put, or when it was given before. -/
theorem has_put (fields : Fields) (c : Content) (f : Field) :
    (fields.put c).has f = (decide (c.field = f) || fields.has f) := by
  cases c <;> cases f <;> rfl

/-- Contents of two fields may be put in either order. -/
theorem put_comm (fields : Fields) {c c' : Content} (h : c.field ≠ c'.field) :
    (fields.put c).put c' = (fields.put c').put c := by
  cases c <;> cases c' <;> first | rfl | exact absurd rfl h

/-- The fields behind a member, unless its field has been read before. -/
def with? (fields : Fields) : Option Content → Option Fields
  | none => some fields
  | some c => if fields.has c.field then none else some (fields.put c)

/-- A content is taken when its field has not been given yet. -/
theorem with?_some_eq_some_iff {fields after : Fields} {c : Content} :
    fields.with? (some c) = some after ↔ fields.has c.field = false ∧ fields.put c = after := by
  rw [with?]
  by_cases hhas : fields.has c.field = true
  · simp [hhas]
  · simp [hhas]

/-- Two members that are taken one after the other are taken in either order. -/
theorem with?_comm {fields between after : Fields} {e e' : Option Content}
    (h : fields.with? e = some between) (h' : between.with? e' = some after) :
    ∃ between', fields.with? e' = some between' ∧ between'.with? e = some after := by
  cases e with
  | none =>
    obtain rfl := Option.some.inj h
    exact ⟨after, h', rfl⟩
  | some c =>
    cases e' with
    | none =>
      obtain rfl := Option.some.inj h'
      exact ⟨fields, rfl, h⟩
    | some c' =>
      obtain ⟨hc, rfl⟩ := with?_some_eq_some_iff.mp h
      obtain ⟨hc', rfl⟩ := with?_some_eq_some_iff.mp h'
      rw [has_put, Bool.or_eq_false_iff, decide_eq_false_iff_not] at hc'
      obtain ⟨hne, hc'⟩ := hc'
      refine ⟨fields.put c', with?_some_eq_some_iff.mpr ⟨hc', rfl⟩, ?_⟩
      refine with?_some_eq_some_iff.mpr ⟨?_, (put_comm fields hne).symm⟩
      rw [has_put, hc, decide_eq_false fun heq => hne heq.symm]
      rfl

end Fields

/-- Reads the content of a field. -/
def readContent (n : Nat) (d : Doc) : Field → Except ReadError Content
  | .nodeType => .nodeType <$> d.string
  | .operationType => .operationType <$> d.string
  | .values => .values <$> payload n d
  | .childNodes => .childNodes <$> childrenOfDoc n d

/-- What is read for a field is a content of that field. -/
theorem field_of_readContent {n : Nat} {d : Doc} {f : Field} {c : Content}
    (h : readContent n d f = .ok c) : c.field = f := by
  cases f <;> obtain ⟨a, -, rfl⟩ := map_eq_ok_iff.mp h <;> rfl

/-- Reads what a member says of its node. -/
def readMember (n : Nat) (m : Key × Doc) : Except ReadError (Option Content) := do
  match Field.ofKey? (← liftFault m.1.read) with
  | none =>
    liftFault m.2.skip
    return none
  | some f => some <$> readContent n m.2 f

/-- Reads a field behind those read before. -/
def readField (n : Nat) (fields : Fields) (d : Doc) (f : Field) : Except ReadError Fields :=
  fields.put <$> readContent n d f

/-- Reads a member behind those read before. -/
def takeMember (n : Nat) (fields : Fields) (m : Key × Doc) : Except ReadError Fields := do
  match Field.ofKey? (← liftFault m.1.read) with
  | none =>
    liftFault m.2.skip
    return fields
  | some f =>
    if fields.has f then .error (.mismatch (.duplicate f.name)) else readField n fields m.2 f

/-- The first member is taken before the rest. -/
theorem ofMembers_cons (n : Nat) (fields : Fields) (m : Key × Doc) (members : List (Key × Doc)) :
    ofMembers n fields (m :: members)
      = takeMember n fields m >>= fun fields => ofMembers n fields members := by
  obtain ⟨key, d⟩ := m
  rw [ofMembers]
  unfold takeMember
  simp only [bind_assoc]
  congr 1
  funext name
  cases Field.ofKey? name with
  | none => cases liftFault d.skip <;> rfl
  | some f =>
    -- Up to here both sides read the key; the rest depends on whether its field is new.
    by_cases hhas : fields.has f = true
    · simp only [hhas, if_true]
      rfl
    · simp only [hhas]
      unfold readField readContent
      cases f with
      | nodeType => cases d.string <;> rfl
      | operationType => cases d.string <;> rfl
      | values => cases payload n d <;> rfl
      | childNodes => cases childrenOfDoc n d <;> rfl

/-- Members are taken one after the other. -/
theorem ofMembers_eq_foldlM (n : Nat) (members : List (Key × Doc)) (fields : Fields) :
    ofMembers n fields members = members.foldlM (takeMember n) fields := by
  induction members generalizing fields with
  | nil => rfl
  | cons m members ih =>
    rw [ofMembers_cons, List.foldlM_cons]
    congr 1
    funext fields
    exact ih fields

/-- A member that is a field not read before is read as that field. -/
theorem ofMembers_field {n : Nat} {fields : Fields} {key : String} {f : Field}
    (hkey : key ∈ f.spellings) (h : fields.has f = false) (d : Doc) (members : List (Key × Doc)) :
    ofMembers n fields ((.text (some key), d) :: members)
      = readField n fields d f >>= fun fields => ofMembers n fields members := by
  have htake : takeMember n fields (.text (some key), d) = readField n fields d f := by
    show (match Field.ofKey? key with
      | none => _
      | some f => if fields.has f then _ else readField n fields d f) = _
    simp only [Field.ofKey?_of_mem_spellings hkey, h, Bool.false_eq_true, if_false]
  rw [ofMembers_cons, htake]

/-- A payload that is not `null` is read as a value. -/
theorem payload_of_ne_null {d : Doc} (h : d ≠ .null) (n : Nat) :
    payload n d = some <$> liftFault (d.value n) := by
  cases d with
  | null => exact absurd rfl h
  | _ => rfl

/-- A value is there when the document is not `null`, and then it is what the document is read as.
-/
theorem payload_eq_some_iff {n : Nat} {d : Doc} {v : Json} :
    payload n d = .ok (some v) ↔ d ≠ .null ∧ d.value n = .ok v := by
  by_cases hd : d = .null
  · subst hd
    exact iff_of_false nofun fun h => h.1 rfl
  · rw [payload_of_ne_null hd, map_eq_ok_iff]
    simp only [Json.liftFault_eq_ok_iff, Option.some.injEq, exists_eq_right, ne_eq, hd,
      not_false_eq_true, true_and]

/-- Nothing can go wrong with the two names. -/
theorem ofMembers_names {typeKey operationKey : String} (htype : typeKey ∈ Field.nodeType.spellings)
    (hoperation : operationKey ∈ Field.operationType.spellings) (n : Nat)
    (nodeType operationType : String) (members : List (Key × Doc)) :
    ofMembers n .empty
        ((.text (some typeKey), .str (some nodeType))
          :: (.text (some operationKey), .str (some operationType)) :: members)
      = ofMembers n ⟨some nodeType, some operationType, none, none⟩ members := by
  refine (ofMembers_field htype rfl _ _).trans ?_
  show ofMembers n ⟨some nodeType, none, none, none⟩ _ = _
  exact ofMembers_field hoperation rfl _ _

/-- The member of the value is read as a value, under either name. -/
theorem ofMembers_values {key : String} (hkey : key ∈ Field.values.spellings) (n : Nat)
    (nodeType operationType : String) (d : Doc) (members : List (Key × Doc)) :
    ofMembers n ⟨some nodeType, some operationType, none, none⟩ ((.text (some key), d) :: members)
      = payload n d >>= fun v =>
          ofMembers n ⟨some nodeType, some operationType, some v, none⟩ members := by
  refine (ofMembers_field hkey rfl d members).trans ?_
  unfold readField readContent
  cases payload n d <;> rfl

/-- The member of the children is read as nodes, under either name. -/
theorem ofMembers_childNodes {key : String} (hkey : key ∈ Field.childNodes.spellings) (n : Nat)
    (nodeType operationType : String) (values : Option (Option Json)) (d : Doc)
    (members : List (Key × Doc)) :
    ofMembers n ⟨some nodeType, some operationType, values, none⟩
        ((.text (some key), d) :: members)
      = childrenOfDoc n d >>= fun ds =>
          ofMembers n ⟨some nodeType, some operationType, values, some ds⟩ members := by
  refine (ofMembers_field hkey rfl d members).trans ?_
  unfold readField readContent
  cases childrenOfDoc n d <;> rfl

/-! ## Members in any order -/

/-- A member is taken when it is read and its field has not been given yet. -/
theorem takeMember_eq_ok_iff {n : Nat} {fields after : Fields} {m : Key × Doc} :
    takeMember n fields m = .ok after
      ↔ ∃ e, readMember n m = .ok e ∧ fields.with? e = some after := by
  unfold takeMember readMember
  cases liftFault m.1.read with
  | error e => simp [bind, Except.bind]
  | ok name =>
    show (match Field.ofKey? name with
      | none => liftFault m.2.skip >>= fun _ => Except.ok fields
      | some f =>
        if fields.has f then .error (.mismatch (.duplicate f.name))
        else readField n fields m.2 f) = .ok after
      ↔ ∃ e, (match Field.ofKey? name with
      | none => liftFault m.2.skip >>= fun _ => Except.ok none
      | some f => some <$> readContent n m.2 f) = .ok e ∧ fields.with? e = some after
    -- A key of no field has its value passed over; any other key must be of a field not yet given.
    cases Field.ofKey? name with
    | none =>
      simp only [bind_eq_ok_iff, Except.ok.injEq]
      constructor
      · rintro ⟨u, hskip, rfl⟩
        exact ⟨none, ⟨u, hskip, rfl⟩, rfl⟩
      · rintro ⟨e, ⟨u, hskip, rfl⟩, hafter⟩
        exact ⟨u, hskip, Option.some.inj hafter⟩
    | some f =>
      simp only [readField]
      constructor
      · intro h
        by_cases hhas : fields.has f = true
        · rw [if_pos hhas] at h
          cases h
        · rw [if_neg hhas] at h
          obtain ⟨c, hc, rfl⟩ := map_eq_ok_iff.mp h
          refine ⟨some c, map_eq_ok_iff.mpr ⟨c, hc, rfl⟩, ?_⟩
          rw [Fields.with?_some_eq_some_iff, field_of_readContent hc]
          exact ⟨Bool.eq_false_iff.mpr hhas, rfl⟩
      · rintro ⟨e, he, hafter⟩
        obtain ⟨c, hc, rfl⟩ := map_eq_ok_iff.mp he
        obtain ⟨hhas, rfl⟩ := Fields.with?_some_eq_some_iff.mp hafter
        rw [field_of_readContent hc] at hhas
        rw [hhas, if_neg Bool.false_ne_true]
        exact map_eq_ok_iff.mpr ⟨c, hc, rfl⟩

/-- Members are read in any order. -/
theorem ofMembers_of_perm {n : Nat} {members members' : List (Key × Doc)}
    (hperm : members.Perm members') {fields after : Fields}
    (h : ofMembers n fields members = .ok after) : ofMembers n fields members' = .ok after := by
  rw [ofMembers_eq_foldlM] at h ⊢
  refine foldlM_of_perm (R := fun _ _ => True) (fun _ => trivial) ?_ hperm ?_ h
  · intro a b _ s r hread
    obtain ⟨s', hs', hr⟩ := bind_eq_ok_iff.mp hread
    obtain ⟨e, he, hbetween⟩ := takeMember_eq_ok_iff.mp hs'
    obtain ⟨e', he', hafter⟩ := takeMember_eq_ok_iff.mp hr
    obtain ⟨s'', hbetween', hafter'⟩ := Fields.with?_comm hbetween hafter
    exact bind_eq_ok_iff.mpr ⟨s'', takeMember_eq_ok_iff.mpr ⟨e', he', hbetween'⟩,
      takeMember_eq_ok_iff.mpr ⟨e, he, hafter'⟩⟩
  · exact List.pairwise_of_forall fun _ _ => trivial

/-! ## Items in their order -/

/-- The fields in the order in which an array gives them. -/
def Field.inOrder : List Field :=
  [.nodeType, .operationType, .values, .childNodes]

/-- Reads items as these fields, one by one, behind those read before. -/
def takeItems (n : Nat) : List Field → Fields → List Doc → Except ReadError Fields
  | _, fields, [] => .ok fields
  | [], _, _ :: _ => .error (.fault .malformed)
  | f :: order, fields, d :: items => do
    let fields ← readField n fields d f
    takeItems n order fields items

/-- The node of the fields that an array gives, unless a name is missing. -/
def Fields.finishItems (fields : Fields) : Except ReadError Definition :=
  match fields.nodeType, fields.operationType with
  | none, _ => .error (tooShort 0)
  | some _, none => .error (tooShort 1)
  | some nodeType, some operationType =>
    .ok ⟨nodeType, operationType, fields.values.getD none, fields.childNodes.getD []⟩

/-- An array and an object end with the same node when they end well. -/
theorem Fields.finishItems_eq_ok_iff {fields : Fields} {d : Definition} :
    fields.finishItems = .ok d ↔ fields.finish = .ok d := by
  obtain ⟨nodeType, operationType, values, childNodes⟩ := fields
  cases nodeType with
  | none => exact iff_of_false nofun nofun
  | some nodeType =>
    cases operationType with
    | none => exact iff_of_false nofun nofun
    | some operationType => exact Iff.rfl

/-- A node is read from an array item by item. -/
theorem ofItems_eq (n : Nat) (ending : Json.Ending) (items : List Doc) :
    ofItems n ending items
      = takeItems n Field.inOrder .empty items >>= fun fields =>
        liftFault ending.check >>= fun _ => fields.finishItems := by
  -- One case for each number of items, up to the four fields and one item too many.
  rw [Field.inOrder]
  cases items with
  | nil => rfl
  | cons a rest =>
    rw [ofItems, takeItems, readField, readContent]
    cases a.string with
    | error e => rfl
    | ok nodeType =>
      cases rest with
      | nil => rfl
      | cons b rest =>
        simp only [takeItems, readField, readContent]
        cases b.string with
        | error e => rfl
        | ok operationType =>
          cases rest with
          | nil => rfl
          | cons c rest =>
            simp only [takeItems, readField, readContent]
            cases payload n c with
            | error e => rfl
            | ok values =>
              cases rest with
              | nil => rfl
              | cons d rest =>
                simp only [takeItems, readField, readContent]
                cases childrenOfDoc n d with
                | error e => rfl
                | ok childNodes => cases rest <;> rfl

end StepPlan.Definition
