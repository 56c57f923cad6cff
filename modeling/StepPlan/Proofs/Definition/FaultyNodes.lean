import StepPlan.Proofs.Definition.Truncation

/-!
# Faulty nodes

A node that is written as an object must give its two names, as strings, must give its children as
an array if it gives them, and must give no field twice, under one name or under two. An object that
does not is faulty (`Definition.IsFaulty`). A text with a faulty object where a node should stand
(`Definition.StandsIn`) cannot be read, however deep it stands and whatever stands beside it.

The argument runs the other way: what is read has been read to its last member, and whatever stands
in it as a node has been read as one (`Definition.exists_ofDoc_of_standsIn`). Then each of its
members has been read as the field that it names (`Definition.read_of_ofMembers`), which leaves no
place for a fault (`Definition.not_isFaulty_of_ofDoc`).

Main statement: `loadTree_of_isFaulty`.
-/

namespace StepPlan

open Json (Doc Ending Key)

namespace Definition

/-! ## Faults -/

/-- The key is one of the names of the field. -/
def Field.IsNamedBy (f : Field) (key : Key) : Prop :=
  ∃ name ∈ f.spellings, key = .text (some name)

/-- The object with these members is no node, for one of four reasons. -/
inductive IsFaulty (members : List (Key × Doc)) : Prop where
  /-- It does not say its node type, or its operation type. -/
  | missing {f : Field} (hf : f = .nodeType ∨ f = .operationType)
      (h : ∀ m ∈ members, ¬f.IsNamedBy m.1)
  /-- Two of its members name one field. -/
  | twice {f : Field} {a b : Key × Doc} (h : [a, b].Sublist members) (ha : f.IsNamedBy a.1)
      (hb : f.IsNamedBy b.1)
  /-- A type is given as something else than a string. -/
  | notString {f : Field} {m : Key × Doc} (hf : f = .nodeType ∨ f = .operationType)
      (hm : m ∈ members) (hkey : f.IsNamedBy m.1) (h : ∀ s, m.2 ≠ .str s)
  /-- The children are given as something else than an array. -/
  | notArray {m : Key × Doc} (hm : m ∈ members) (hkey : Field.childNodes.IsNamedBy m.1)
      (h : ∀ items ending, m.2 ≠ .arr items ending)

/-- The document stands in another one where a node should: it is that document itself, or stands so
in one of the children of a node that is written as an object or as an array. -/
inductive StandsIn (node : Doc) : Doc → Prop where
  | root : StandsIn node node
  | ofMember {members : List (Key × Doc)} {ending ending' : Ending} {key : Key} {items : List Doc}
      {child : Doc} (hm : (key, .arr items ending') ∈ members)
      (hkey : Field.childNodes.IsNamedBy key) (hchild : child ∈ items) (h : StandsIn node child) :
      StandsIn node (.obj members ending)
  | ofItem {fields items : List Doc} {ending ending' : Ending} {child : Doc}
      (hitem : fields[3]? = some (.arr items ending')) (hchild : child ∈ items)
      (h : StandsIn node child) : StandsIn node (.arr fields ending)

/-! ## What has been read -/

/-- A key names a field by one of its two spellings. -/
theorem Field.ofKey?_eq_some_iff {key : String} {f : Field} :
    ofKey? key = some f ↔ key ∈ f.spellings := by
  refine ⟨fun h => ?_, ofKey?_of_mem_spellings⟩
  by_cases hnamed : ∃ g : Field, key ∈ g.spellings
  · obtain ⟨g, hg⟩ := hnamed
    obtain rfl := Option.some.inj ((ofKey?_of_mem_spellings hg).symm.trans h)
    exact hg
  · rw [ofKey?_of_not_mem_spellings fun g hg => hnamed ⟨g, hg⟩] at h
    cases h

/-- A member is taken for a field by its key. -/
theorem fieldOf?_eq_some_iff {key : Key} {f : Field} :
    fieldOf? key = some f ↔ f.IsNamedBy key := by
  constructor
  · intro h
    cases key with
    | broken piece => cases h
    | text name =>
      cases name with
      | none => cases h
      | some name => exact ⟨name, Field.ofKey?_eq_some_iff.mp h, rfl⟩
  · rintro ⟨name, hname, rfl⟩
    exact Field.ofKey?_of_mem_spellings hname

/-- A member that has been taken and names a field gives this field, for the first time. -/
theorem content_of_takeMember {n : Nat} {fields after : Fields} {m : Key × Doc} {f : Field}
    (h : takeMember n fields m = .ok after) (hkey : f.IsNamedBy m.1) :
    fields.has f = false ∧ ∃ c, readContent n m.2 f = .ok c ∧ fields.put c = after := by
  obtain ⟨key, d⟩ := m
  rw [takeMember_of_fieldOf? (fieldOf?_eq_some_iff.mpr hkey)] at h
  split at h
  next => cases h
  next hhas => exact ⟨Bool.eq_false_iff.mpr hhas, map_eq_ok_iff.mp h⟩

/-- A member that names no field gives none. -/
theorem eq_of_takeMember {n : Nat} {fields after : Fields} {key : Key} {d : Doc}
    (h : takeMember n fields (key, d) = .ok after) (hkey : fieldOf? key = none) :
    after = fields := by
  obtain ⟨name, hname, h⟩ := bind_eq_ok_iff.mp h
  obtain rfl := Json.Key.read_eq_ok_iff.mp (Json.liftFault_eq_ok_iff.mp hname)
  have hnone : Field.ofKey? name = none := hkey
  rw [hnone] at h
  obtain ⟨u, -, h⟩ := bind_eq_ok_iff.mp h
  exact (Except.ok.inj h).symm

/-- A member gives no field but the one that it names. -/
theorem has_of_takeMember {n : Nat} {fields after : Fields} {m : Key × Doc} {f : Field}
    (h : takeMember n fields m = .ok after) (hafter : after.has f = true) :
    fields.has f = true ∨ f.IsNamedBy m.1 := by
  cases hkey : fieldOf? m.1 with
  | none =>
    rw [eq_of_takeMember h hkey] at hafter
    exact .inl hafter
  | some g =>
    have hnamed := fieldOf?_eq_some_iff.mp hkey
    obtain ⟨-, c, hc, rfl⟩ := content_of_takeMember h hnamed
    rw [Fields.has_put, field_of_readContent hc, Bool.or_eq_true, decide_eq_true_iff] at hafter
    rcases hafter with rfl | hbefore
    · exact .inr hnamed
    · exact .inl hbefore

/-- Fields that have been read stay. -/
theorem has_after_takeMember {n : Nat} {fields after : Fields} {m : Key × Doc} {f : Field}
    (h : takeMember n fields m = .ok after) (hfields : fields.has f = true) :
    after.has f = true := by
  cases hkey : fieldOf? m.1 with
  | none =>
    rw [eq_of_takeMember h hkey]
    exact hfields
  | some g =>
    obtain ⟨-, c, -, rfl⟩ := content_of_takeMember h (fieldOf?_eq_some_iff.mp hkey)
    rw [Fields.has_put, hfields, Bool.or_true]

section

variable {n : Nat} {fields after : Fields} {members : List (Key × Doc)} {f : Field}
  (h : ofMembers n fields members = .ok after)

include h

/-- A field comes from a member that names it, if it has not been read before. -/
theorem exists_of_has (hafter : after.has f = true) :
    fields.has f = true ∨ ∃ m ∈ members, f.IsNamedBy m.1 := by
  induction members generalizing fields with
  | nil =>
    obtain rfl := Except.ok.inj h
    exact .inl hafter
  | cons m members ih =>
    rw [ofMembers_cons] at h
    obtain ⟨between, hfirst, hrest⟩ := bind_eq_ok_iff.mp h
    rcases ih hrest with hbetween | ⟨m', hm', hkey⟩
    · rcases has_of_takeMember hfirst hbetween with hfields | hkey
      · exact .inl hfields
      · exact .inr ⟨m, List.mem_cons_self .., hkey⟩
    · exact .inr ⟨m', List.mem_cons_of_mem _ hm', hkey⟩

/-- A member that names a field is read as this field, which has not been read before. -/
theorem read_of_ofMembers {m : Key × Doc} (hm : m ∈ members) (hkey : f.IsNamedBy m.1) :
    fields.has f = false ∧ ∃ c, readContent n m.2 f = .ok c := by
  induction members generalizing fields with
  | nil => cases hm
  | cons first members ih =>
    rw [ofMembers_cons] at h
    obtain ⟨between, hfirst, hrest⟩ := bind_eq_ok_iff.mp h
    rcases List.mem_cons.mp hm with rfl | hm
    · obtain ⟨hnew, c, hc, -⟩ := content_of_takeMember hfirst hkey
      exact ⟨hnew, c, hc⟩
    · obtain ⟨hnew, hread⟩ := ih hrest hm
      refine ⟨Bool.eq_false_iff.mpr fun hfields => ?_, hread⟩
      rw [has_after_takeMember hfirst hfields] at hnew
      cases hnew

/-- No field is named by two members. -/
theorem not_twice_of_ofMembers {a b : Key × Doc} (hsub : [a, b].Sublist members)
    (ha : f.IsNamedBy a.1) (hb : f.IsNamedBy b.1) : False := by
  induction members generalizing fields with
  | nil => cases hsub
  | cons first members ih =>
    rw [ofMembers_cons] at h
    obtain ⟨between, hfirst, hrest⟩ := bind_eq_ok_iff.mp h
    rcases List.sublist_cons_iff.mp hsub with hlater | ⟨rest, heq, hlater⟩
    · exact ih hrest hlater
    · obtain ⟨rfl, rfl⟩ := List.cons.inj heq
      obtain ⟨-, c, hc, rfl⟩ := content_of_takeMember hfirst ha
      obtain ⟨hnew, -⟩ := read_of_ofMembers hrest (List.singleton_sublist.mp hlater) hb
      rw [Fields.has_put, field_of_readContent hc, decide_eq_true rfl] at hnew
      cases hnew

end

/-! ## What is no node -/

/-- A node that is read to its end has both names. -/
theorem has_of_finish {fields : Fields} {d : Definition} (h : fields.finish = .ok d) :
    fields.has .nodeType = true ∧ fields.has .operationType = true := by
  obtain ⟨nodeType, operationType, values, childNodes⟩ := fields
  cases nodeType with
  | none => cases h
  | some nodeType =>
    cases operationType with
    | none => cases h
    | some operationType => exact ⟨rfl, rfl⟩

/-- A name is read from a string. -/
theorem exists_str_of_readContent {n : Nat} {d : Doc} {f : Field} {c : Content}
    (h : readContent n d f = .ok c) (hf : f = .nodeType ∨ f = .operationType) :
    ∃ v, d = .str v := by
  have hstring : ∀ s, d.string = .ok s → ∃ v, d = .str v := by
    intro s hs
    cases d with
    | str v => exact ⟨v, rfl⟩
    | _ => cases hs
  rcases hf with rfl | rfl <;> obtain ⟨s, hs, -⟩ := map_eq_ok_iff.mp h <;> exact hstring s hs

/-- Children are read from an array only. -/
theorem exists_arr_of_childrenOfDoc {n : Nat} {d : Doc} {ds : List Definition}
    (h : childrenOfDoc n d = .ok ds) : ∃ items ending, d = .arr items ending := by
  cases d with
  | arr items ending => exact ⟨items, ending, rfl⟩
  | _ => cases h

/-- An object that has been read is not faulty. -/
theorem not_isFaulty_of_ofDoc {n : Nat} {members : List (Key × Doc)} {ending : Ending}
    {d : Definition} (h : ofDoc n (.obj members ending) = .ok d) : ¬IsFaulty members := by
  cases n with
  | zero => cases h
  | succ n =>
    rw [ofDoc] at h
    obtain ⟨fields, hfields, h⟩ := bind_eq_ok_iff.mp h
    obtain ⟨u, -, hfinish⟩ := bind_eq_ok_iff.mp h
    obtain ⟨hnode, hoperation⟩ := has_of_finish hfinish
    intro hfaulty
    -- Each fault is denied by what acceptance implies of the members.
    cases hfaulty with
    | @missing f hf hnone =>
      have hhas : fields.has f = true := by rcases hf with rfl | rfl <;> assumption
      rcases exists_of_has hfields hhas with hempty | ⟨m, hm, hkey⟩
      · cases f <;> cases hempty
      · exact hnone m hm hkey
    | twice hsub ha hb => exact not_twice_of_ofMembers hfields hsub ha hb
    | notString hf hm hkey hnot =>
      obtain ⟨-, c, hc⟩ := read_of_ofMembers hfields hm hkey
      obtain ⟨v, hv⟩ := exists_str_of_readContent hc hf
      exact hnot v hv
    | notArray hm hkey hnot =>
      obtain ⟨-, c, hc⟩ := read_of_ofMembers hfields hm hkey
      obtain ⟨ds, hds, -⟩ := map_eq_ok_iff.mp hc
      obtain ⟨items, ending, hd⟩ := exists_arr_of_childrenOfDoc hds
      exact hnot items ending hd

/-! ## Nodes beneath nodes -/

/-- If a list of nodes is read, each of them is. -/
theorem exists_ofDoc_of_mem {n : Nat} {items : List Doc} {ds : List Definition}
    (h : ofDocs n items = .ok ds) {child : Doc} (hchild : child ∈ items) :
    ∃ d, ofDoc n child = .ok d := by
  induction items generalizing ds with
  | nil => cases hchild
  | cons item items ih =>
    rw [ofDocs] at h
    obtain ⟨d, hd, h⟩ := bind_eq_ok_iff.mp h
    obtain ⟨rest, hrest, -⟩ := bind_eq_ok_iff.mp h
    rcases List.mem_cons.mp hchild with rfl | hchild
    · exact ⟨d, hd⟩
    · exact ih hrest hchild

/-- If the children of a node are read, each of them is. -/
theorem exists_ofDoc_of_childrenOfDoc {n : Nat} {items : List Doc} {ending : Ending}
    {ds : List Definition} (h : childrenOfDoc n (.arr items ending) = .ok ds) {child : Doc}
    (hchild : child ∈ items) : ∃ m d, ofDoc m child = .ok d := by
  cases n with
  | zero => cases h
  | succ n =>
    rw [childrenOfDoc] at h
    obtain ⟨ds', hds, -⟩ := bind_eq_ok_iff.mp h
    exact ⟨n, exists_ofDoc_of_mem hds hchild⟩

/-- The items of a node are read as the fields at their places. -/
theorem read_of_takeItems {n : Nat} {order : List Field} {fields after : Fields}
    {items : List Doc} (h : takeItems n order fields items = .ok after) {i : Nat} {d : Doc}
    (hd : items[i]? = some d) : ∃ f, order[i]? = some f ∧ ∃ c, readContent n d f = .ok c := by
  induction items generalizing order fields i with
  | nil => cases hd
  | cons item items ih =>
    cases order with
    | nil => cases h
    | cons f order =>
      rw [takeItems] at h
      obtain ⟨between, hfirst, hrest⟩ := bind_eq_ok_iff.mp h
      cases i with
      | zero =>
        obtain rfl := Option.some.inj hd
        obtain ⟨c, hc, -⟩ := map_eq_ok_iff.mp hfirst
        exact ⟨f, rfl, c, hc⟩
      | succ i => exact ih hrest hd

/-- In a document that has been read, whatever stands as a node has been read as one. -/
theorem exists_ofDoc_of_standsIn {node doc : Doc} (hnode : StandsIn node doc) {n : Nat}
    {d : Definition} (h : ofDoc n doc = .ok d) : ∃ m c, ofDoc m node = .ok c := by
  -- By induction on the way down to the node; acceptance is handed from a node to its children.
  induction hnode generalizing n d with
  | root => exact ⟨n, d, h⟩
  | ofMember hm hkey hchild _ ih =>
    cases n with
    | zero => cases h
    | succ n =>
      rw [ofDoc] at h
      obtain ⟨fields, hfields, -⟩ := bind_eq_ok_iff.mp h
      obtain ⟨-, c, hc⟩ := read_of_ofMembers hfields hm hkey
      obtain ⟨ds, hds, -⟩ := map_eq_ok_iff.mp hc
      obtain ⟨m, c, hread⟩ := exists_ofDoc_of_childrenOfDoc hds hchild
      exact ih hread
  | ofItem hitem hchild _ ih =>
    cases n with
    | zero => cases h
    | succ n =>
      rw [ofDoc, ofItems_eq] at h
      obtain ⟨fields, hfields, -⟩ := bind_eq_ok_iff.mp h
      obtain ⟨f, hf, c, hc⟩ := read_of_takeItems hfields hitem
      obtain rfl := Option.some.inj hf
      obtain ⟨ds, hds, -⟩ := map_eq_ok_iff.mp hc
      obtain ⟨m, c, hread⟩ := exists_ofDoc_of_childrenOfDoc hds hchild
      exact ih hread

end Definition

/-- A text that has a faulty object somewhere in the place of a node cannot be read. It is refused
as unreadable, whatever types its nodes have. -/
theorem loadTree_of_isFaulty {s : String} {doc : Doc} {members : List (Key × Doc)}
    {ending : Ending} (hs : doc.IsWritten s)
    (hnode : Definition.StandsIn (.obj members ending) doc)
    (hfaulty : Definition.IsFaulty members) : ∃ e, loadTree s = .error (.unreadable e) := by
  have herror : ∃ e, Definition.ofText s = .error e := by
    refine Definition.ofText_eq_error_iff.mpr fun d hd => ?_
    rw [Definition.ofText, Json.readText_of_isWritten _ hs] at hd
    obtain ⟨n, c, hread⟩ := Definition.exists_ofDoc_of_standsIn hnode hd
    exact Definition.not_isFaulty_of_ofDoc hread hfaulty
  obtain ⟨e, he⟩ := herror
  exact ⟨e, loadTree_of_ofText_error he⟩

/-- The members of a node that names its kind twice, under both names of the field. -/
def doubledMembers : List (String × Json) :=
  [("node_type", .str "Terminal"), ("operationType", .str "send"), ("nodeType", .str "Terminal")]

/-- Such a node beneath others; the outermost one is an array, and its kind is unknown. -/
def doubledJson : Json :=
  .arr [.str "Unknown", .str "root", .null, .arr [.obj [("id", .null),
    ("child_nodes", .arr [.obj doubledMembers]), ("operation_type", .str "run"),
    ("nodeType", .str "NonTerminal")]]]

/-- A node with a field given twice stands in the sample text, which does not load. -/
theorem loadTree_doubledJson :
    (Doc.ofJson doubledJson).IsWritten doubledJson.text
      ∧ Definition.StandsIn (.obj (Doc.ofMembers doubledMembers) .closed) (Doc.ofJson doubledJson)
      ∧ Definition.IsFaulty (Doc.ofMembers doubledMembers)
      ∧ ∃ e, loadTree doubledJson.text = .error (.unreadable e) := by
  have hwritten : (Doc.ofJson doubledJson).IsWritten doubledJson.text :=
    Doc.isWritten_text (by decide)
  have hchildren : Definition.Field.childNodes.IsNamedBy (.text (some "child_nodes")) :=
    ⟨"child_nodes", by decide, rfl⟩
  have hnode : Definition.StandsIn (.obj (Doc.ofMembers doubledMembers) .closed)
      (Doc.ofJson doubledJson) :=
    .ofItem rfl (List.mem_cons_self ..)
      (.ofMember (List.mem_cons_of_mem _ (List.mem_cons_self ..)) hchildren (List.mem_cons_self ..)
        .root)
  have hfirst : Definition.Field.nodeType.IsNamedBy (.text (some "node_type")) :=
    ⟨"node_type", by decide, rfl⟩
  have hsecond : Definition.Field.nodeType.IsNamedBy (.text (some "nodeType")) :=
    ⟨"nodeType", by decide, rfl⟩
  have hfaulty : Definition.IsFaulty (Doc.ofMembers doubledMembers) :=
    .twice (a := (_, .str (some "Terminal"))) (b := (_, .str (some "Terminal")))
      (List.cons_sublist_cons.mpr (List.sublist_cons_self ..)) hfirst hsecond
  exact ⟨hwritten, hnode, hfaulty, loadTree_of_isFaulty hwritten hnode hfaulty⟩

end StepPlan
