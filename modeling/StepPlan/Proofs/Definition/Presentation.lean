import StepPlan.Definition.Load
import StepPlan.Proofs.Definition.RoundTrip

/-!
# The texts of a definition

A definition is written in many ways. A node is an object or an array; in an object the fields stand
in any order and each goes by either of its names, among members of other names with any values; a
payload that is none and children that are none may be left out; and the document has all the texts
of a JSON document. `Definition.IsWrittenAs` says which texts are texts of a definition.

All of them are loaded alike: `loadTree_of_isWrittenAs`. The text that a definition is written as is
one of them: `Definition.isWrittenAs_text`.
-/

namespace StepPlan

open Json (Doc Key)

namespace Definition

/-! ## Documents -/

/-- The document, where a payload may stand, says the payload: nothing or `null` says that there is
none. -/
inductive SaysPayload (n : Nat) : Option Doc → Option Json → Prop where
  | absent : SaysPayload n none none
  | null : SaysPayload n (some .null) none
  | value {doc : Doc} {v : Json} (h : doc.SaysValue n v) (hnull : v ≠ .null) :
      SaysPayload n (some doc) (some v)

/-- The fields of a node as members, under some of their names. -/
def fieldMembers (key : Field → String) (nodeType operationType : String)
    (payload children : Option Doc) : List (Key × Doc) :=
  [(.text (some (key .nodeType)), .str (some nodeType)),
    (.text (some (key .operationType)), .str (some operationType))]
    ++ (payload.map fun d => (Key.text (some (key .values)), d)).toList
    ++ (children.map fun d => (Key.text (some (key .childNodes)), d)).toList

/-- The member has a name that is that of no field, and any value. -/
def IsOther (m : Key × Doc) : Prop :=
  ∃ name, m.1 = .text (some name) ∧ (∀ f : Field, name ∉ f.spellings) ∧ m.2.isClosed = true

mutual

/-- The document says the node, with arrays and objects nested at most so deep. What stands in
members of other names does not count. -/
inductive SaysNode : Nat → Doc → Definition → Prop where
  /-- As an object, the members in any order. -/
  | object {n : Nat} {members others : List (Key × Doc)} {key : Field → String}
      {nodeType operationType : String} {payload children : Option Doc} {values : Option Json}
      {childNodes : List Definition} (hkey : ∀ f, key f ∈ f.spellings)
      (hothers : ∀ m ∈ others, IsOther m)
      (hperm : members.Perm
        (fieldMembers key nodeType operationType payload children ++ others))
      (hpayload : SaysPayload n payload values) (hchildren : SaysChildren n children childNodes) :
      SaysNode (n + 1) (.obj members .closed) ⟨nodeType, operationType, values, childNodes⟩
  /-- As an array, of which the end may be cut. -/
  | array {n : Nat} {nodeType operationType : String} {payload children : Option Doc}
      {values : Option Json} {childNodes : List Definition}
      (hcut : children.isSome = true → payload.isSome = true)
      (hpayload : SaysPayload n payload values) (hchildren : SaysChildren n children childNodes) :
      SaysNode (n + 1)
        (.arr (.str (some nodeType) :: .str (some operationType)
          :: (payload.toList ++ children.toList)) .closed)
        ⟨nodeType, operationType, values, childNodes⟩

/-- The document, where the children may stand, says the children: nothing says that there are none.
-/
inductive SaysChildren : Nat → Option Doc → List Definition → Prop where
  | absent {n : Nat} : SaysChildren n none []
  | list {n : Nat} {docs : List Doc} {ds : List Definition} (h : SaysNodes n docs ds) :
      SaysChildren (n + 1) (some (.arr docs .closed)) ds

/-- The documents say the nodes, one by one. -/
inductive SaysNodes : Nat → List Doc → List Definition → Prop where
  | nil {n : Nat} : SaysNodes n [] []
  | cons {n : Nat} {doc : Doc} {docs : List Doc} {d : Definition} {ds : List Definition}
      (h : SaysNode n doc d) (hrest : SaysNodes n docs ds) : SaysNodes n (doc :: docs) (d :: ds)

end

/-- The text is one of the definition. -/
def IsWrittenAs (d : Definition) (s : String) : Prop :=
  ∃ doc : Doc, SaysNode Json.maxDepth doc d ∧ doc.IsWritten s

/-! ## The text that a definition is written as -/

/-- A plain value is said by what it is written as, and a null says that there is none. -/
theorem saysPayload_ofJson {n : Nat} {values : Option Json} (h : isPlainPayload values = true)
    (hdepth : payloadDepth values ≤ n) :
    SaysPayload n (values.map Doc.ofJson) (nonNull values) := by
  cases values with
  | none => exact .absent
  | some v =>
    by_cases hnull : v = .null
    · subst hnull
      exact .null
    · rw [nonNull_some hnull]
      exact .value (Doc.saysValue_ofJson v (Bool.and_eq_true_iff.mp h).2 hdepth) hnull

mutual

/-- The document that a definition is written as says the definition, except for its payloads
`null`. -/
theorem saysNode_ofJson : ∀ (d : Definition) {n : Nat}, d.isPlain = true → d.toJson.depth ≤ n →
    SaysNode n (Doc.ofJson d.toJson) d.withoutNulls
  | ⟨nodeType, operationType, values, childNodes⟩, 0, _, hdepth => by
    rw [depth_toJson] at hdepth
    exact absurd hdepth (Nat.not_succ_le_zero _)
  | ⟨nodeType, operationType, values, childNodes⟩, n + 1, h, hdepth => by
    obtain ⟨hvalues, hchildren⟩ := Bool.and_eq_true_iff.mp h
    rw [depth_toJson, Nat.add_le_add_iff_right, Nat.max_le] at hdepth
    obtain ⟨hpayload, hnodes⟩ := hdepth
    have hname : ∀ f : Field, f.name ∈ f.spellings := by
      intro f
      cases f <;> decide
    have hothers : ∀ m ∈ ([] : List (Key × Doc)), IsOther m := nofun
    rw [ofJson_toJson, withoutNulls]
    refine .object hname hothers ?_ (saysPayload_ofJson hvalues hpayload)
      (saysChildren_ofItems childNodes hchildren hnodes)
    rw [List.append_nil]
    cases values <;> exact .refl _

/-- Children are said by the array that they are written as. -/
theorem saysChildren_ofItems : ∀ (ds : List Definition) {n : Nat}, arePlain ds = true →
    Json.itemDepth (toJsons ds) + 1 ≤ n →
    SaysChildren n (some (.arr (Doc.ofItems (toJsons ds)) .closed)) (withoutNullsAll ds)
  | _, 0, _, hdepth => absurd hdepth (Nat.not_succ_le_zero _)
  | ds, n + 1, h, hdepth => .list (saysNodes_ofItems ds h (Nat.le_of_succ_le_succ hdepth))

/-- Nodes are said by what they are written as, one by one. -/
theorem saysNodes_ofItems : ∀ (ds : List Definition) {n : Nat}, arePlain ds = true →
    Json.itemDepth (toJsons ds) ≤ n →
    SaysNodes n (Doc.ofItems (toJsons ds)) (withoutNullsAll ds)
  | [], _, _, _ => .nil
  | d :: ds, n, h, hdepth => by
    obtain ⟨hfirst, hrest⟩ := Bool.and_eq_true_iff.mp h
    obtain ⟨hdeep, hdeeps⟩ := Nat.max_le.mp hdepth
    exact .cons (saysNode_ofJson d hfirst hdeep) (saysNodes_ofItems ds hrest hdeeps)

end

/-- The text that a definition is written as is one of its texts, except for its payloads `null`. -/
theorem isWrittenAs_text {d : Definition} (h : d.isPlain = true)
    (hnesting : Json.nesting d.text ≤ 127) : d.withoutNulls.IsWrittenAs d.text := by
  rw [text, Json.nesting_text] at hnesting
  exact ⟨Doc.ofJson d.toJson, saysNode_ofJson d h hnesting, Doc.isWritten_text (isWhole_toJson d h)⟩

/-! ## Reading -/

/-- What says a value is read as it. -/
theorem payload_of_saysPayload {n : Nat} {doc : Doc} {values : Option Json}
    (h : SaysPayload n (some doc) values) : payload n doc = .ok values := by
  cases h with
  | null => rfl
  | value h hnull =>
    have hdoc : doc ≠ .null := by
      rintro rfl
      cases h
      exact hnull rfl
    rw [payload_of_ne_null hdoc, Doc.value_of_saysValue h]
    rfl

/-- Members of other names are passed over. -/
theorem ofMembers_of_isOther {n : Nat} {fields : Fields} {others : List (Key × Doc)}
    (h : ∀ m ∈ others, IsOther m) : ofMembers n fields others = .ok fields := by
  induction others with
  | nil => rfl
  | cons m others ih =>
    obtain ⟨name, hname, hother, hclosed⟩ := h m (List.mem_cons_self ..)
    obtain ⟨key, d⟩ := m
    obtain rfl : key = .text (some name) := hname
    have hnone : Field.ofKey? name = none := Field.ofKey?_of_not_mem_spellings hother
    have hskip : d.skip = .ok () := Doc.skip_of_isClosed hclosed
    rw [ofMembers]
    simp only [Key.read, Json.liftFault, bind, Except.bind, hnone, hskip]
    exact ih fun m hm => h m (List.mem_cons_of_mem _ hm)

section

variable {n : Nat} {nodeType operationType : String} {payload? children? : Option Doc}
  {values : Option Json} {childNodes : List Definition}

/-- The fields of a node are read from its members. -/
theorem ofMembers_fieldMembers {key : Field → String} (hkey : ∀ f, key f ∈ f.spellings)
    (hpayload : SaysPayload n payload? values)
    (hchildren : ∀ d, children? = some d → childrenOfDoc n d = .ok childNodes)
    {others : List (Key × Doc)} (hothers : ∀ m ∈ others, IsOther m) :
    ofMembers n .empty (fieldMembers key nodeType operationType payload? children? ++ others)
      = .ok ⟨some nodeType, some operationType, payload?.map fun _ => values,
          children?.map fun _ => childNodes⟩ := by
  have hlast : ∀ given : Option (Option Json),
      ofMembers n ⟨some nodeType, some operationType, given, none⟩
          ((children?.map fun d => (Key.text (some (key .childNodes)), d)).toList ++ others)
        = .ok ⟨some nodeType, some operationType, given, children?.map fun _ => childNodes⟩ := by
    -- The children come last, whether or not a value has been given before them.
    intro given
    cases children? with
    | none => exact ofMembers_of_isOther hothers
    | some d =>
      show ofMembers n _ ((.text (some (key .childNodes)), d) :: others) = _
      rw [ofMembers_childNodes (hkey .childNodes), hchildren d rfl]
      exact ofMembers_of_isOther hothers
  rw [fieldMembers, List.append_assoc, List.append_assoc]
  show ofMembers n .empty (_ :: _ :: _) = _
  rw [ofMembers_names (hkey .nodeType) (hkey .operationType)]
  cases payload? with
  | none => exact hlast none
  | some d =>
    show ofMembers n _ ((.text (some (key .values)), d) :: _) = _
    rw [ofMembers_values (hkey .values), payload_of_saysPayload hpayload]
    exact hlast (some values)

/-- The node of these fields. A field that is left out has been said to be none. -/
theorem finish_fields (hpayload : SaysPayload n payload? values)
    (hchildren : SaysChildren n children? childNodes) :
    Fields.finish ⟨some nodeType, some operationType, payload?.map fun _ => values,
        children?.map fun _ => childNodes⟩
      = .ok ⟨nodeType, operationType, values, childNodes⟩ := by
  have hvalues : (payload?.map fun _ => values).getD none = values := by
    cases hpayload <;> rfl
  have hnodes : (children?.map fun _ => childNodes).getD [] = childNodes := by
    cases hchildren <;> rfl
  rw [Fields.finish, hvalues, hnodes]

/-- The items of an array are read in their order, up to where it is cut. -/
theorem ofItems_of_cut (hcut : children?.isSome = true → payload?.isSome = true)
    (hpayload : SaysPayload n payload? values) (hchildren : SaysChildren n children? childNodes)
    (hread : ∀ d, children? = some d → childrenOfDoc n d = .ok childNodes) :
    ofItems n .closed
        (.str (some nodeType) :: .str (some operationType)
          :: (payload?.toList ++ children?.toList))
      = .ok ⟨nodeType, operationType, values, childNodes⟩ := by
  -- An array may end behind the names or behind the value, but children need a value before them.
  cases payload? with
  | none =>
    cases children? with
    | none =>
      cases hpayload
      cases hchildren
      rfl
    | some d => exact absurd (hcut rfl) Bool.false_ne_true
  | some d =>
    have hvalues : payload n d = .ok values := payload_of_saysPayload hpayload
    cases children? with
    | none =>
      cases hchildren
      show (payload n d >>= fun values =>
        Except.ok (Definition.mk nodeType operationType values [])) = _
      rw [hvalues]
      rfl
    | some e =>
      show (payload n d >>= fun values => childrenOfDoc n e >>= fun ds =>
        Except.ok (Definition.mk nodeType operationType values ds)) = _
      rw [hvalues, hread e rfl]
      rfl

end

mutual

/-- A document that says a node is read as that node. -/
theorem ofDoc_of_saysNode : ∀ {n : Nat} {doc : Doc} {d : Definition}, SaysNode n doc d →
    ofDoc n doc = .ok d
  | _, _, _, .object hkey hothers hperm hpayload hchildren => by
    have hread := childrenOfDoc_of_saysChildren hchildren
    rw [ofDoc, ofMembers_of_perm hperm.symm
      (ofMembers_fieldMembers hkey hpayload hread hothers)]
    exact finish_fields hpayload hchildren
  | _, _, _, .array hcut hpayload hchildren => by
    have hread := childrenOfDoc_of_saysChildren hchildren
    rw [ofDoc, ofItems_of_cut hcut hpayload hchildren hread]

/-- What says children is read as them. -/
theorem childrenOfDoc_of_saysChildren : ∀ {n : Nat} {children : Option Doc} {ds : List Definition},
    SaysChildren n children ds → ∀ doc, children = some doc → childrenOfDoc n doc = .ok ds
  | _, _, _, .absent, _, h => nomatch h
  | _, _, _, .list h, _, hdoc => by
    obtain rfl := Option.some.inj hdoc
    rw [childrenOfDoc, ofDocs_of_saysNodes h]
    rfl

/-- What says nodes is read as them, one by one. -/
theorem ofDocs_of_saysNodes : ∀ {n : Nat} {docs : List Doc} {ds : List Definition},
    SaysNodes n docs ds → ofDocs n docs = .ok ds
  | _, _, _, .nil => rfl
  | _, _, _, .cons h hrest => by
    rw [ofDocs, ofDoc_of_saysNode h, ofDocs_of_saysNodes hrest]
    rfl

end

/-- A text of a definition is read as that definition. -/
theorem ofText_of_isWrittenAs {d : Definition} {s : String} (h : d.IsWrittenAs s) :
    ofText s = .ok d := by
  obtain ⟨doc, hsays, hwritten⟩ := h
  rw [ofText, Json.readText_of_isWritten _ hwritten, ofDoc_of_saysNode hsays]

end Definition

/-- Two texts of one definition are loaded as the same tree, or are refused for the same node of
unknown kind. -/
theorem loadTree_of_isWrittenAs {d : Definition} {s s' : String} (h : d.IsWrittenAs s)
    (h' : d.IsWrittenAs s') :
    (∃ t, loadTree s = .ok t ∧ loadTree s' = .ok t)
      ∨ ∃ e, loadTree s = .error (.unknownKind e) ∧ loadTree s' = .error (.unknownKind e) := by
  unfold loadTree
  rw [Definition.ofText_of_isWrittenAs h, Definition.ofText_of_isWrittenAs h']
  cases htree : d.toTree with
  | ok t => exact .inl ⟨t, by simp only [htree], by simp only [htree]⟩
  | error e => exact .inr ⟨e, by simp only [htree], by simp only [htree]⟩

/-- A definition with a payload of two members above a node without payload and children. -/
def briefDefinition : Definition :=
  ⟨"NonTerminal", "x", some (.obj [("a", .num (.int 1)), ("b", .null)]),
    [⟨"Terminal", "y", none, []⟩]⟩

/-- A text of it that shares little with the text it is written as. -/
def looseText : String :=
  "\x7b\"id\": -0.5e3, " ++ "\"child_nodes\": [[\"Terminal\", \"y\"]], "
    ++ "\"values\": \x7b\"b\": null, \"a\": 1\x7d, " ++ "\"operation_type\": \"\\u0078\", "
    ++ "\"node_type\": \"NonTerminal\"\x7d"

/-- What the text says. -/
def looseDoc : Doc :=
  .obj [(.text (some "id"), .num (Json.Numeral.valueOf ['-', '0', '.', '5', 'e', '3'])),
    (.text (some "child_nodes"),
      .arr [.arr [.str (some "Terminal"), .str (some "y")] .closed] .closed),
    (.text (some "values"),
      .obj [(.text (some "b"), .null), (.text (some "a"), .num (some (.int 1)))] .closed),
    (.text (some "operation_type"), .str (some "x")),
    (.text (some "node_type"), .str (some "NonTerminal"))] .closed

/-- The loose document says the brief definition. -/
theorem saysNode_looseDoc : Definition.SaysNode Json.maxDepth looseDoc briefDefinition := by
  have hkey : ∀ f : Definition.Field, f.spellings.getLastD "" ∈ f.spellings := by
    intro f
    cases f <;> decide
  have hothers : ∀ m ∈ [(Key.text (some "id"),
      Doc.num (Json.Numeral.valueOf ['-', '0', '.', '5', 'e', '3']))], Definition.IsOther m := by
    intro m hm
    obtain rfl := List.mem_singleton.mp hm
    refine ⟨"id", rfl, ?_, rfl⟩
    intro f
    cases f <;> decide
  have hpayload : Doc.SaysValue 126
      (.obj [(.text (some "b"), .null), (.text (some "a"), .num (some (.int 1)))] .closed)
      (.obj [("a", .num (.int 1)), ("b", .null)]) :=
    .obj (.swap _ _ _) (.cons (.num _) (.cons .null .nil)) (by decide)
  have hchild : Definition.SaysNode 125
      (.arr [.str (some "Terminal"), .str (some "y")] .closed) ⟨"Terminal", "y", none, []⟩ :=
    .array id .absent .absent
  have hreverse : ∀ a b c d e : Key × Doc, [a, b, c, d, e].Perm [e, d, c, b, a] :=
    fun a b c d e => List.reverse_perm [e, d, c, b, a]
  -- The members stand in reverse order, a number of no field among them.
  refine .object hkey hothers ?_ (.value hpayload nofun) (.list (.cons hchild .nil))
  exact hreverse _ _ _ _ _

/-- The loose text has the tokens of the loose document. -/
theorem lexes_looseText : Json.Lexes looseDoc.tokens looseText.toList := by
  have hplain : ∀ s : String, Json.isUnescaped s = true →
      Json.IsLexeme (.str (some s)) ('"' :: (s.toList ++ ['"'])) := fun _ =>
    Json.isLexeme_of_isUnescaped
  have hmember : ∀ (s : String) {ts : List Json.Token} {cs : List Char},
      Json.isUnescaped s = true → Json.Lexes ts cs →
      Json.Lexes (.str (some s) :: .colon :: ts) ('"' :: (s.toList ++ ['"']) ++ ':' :: ' ' :: cs) :=
    fun s _ _ hs h => .token (hplain s hs) (.token .colon (.blank rfl h))
  have hnext : ∀ {ts : List Json.Token} {cs : List Char}, Json.Lexes ts cs →
      Json.Lexes (.comma :: ts) (',' :: ' ' :: cs) := fun h => .token .comma (.blank rfl h)
  have hone : Json.IsLexeme (.num (some (.int 1))) ['1'] :=
    Json.isLexeme_number (n := .int 1) (by decide)
  have hnumber : Json.IsLexeme (.num (Json.Numeral.valueOf ['-', '0', '.', '5', 'e', '3']))
      ['-', '0', '.', '5', 'e', '3'] := by
    have hfraction : Json.Numeral.IsFractionPart ['.', '5'] :=
      .present ⟨List.cons_ne_nil _ _, List.forall_mem_singleton.mpr rfl⟩
    have hexponent : Json.Numeral.IsExponentPart ('e' :: ([] ++ ['3'])) :=
      .present (.inl rfl) (.inl rfl) ⟨List.cons_ne_nil _ _, List.forall_mem_singleton.mpr rfl⟩
    exact .num (.parts (.inr rfl) .zero hfraction hexponent)
  have hcode : Json.IsLexeme (.str (some "x")) ['"', '\\', 'u', '0', '0', '7', '8', '"'] := by
    have hdigits : Json.IsCode 'x'.toNat ['0', '0', '7', '8'] :=
      .digits (.small (by decide : 0 < 16)) (.small (by decide : 0 < 16))
        (.small (by decide : 7 < 16)) (.small (by decide : 8 < 16))
    exact .str (.cons (.code hdigits) .nil) (.code 'x' .nil)
  -- The tokens one after the other, each with its characters and the blanks behind it.
  have hlexes : Json.Lexes looseDoc.tokens _ :=
    .token .openObject <| hmember "id" (by decide +kernel) <| .token hnumber <| hnext <|
      hmember "child_nodes" (by decide +kernel) <| .token .openArray <| .token .openArray <|
      .token (hplain "Terminal" (by decide +kernel)) <| hnext <|
      .token (hplain "y" (by decide +kernel)) <| .token .closeArray <| .token .closeArray <|
      hnext <| hmember "values" (by decide +kernel) <| .token .openObject <|
      hmember "b" (by decide +kernel) <| .token .null <| hnext <|
      hmember "a" (by decide +kernel) <| .token hone <| .token .closeObject <| hnext <|
      hmember "operation_type" (by decide +kernel) <| .token hcode <| hnext <|
      hmember "node_type" (by decide +kernel) <|
      .token (hplain "NonTerminal" (by decide +kernel)) <| .token .closeObject .nil
  have hchars : ∀ a b c d e : String, (a ++ b ++ c ++ d ++ e).toList
      = a.toList ++ b.toList ++ c.toList ++ d.toList ++ e.toList := by
    intro a b c d e
    simp only [String.toList_append]
  refine Eq.mp (congrArg (Json.Lexes looseDoc.tokens) (Eq.trans ?_ (hchars _ _ _ _ _).symm)) hlexes
  decide +kernel

/-- The brief text and the loose text are two presentations of one definition. -/
theorem loadTree_looseText :
    briefDefinition.IsWrittenAs briefDefinition.text ∧ briefDefinition.IsWrittenAs looseText
      ∧ ((∃ t, loadTree briefDefinition.text = .ok t ∧ loadTree looseText = .ok t)
        ∨ ∃ e, loadTree briefDefinition.text = .error (.unknownKind e)
            ∧ loadTree looseText = .error (.unknownKind e)) := by
  have hnesting : Json.nesting briefDefinition.text ≤ 127 := by
    rw [Definition.text, Json.nesting_text]
    decide +kernel
  have hown : briefDefinition.IsWrittenAs briefDefinition.text :=
    Definition.isWrittenAs_text (d := briefDefinition) (by decide +kernel) hnesting
  have hloose : briefDefinition.IsWrittenAs looseText :=
    ⟨looseDoc, saysNode_looseDoc, rfl, lexes_looseText⟩
  exact ⟨hown, hloose, loadTree_of_isWrittenAs hown hloose⟩

end StepPlan
