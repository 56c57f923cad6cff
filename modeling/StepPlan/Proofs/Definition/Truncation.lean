import StepPlan.Proofs.Definition.Inversion
import StepPlan.Proofs.Json.FrontReading
import StepPlan.Proofs.Json.TruncatedText

/-!
# Definitions that break off

A text that breaks off before the bracket that closes its root is not loaded, whatever stands in it:
a node is read to its closing bracket, and no field that has not been given is filled in before
that. Main statement: `loadTree_of_break`.

What is reported is the end of the text, as long as everything in the text is read and not passed
over (`Definition.hasKnownMembers`) and no number becomes too large by losing its end
(`Json.hasIntegersOnly`).
-/

namespace StepPlan

open Json (Doc Ending Fault Key ReadError liftFault)

namespace Definition

/-! ## Nodes without other members -/

/-- The field that a key names. -/
def fieldOf? : Key → Option Field
  | .text (some name) => Field.ofKey? name
  | _ => none

mutual

/-- Every member of the objects that are nodes is a field: the node itself, and those beneath it. -/
def hasKnownMembers : Doc → Bool
  | .obj members _ => membersKnown members
  | .arr items _ => itemsKnown Field.inOrder items
  | _ => true

/-- The same of the members of a node. -/
def membersKnown : List (Key × Doc) → Bool
  | [] => true
  | (key, d) :: members =>
    (match fieldOf? key with
      | some f => contentKnown f d
      | none => false) && membersKnown members

/-- The same of the items of a node, which are these fields. -/
def itemsKnown : List Field → List Doc → Bool
  | f :: order, d :: items => contentKnown f d && itemsKnown order items
  | _, _ => true

/-- The same of the content of a field. -/
def contentKnown : Field → Doc → Bool
  | .childNodes, .arr items _ => nodesKnown items
  | _, _ => true

/-- The same of some nodes. -/
def nodesKnown : List Doc → Bool
  | [] => true
  | d :: items => hasKnownMembers d && nodesKnown items

end

/-! ## Only complete nodes are read -/

/-- Only a closed ending passes. -/
theorem eq_closed_of_check {ending : Ending} {u : Unit} (h : liftFault ending.check = .ok u) :
    ending = .closed := by
  cases ending with
  | closed => rfl
  | faulty fault => cases h

/-- What is read as a node is an array or object with its closing bracket. -/
theorem isOpen_of_ofDoc {n : Nat} {d : Doc} {a : Definition} (h : ofDoc n d = .ok a) :
    d.isOpen = false ∧ ∀ v, d ≠ .num v := by
  cases n with
  | zero => cases d <;> cases h
  | succ n =>
    cases d with
    | obj members ending =>
      rw [ofDoc] at h
      obtain ⟨fields, -, h⟩ := bind_eq_ok_iff.mp h
      obtain ⟨u, hcheck, -⟩ := bind_eq_ok_iff.mp h
      rw [eq_closed_of_check hcheck]
      exact ⟨rfl, nofun⟩
    | arr items ending =>
      rw [ofDoc, ofItems_eq] at h
      obtain ⟨fields, -, h⟩ := bind_eq_ok_iff.mp h
      obtain ⟨u, hcheck, -⟩ := bind_eq_ok_iff.mp h
      rw [eq_closed_of_check hcheck]
      exact ⟨rfl, nofun⟩
    | _ => cases h

/-! ## Fronts of nodes -/

/-- A broken piece is no string, by its own fault. -/
theorem string_broken (piece : Json.Broken) :
    (Doc.broken piece).string = .error (.fault piece.strict) :=
  rfl

/-- A broken piece is no node, by its own fault. -/
theorem ofDoc_broken (n : Nat) (piece : Json.Broken) :
    ofDoc n (.broken piece) = .error (.fault piece.strict) :=
  rfl

/-- A broken piece is no children, by its own fault. -/
theorem childrenOfDoc_broken (n : Nat) (piece : Json.Broken) :
    childrenOfDoc n (.broken piece) = .error (.fault piece.strict) :=
  rfl

/-- Of a string that is cut short only the end is missing. -/
theorem failsOnlyWith_string {d d' : Doc} {s : String} (h : d.IsFront d')
    (hs : d'.string = .ok s) : FailsOnlyWith (.fault .truncated) d.string := by
  cases h with
  | @piece piece _ h =>
    have hstrict := h (by rintro rfl; cases hs)
    rw [string_broken, hstrict]
    exact failsOnlyWith_error
  | _ => cases hs

/-- What is read as a value or as none is a value, perhaps null. -/
theorem exists_value_of_payload {n : Nat} {d : Doc} {v : Option Json} (h : payload n d = .ok v) :
    ∃ j, d.value n = .ok j := by
  by_cases hd : d = .null
  · subst hd
    exact ⟨.null, rfl⟩
  · rw [payload_of_ne_null hd] at h
    obtain ⟨j, hj, -⟩ := map_eq_ok_iff.mp h
    exact ⟨j, Json.liftFault_eq_ok_iff.mp hj⟩

/-- Of a value that is cut short only the end is missing. -/
theorem failsOnlyWith_payload {n : Nat} {d d' : Doc} {v : Option Json} (h : d.IsFront d')
    (hv : payload n d' = .ok v) : FailsOnlyWith (.fault .truncated) (payload n d) := by
  have hd : d ≠ .null := by cases h <;> exact nofun
  obtain ⟨j, hj⟩ := exists_value_of_payload hv
  rw [payload_of_ne_null hd]
  exact (Json.FailsOnlyWith.liftFault (Doc.failsOnlyWith_value h hj)).map some

/-- The content of a field is read from a front as far as that goes, if lists of children are. -/
theorem failsOnlyWith_readContent {n : Nat} {d d' : Doc} {f : Field} {c : Content}
    (h : d.IsFront d')
    (hchildren : ∀ ds, childrenOfDoc n d' = .ok ds → contentKnown .childNodes d' = true →
      FailsOnlyWith (.fault .truncated) (childrenOfDoc n d))
    (hread : readContent n d' f = .ok c) (hknown : contentKnown f d' = true) :
    FailsOnlyWith (.fault .truncated) (readContent n d f) := by
  cases f with
  | nodeType | operationType =>
    obtain ⟨s, hs, -⟩ := map_eq_ok_iff.mp hread
    exact (failsOnlyWith_string h hs).map _
  | values =>
    obtain ⟨v, hv, -⟩ := map_eq_ok_iff.mp hread
    exact (failsOnlyWith_payload h hv).map _
  | childNodes =>
    obtain ⟨ds, hds, -⟩ := map_eq_ok_iff.mp hread
    exact (hchildren ds hds hknown).map _

/-- A member whose name is that of a field is taken as that field. -/
theorem takeMember_of_fieldOf? {n : Nat} {fields : Fields} {key : Key} {f : Field}
    (hkey : fieldOf? key = some f) (d : Doc) :
    takeMember n fields (key, d)
      = if fields.has f then .error (.mismatch (.duplicate f.name))
        else readField n fields d f := by
  cases key with
  | broken piece => cases hkey
  | text name =>
    cases name with
    | none => cases hkey
    | some name =>
      have hname : Field.ofKey? name = some f := hkey
      have hread : liftFault (Key.text (some name)).read = .ok name := rfl
      simp only [takeMember, hread, bind, Except.bind, hname]

/-- A front of the members of a node that can be read has nothing begun at its end but a value. -/
theorem fault_eq_of_ofMembers {fault : Fault} {members members' : List (Key × Doc)} {n : Nat}
    {fields after : Fields} (h : Doc.HaveFront fault members members')
    (hafter : ofMembers n fields members = .ok after) : fault = .truncated := by
  induction members generalizing members' fields with
  | nil =>
    cases h
    rfl
  | cons m members ih =>
    cases h with
    | key hpiece =>
      rw [ofMembers] at hafter
      cases hafter
    | last hfront => rfl
    | cons hfront =>
      rw [ofMembers_cons] at hafter
      obtain ⟨between, -, hafter⟩ := bind_eq_ok_iff.mp hafter
      exact ih hfront hafter

mutual

/-- A front of a node without other members is truncated, if it can be read at all. -/
theorem failsOnlyWith_ofDoc : ∀ {d d' : Doc} {n : Nat} {a : Definition}, d.IsFront d' →
    ofDoc n d' = .ok a → hasKnownMembers d' = true →
      FailsOnlyWith (.fault .truncated) (ofDoc n d)
  | _, d', n, a, @Doc.IsFront.piece piece _ h, ha, _ => by
    have hstrict := h (by rintro rfl; cases ha)
    rw [ofDoc_broken, hstrict]
    exact failsOnlyWith_error
  | _, _, n, a, .num h, ha, _ => by cases ha
  | _, _, 0, a, .arr h, ha, _ => by cases ha
  | _, _, n + 1, a, .arr h, ha, hknown => by
    rw [ofDoc, ofItems_eq] at ha ⊢
    obtain ⟨fields, hfields, -⟩ := bind_eq_ok_iff.mp ha
    exact (failsOnlyWith_takeItems h hfields hknown).bind fun _ _ => failsOnlyWith_error
  | _, _, 0, a, .obj h, ha, _ => by cases ha
  | _, _, n + 1, a, .obj h, ha, hknown => by
    rw [ofDoc] at ha ⊢
    obtain ⟨fields, hfields, -⟩ := bind_eq_ok_iff.mp ha
    refine (failsOnlyWith_ofMembers h hfields hknown).bind fun after hafter => ?_
    rw [fault_eq_of_ofMembers h hafter]
    exact failsOnlyWith_error

/-- Of children that are cut short only the end is missing. -/
theorem failsOnlyWith_childrenOfDoc : ∀ {d d' : Doc} {n : Nat} {ds : List Definition},
    d.IsFront d' → childrenOfDoc n d' = .ok ds → contentKnown .childNodes d' = true →
      FailsOnlyWith (.fault .truncated) (childrenOfDoc n d)
  | _, d', n, ds, @Doc.IsFront.piece piece _ h, hds, _ => by
    have hstrict := h (by rintro rfl; cases hds)
    rw [childrenOfDoc_broken, hstrict]
    exact failsOnlyWith_error
  | _, _, n, ds, .num h, hds, _ => by cases hds
  | _, _, 0, ds, .arr h, hds, _ => by cases hds
  | _, _, n + 1, ds, .arr h, hds, hknown => by
    rw [childrenOfDoc] at hds ⊢
    obtain ⟨ds', hds', -⟩ := bind_eq_ok_iff.mp hds
    exact (failsOnlyWith_ofDocs h hds' hknown).bind fun _ _ => failsOnlyWith_error
  | _, _, n, ds, .obj h, hds, _ => by cases hds

/-- Of nodes that are cut short only the end is missing. -/
theorem failsOnlyWith_ofDocs : ∀ {items items' : List Doc} {n : Nat} {ds : List Definition},
    Doc.AreFront items items' → ofDocs n items' = .ok ds → nodesKnown items' = true →
      FailsOnlyWith (.fault .truncated) (ofDocs n items)
  | _, _, _, _, .nil, _, _ => failsOnlyWith_ok _
  | _, _, _, _, .last h, hds, hknown => by
    rw [ofDocs] at hds ⊢
    obtain ⟨a, ha, -⟩ := bind_eq_ok_iff.mp hds
    obtain ⟨hfirst, -⟩ := Bool.and_eq_true_iff.mp hknown
    exact (failsOnlyWith_ofDoc h ha hfirst).bind fun _ _ => failsOnlyWith_ok _
  | _, _, _, _, .cons h, hds, hknown => by
    rw [ofDocs] at hds ⊢
    obtain ⟨a, ha, hds⟩ := bind_eq_ok_iff.mp hds
    obtain ⟨as, has, -⟩ := bind_eq_ok_iff.mp hds
    obtain ⟨-, hrest⟩ := Bool.and_eq_true_iff.mp hknown
    rw [ha]
    exact (failsOnlyWith_ofDocs h has hrest).bind fun _ _ => failsOnlyWith_ok _

/-- Of the items of a node that are cut short only the end is missing. -/
theorem failsOnlyWith_takeItems : ∀ {items items' : List Doc} {n : Nat} {order : List Field}
    {fields after : Fields}, Doc.AreFront items items' →
    takeItems n order fields items' = .ok after → itemsKnown order items' = true →
      FailsOnlyWith (.fault .truncated) (takeItems n order fields items)
  | _, _, _, [], _, _, .nil, _, _ => failsOnlyWith_ok _
  | _, _, _, _ :: _, _, _, .nil, _, _ => failsOnlyWith_ok _
  | _, _, _, [], _, _, .last h, hafter, _ => by cases hafter
  | _, _, _, f :: order, _, _, @Doc.AreFront.last d d' rest h, hafter, hknown => by
    -- The item that is cut short is the last one there is, so what comes after it plays no part.
    rw [takeItems] at hafter ⊢
    obtain ⟨between, hfirst, -⟩ := bind_eq_ok_iff.mp hafter
    obtain ⟨c, hc, -⟩ := map_eq_ok_iff.mp hfirst
    obtain ⟨hcontent, -⟩ := Bool.and_eq_true_iff.mp hknown
    refine ((failsOnlyWith_readContent h (fun ds => failsOnlyWith_childrenOfDoc h) hc
      hcontent).map _).bind fun _ _ => ?_
    cases order <;> exact failsOnlyWith_ok _
  | _, _, _, [], _, _, .cons h, hafter, _ => by cases hafter
  | _, _, _, f :: order, _, _, @Doc.AreFront.cons d items items' h, hafter, hknown => by
    rw [takeItems] at hafter ⊢
    obtain ⟨between, hfirst, hafter⟩ := bind_eq_ok_iff.mp hafter
    obtain ⟨-, hrest⟩ := Bool.and_eq_true_iff.mp hknown
    rw [hfirst]
    exact failsOnlyWith_takeItems h hafter hrest

/-- Of the members of a node that are cut short only the end is missing. -/
theorem failsOnlyWith_ofMembers : ∀ {fault : Fault} {members members' : List (Key × Doc)} {n : Nat}
    {fields after : Fields}, Doc.HaveFront fault members members' →
    ofMembers n fields members' = .ok after → membersKnown members' = true →
      FailsOnlyWith (.fault .truncated) (ofMembers n fields members)
  | _, _, _, _, _, _, .nil, _, _ => failsOnlyWith_ok _
  | _, _, _, _, _, _, @Doc.HaveFront.key piece m rest h, hafter, _ => by
    -- Cut short inside a key.
    obtain ⟨key, d⟩ := m
    rw [ofMembers] at hafter ⊢
    obtain ⟨name, hname, -⟩ := bind_eq_ok_iff.mp hafter
    have hstrict := h (by rintro rfl; cases hname)
    rw [Key.read, hstrict]
    exact failsOnlyWith_error
  | _, _, _, _, _, _, @Doc.HaveFront.last key d d' rest h, hafter, hknown => by
    rw [ofMembers_cons] at hafter ⊢
    -- Cut short inside the value of a member, whose field is known.
    obtain ⟨between, hfirst, -⟩ := bind_eq_ok_iff.mp hafter
    obtain ⟨hmember, -⟩ := Bool.and_eq_true_iff.mp hknown
    cases hkey : fieldOf? key with
    | none =>
      rw [hkey] at hmember
      cases hmember
    | some f =>
      rw [hkey] at hmember
      rw [takeMember_of_fieldOf? hkey] at hfirst ⊢
      split at hfirst
      · cases hfirst
      next hhas =>
        obtain ⟨c, hc, -⟩ := map_eq_ok_iff.mp hfirst
        rw [if_neg hhas]
        exact ((failsOnlyWith_readContent h (fun ds => failsOnlyWith_childrenOfDoc h) hc
          hmember).map _).bind fun _ _ => failsOnlyWith_ok _
  | _, _, _, _, _, _, @Doc.HaveFront.cons fault m members members' h, hafter, hknown => by
    obtain ⟨key, d⟩ := m
    rw [ofMembers_cons] at hafter ⊢
    obtain ⟨between, hfirst, hafter⟩ := bind_eq_ok_iff.mp hafter
    obtain ⟨-, hrest⟩ := Bool.and_eq_true_iff.mp hknown
    rw [hfirst]
    exact failsOnlyWith_ofMembers h hafter hrest

end

/-- A text is no definition when it is read as none. -/
theorem ofText_eq_error_iff {s : String} :
    (∃ e, ofText s = .error e) ↔ ∀ d, ofText s ≠ .ok d := by
  cases h : ofText s with
  | error e => exact iff_of_true ⟨e, rfl⟩ nofun
  | ok d => exact iff_of_false nofun fun hne => hne d rfl

/-- A text that is a definition is complete, and no number, which more digits could go on. -/
theorem isComplete_of_ofText {s : String} {d : Definition} (h : ofText s = .ok d) :
    Doc.IsComplete s ∧ ∀ v, (Doc.ofText s).root ≠ .num v := by
  obtain ⟨hread, hover⟩ := ofText_eq_ok_iff.mp h
  obtain ⟨hopen, hnum⟩ := isOpen_of_ofDoc hread
  exact ⟨⟨hopen, hover⟩, hnum⟩

section

variable {s front : String} {rest : List Char} {d : Definition}
  (hs : s.toList = front.toList ++ rest) (hrest : ∃ c ∈ rest, Json.Mode.isBlank c = false)
  (h : ofText s = .ok d)

include hs hrest h

/-- A text that has lost more than blanks at its end is not read. -/
theorem exists_error_of_break : ∃ e, ofText front = .error e := by
  refine ofText_eq_error_iff.mpr fun a ha => ?_
  obtain ⟨hcomplete, hnum⟩ := isComplete_of_ofText ha
  rcases Doc.not_isComplete_or_num hs (isComplete_of_ofText h).1 hrest with hnot | ⟨v, hv⟩
  · exact hnot hcomplete
  · exact hnum v hv

/-- If all of the text is read and its numbers are whole, what is reported is its end. -/
theorem ofText_of_break (hknown : hasKnownMembers (Doc.ofText s).root = true)
    (hintegers : Json.hasIntegersOnly s = true) :
    ofText front = .error (.fault .truncated) := by
  obtain ⟨hread, -⟩ := ofText_eq_ok_iff.mp h
  have hfront := Doc.isFront_ofText hs (isComplete_of_ofText h).1 hrest hintegers
  have hfails := failsOnlyWith_ofDoc hfront hread hknown
  rw [ofText, Json.readText]
  cases hroot : ofDoc Json.maxDepth (Doc.ofText front).root with
  | error e =>
    obtain rfl := hfails e hroot
    rfl
  | ok a =>
    obtain ⟨hopen, hnum⟩ := isOpen_of_ofDoc hroot
    rcases hfront.isOpen_or_num with htrue | ⟨v, hv⟩
    · rw [htrue] at hopen
      cases hopen
    · exact absurd hv (hnum v)

end

end Definition

/-- A text can be read when it is a definition, whatever its types name. -/
theorem loadTree_ne_unreadable_iff {s : String} :
    (∀ e, loadTree s ≠ .error (.unreadable e)) ↔ ∃ d, Definition.ofText s = .ok d := by
  unfold loadTree
  cases Definition.ofText s with
  | error e => exact iff_of_false (fun h => h e rfl) nofun
  | ok d =>
    refine iff_of_true (fun e => ?_) ⟨d, rfl⟩
    dsimp only
    cases d.toTree <;> exact nofun

/-- What is no definition fails as such. -/
theorem loadTree_of_ofText_error {s : String} {e : ReadError}
    (h : Definition.ofText s = .error e) : loadTree s = .error (.unreadable e) := by
  unfold loadTree
  rw [h]

/-- Without the blanks at its end, a text is loaded as the same. -/
theorem loadTree_of_blanks {s front : String} {rest : List Char}
    (hs : s.toList = front.toList ++ rest) (hblanks : ∀ c ∈ rest, Json.Mode.isBlank c = true)
    (hload : ∀ e, loadTree s ≠ .error (.unreadable e)) : loadTree front = loadTree s := by
  obtain ⟨d, hd⟩ := loadTree_ne_unreadable_iff.mp hload
  have hdoc := Doc.ofText_of_blanks hs (Definition.isComplete_of_ofText hd).1 hblanks
  have htext : Definition.ofText front = Definition.ofText s := by
    rw [Definition.ofText, Definition.ofText, Json.readText, Json.readText, hdoc]
  rw [loadTree, loadTree, htext]

/-- If a text can be read, whatever has lost something of it but blanks, such as the bracket that
closes its root, cannot be. If each member of its nodes is a field and each of its numbers a whole
number without an exponent, what is reported is that the text ends too early. -/
theorem loadTree_of_break {s front : String} {rest : List Char}
    (hs : s.toList = front.toList ++ rest) (hrest : ∃ c ∈ rest, Json.Mode.isBlank c = false)
    (hload : ∀ e, loadTree s ≠ .error (.unreadable e)) :
    (∃ e, loadTree front = .error (.unreadable e))
      ∧ (Definition.hasKnownMembers (Doc.ofText s).root = true → Json.hasIntegersOnly s = true →
        loadTree front = .error (.unreadable (.fault .truncated))) := by
  obtain ⟨d, hd⟩ := loadTree_ne_unreadable_iff.mp hload
  constructor
  · obtain ⟨e, he⟩ := Definition.exists_error_of_break hs hrest hd
    exact ⟨e, loadTree_of_ofText_error he⟩
  · intro hknown hintegers
    exact loadTree_of_ofText_error (Definition.ofText_of_break hs hrest hd hknown hintegers)

/-- The beginning of a text, up to the first half of a character that is spelled as two escapes. -/
def halfText : String :=
  "\x7b\"nodeType\":\"Terminal\",\"operationType\":\"\\ud83d"

/-- The end of the text, with the other half. -/
def otherHalf : String :=
  "\\ude00\",\"values\":[-2]\x7d\n"

/-- Half of the sample text is told to end too early. -/
theorem loadTree_halfText :
    (∀ e, loadTree (halfText ++ otherHalf) ≠ .error (.unreadable e))
      ∧ (∃ e, loadTree halfText = .error (.unreadable e))
      ∧ loadTree halfText = .error (.unreadable (.fault .truncated)) := by
  have hload : (loadTree (halfText ++ otherHalf)).toOption.isSome = true := by decide +kernel
  have hreadable : ∀ e, loadTree (halfText ++ otherHalf) ≠ .error (.unreadable e) := by
    intro e he
    rw [he] at hload
    cases hload
  have hrest : ∃ c ∈ otherHalf.toList, Json.Mode.isBlank c = false := ⟨'v', by decide +kernel, rfl⟩
  obtain ⟨herror, hend⟩ := loadTree_of_break String.toList_append hrest hreadable
  exact ⟨hreadable, herror, hend (by decide +kernel) (by decide +kernel)⟩

end StepPlan
