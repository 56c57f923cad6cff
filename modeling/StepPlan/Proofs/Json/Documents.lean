import StepPlan.Json.Reading

/-!
# Complete documents

A document is closed if its text has not broken off anywhere in it (`Doc.isClosed`). Its tokens
(`Doc.tokens`) build just this document and nothing behind it: `Doc.ofTokens_tokens`. A closed
document is passed over without a fault, whatever it says: `Doc.skip_of_isClosed`.
-/

namespace StepPlan.Json

/-- A key that has been read to its end. -/
def Key.isClosed : Key → Bool
  | .text _ => true
  | .broken _ => false

/-- The token of a key. -/
def Key.token : Key → Token
  | .text s => .str s
  | .broken piece => .broken piece

namespace Doc

mutual

/-- All arrays, objects and keys of a document have been read to their end. -/
def isClosed : Doc → Bool
  | .null | .bool _ | .num _ | .str _ => true
  | .arr items ending => decide (ending = .closed) && areClosed items
  | .obj members ending => decide (ending = .closed) && haveClosed members
  | .broken _ => false

/-- All of some items are closed. -/
def areClosed : List Doc → Bool
  | [] => true
  | item :: items => isClosed item && areClosed items

/-- All of some members are closed. -/
def haveClosed : List (Key × Doc) → Bool
  | [] => true
  | (key, item) :: members => key.isClosed && isClosed item && haveClosed members

end

mutual

/-- The tokens of a closed document. -/
def tokens : Doc → List Token
  | .null => [.null]
  | .bool b => [.bool b]
  | .num n => [.num n]
  | .str s => [.str s]
  | .arr [] _ => [.openArray, .closeArray]
  | .arr (item :: items) _ => .openArray :: (tokens item ++ itemTokens items)
  | .obj [] _ => [.openObject, .closeObject]
  | .obj ((key, item) :: members) _ =>
    .openObject :: key.token :: .colon :: (tokens item ++ memberTokens members)
  | .broken piece => [.broken piece]

/-- The tokens of the items after the first one, and the closing bracket. -/
def itemTokens : List Doc → List Token
  | [] => [.closeArray]
  | item :: items => .comma :: (tokens item ++ itemTokens items)

/-- The tokens of the members after the first one, and the closing brace. -/
def memberTokens : List (Key × Doc) → List Token
  | [] => [.closeObject]
  | (key, item) :: members =>
    .comma :: key.token :: .colon :: (tokens item ++ memberTokens members)

end

end Doc

namespace Builder

/-- What is read after some tokens. -/
def run (b : Builder) (ts : List Token) : Builder :=
  ts.foldl step b

@[simp] theorem run_cons (b : Builder) (t : Token) (ts : List Token) :
    b.run (t :: ts) = (b.step t).run ts := rfl

/-- What stands behind is built on what stands in front. -/
@[simp] theorem run_append (b : Builder) (ts us : List Token) :
    b.run (ts ++ us) = (b.run ts).run us :=
  List.foldl_append

/-- The first item of an array is read as any value, since no value starts with a closing bracket.
-/
theorem run_firstItem (d : Doc) (stack : List Frame) :
    (firstItem stack).run d.tokens = (value (.items [] :: stack)).run d.tokens := by
  have hstep : ∀ (t : Token) (ts : List Token), t ≠ .closeArray →
      (firstItem stack).run (t :: ts) = (value (.items [] :: stack)).run (t :: ts) := by
    intro t ts ht
    rw [run_cons, run_cons]
    exact congrArg (run · ts) (if_neg ht)
  -- No document starts with a closing bracket, so its first token opens the array's first item.
  cases d with
  | null | bool b | num n | str s | broken piece => exact hstep _ _ nofun
  | arr items ending =>
    cases items with
    | nil => exact hstep _ _ nofun
    | cons item items =>
      rw [Doc.tokens]
      exact hstep _ _ nofun
  | obj members ending =>
    cases members with
    | nil => exact hstep _ _ nofun
    | cons m members =>
      obtain ⟨key, item⟩ := m
      rw [Doc.tokens]
      exact hstep _ _ nofun

/-- A closed key is read where a key is wanted. -/
theorem onKey_token {key : Key} (h : key.isClosed = true) (members : List (Key × Doc))
    (stack : List Frame) : onKey key.token members stack = .colon members key stack := by
  cases key with
  | text s => rfl
  | broken piece => cases h

/-- So is the first key of an object. -/
theorem step_firstKey {key : Key} (h : key.isClosed = true) (stack : List Frame) :
    (firstKey stack).step key.token = .colon [] key stack := by
  cases key with
  | text s => rfl
  | broken piece => cases h

mutual

/-- The tokens of a closed document, where a value is wanted, put the document in its place. -/
theorem run_tokens : ∀ (d : Doc) (stack : List Frame), d.isClosed = true →
    (value stack).run d.tokens = complete d stack
  | .null, _, _ => rfl
  | .bool _, _, _ => rfl
  | .num _, _, _ => rfl
  | .str _, _, _ => rfl
  | .arr [] ending, _, h => by
    obtain ⟨hending, -⟩ := Bool.and_eq_true_iff.mp h
    rw [of_decide_eq_true hending]
    rfl
  | .arr (item :: items) ending, stack, h => by
    obtain ⟨hending, hall⟩ := Bool.and_eq_true_iff.mp h
    obtain ⟨hitem, hitems⟩ := Bool.and_eq_true_iff.mp hall
    -- The first item completes into the new frame, and the rest of the items closes it.
    rw [of_decide_eq_true hending, Doc.tokens, run_cons, run_append]
    show ((firstItem stack).run item.tokens).run (Doc.itemTokens items) = _
    rw [run_firstItem, run_tokens item _ hitem, complete, run_itemTokens items _ _ hitems]
    rfl
  | .obj [] ending, _, h => by
    obtain ⟨hending, -⟩ := Bool.and_eq_true_iff.mp h
    rw [of_decide_eq_true hending]
    rfl
  | .obj ((key, item) :: members) ending, stack, h => by
    obtain ⟨hending, hall⟩ := Bool.and_eq_true_iff.mp h
    obtain ⟨hfirst, hmembers⟩ := Bool.and_eq_true_iff.mp hall
    obtain ⟨hkey, hitem⟩ := Bool.and_eq_true_iff.mp hfirst
    rw [of_decide_eq_true hending, Doc.tokens, run_cons, run_cons]
    show (((firstKey stack).step key.token).run (.colon :: (item.tokens ++ _))) = _
    rw [step_firstKey hkey, run_cons, run_append]
    show ((value (.members [] key :: stack)).run item.tokens).run (Doc.memberTokens members) = _
    rw [run_tokens item _ hitem, complete, run_memberTokens members _ _ hmembers]
    rfl
  | .broken _, _, h => nomatch h

/-- The items after the first one, and the closing bracket, complete their array. -/
theorem run_itemTokens : ∀ (items before : List Doc) (stack : List Frame),
    Doc.areClosed items = true →
    (afterItem before stack).run (Doc.itemTokens items)
      = complete (.arr (before.reverse ++ items) .closed) stack
  | [], before, _, _ => by
    rw [List.append_nil]
    rfl
  | item :: items, before, stack, h => by
    obtain ⟨hitem, hitems⟩ := Bool.and_eq_true_iff.mp h
    rw [Doc.itemTokens, run_cons, run_append]
    show ((value (.items before :: stack)).run item.tokens).run (Doc.itemTokens items) = _
    rw [run_tokens item _ hitem, complete, run_itemTokens items _ _ hitems, List.reverse_cons,
      List.append_assoc, List.singleton_append]

/-- The members after the first one, and the closing brace, complete their object. -/
theorem run_memberTokens : ∀ (members before : List (Key × Doc)) (stack : List Frame),
    Doc.haveClosed members = true →
    (afterMember before stack).run (Doc.memberTokens members)
      = complete (.obj (before.reverse ++ members) .closed) stack
  | [], before, _, _ => by
    rw [List.append_nil]
    rfl
  | (key, item) :: members, before, stack, h => by
    obtain ⟨hfirst, hmembers⟩ := Bool.and_eq_true_iff.mp h
    obtain ⟨hkey, hitem⟩ := Bool.and_eq_true_iff.mp hfirst
    rw [Doc.memberTokens, run_cons, run_cons]
    show ((onKey key.token before stack).run (.colon :: (item.tokens ++ _))) = _
    rw [onKey_token hkey, run_cons, run_append]
    show ((value (.members before key :: stack)).run item.tokens).run
      (Doc.memberTokens members) = _
    rw [run_tokens item _ hitem, complete, run_memberTokens members _ _ hmembers,
      List.reverse_cons, List.append_assoc, List.singleton_append]

end

end Builder

namespace Doc

/-- The tokens of a closed document say that document and nothing behind it. -/
theorem ofTokens_tokens {d : Doc} (h : d.isClosed = true) : ofTokens d.tokens = ⟨d, false⟩ := by
  have hrun := Builder.run_tokens d [] h
  rw [Builder.complete] at hrun
  show Parsed.mk ((Builder.value []).run d.tokens).finish
    ((Builder.value []).run d.tokens).isOverfull = _
  rw [hrun]
  rfl

/-! ## Passing over -/

mutual

/-- A closed document is passed over. -/
theorem skip_of_isClosed : ∀ {d : Doc}, d.isClosed = true → d.skip = .ok ()
  | .null, _ => rfl
  | .bool _, _ => rfl
  | .num _, _ => rfl
  | .str _, _ => rfl
  | .arr items ending, h => by
    obtain ⟨hending, hitems⟩ := Bool.and_eq_true_iff.mp h
    rw [of_decide_eq_true hending, skip, skipItems_of_areClosed hitems]
    rfl
  | .obj members ending, h => by
    obtain ⟨hending, hmembers⟩ := Bool.and_eq_true_iff.mp h
    rw [of_decide_eq_true hending, skip, skipMembers_of_haveClosed hmembers]
    rfl
  | .broken _, h => nomatch h

/-- Closed items are passed over. -/
theorem skipItems_of_areClosed : ∀ {items : List Doc}, areClosed items = true →
    skipItems items = .ok ()
  | [], _ => rfl
  | item :: items, h => by
    obtain ⟨hitem, hitems⟩ := Bool.and_eq_true_iff.mp h
    rw [skipItems, skip_of_isClosed hitem]
    exact skipItems_of_areClosed hitems

/-- Closed members are passed over, keys and all. -/
theorem skipMembers_of_haveClosed : ∀ {members : List (Key × Doc)}, haveClosed members = true →
    skipMembers members = .ok ()
  | [], _ => rfl
  | (.text key, item) :: members, h => by
    obtain ⟨hitem, hmembers⟩ := Bool.and_eq_true_iff.mp h
    rw [skipMembers, Key.skip, skip_of_isClosed hitem]
    exact skipMembers_of_haveClosed hmembers
  | (.broken _, item) :: members, h => nomatch h

end

end Doc

end StepPlan.Json
