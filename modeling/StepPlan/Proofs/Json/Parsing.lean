import StepPlan.Proofs.Json.Scanning

/-!
# The documents of written values

The document that says a value (`Doc.ofJson`) has every array and object closed, and the text of the
value is one of its texts: `Doc.isWritten_text`. What is read from the text of a value is therefore
read from its document, and there the text does not matter any more.
-/

namespace StepPlan.Json

namespace Doc

mutual

/-- The document that says a value. -/
def ofJson : Json → Doc
  | .null => .null
  | .bool b => .bool b
  | .num n => .num (some n)
  | .str s => .str (some s)
  | .arr items => .arr (ofItems items) .closed
  | .obj members => .obj (ofMembers members) .closed

/-- The documents of some items. -/
def ofItems : List Json → List Doc
  | [] => []
  | item :: items => ofJson item :: ofItems items

/-- The documents of some members. -/
def ofMembers : List (String × Json) → List (Key × Doc)
  | [] => []
  | (key, value) :: members => (.text (some key), ofJson value) :: ofMembers members

end

mutual

/-- The document of a value has not broken off. -/
theorem isClosed_ofJson : ∀ j : Json, (ofJson j).isClosed = true
  | .null => rfl
  | .bool _ => rfl
  | .num _ => rfl
  | .str _ => rfl
  | .arr items => areClosed_ofItems items
  | .obj members => haveClosed_ofMembers members

/-- The documents of items have not broken off. -/
theorem areClosed_ofItems : ∀ items : List Json, areClosed (ofItems items) = true
  | [] => rfl
  | item :: items => by
    rw [ofItems, areClosed, isClosed_ofJson item, areClosed_ofItems items]
    rfl

/-- The documents of members have not broken off. -/
theorem haveClosed_ofMembers : ∀ members : List (String × Json),
    haveClosed (ofMembers members) = true
  | [] => rfl
  | (key, item) :: members => by
    rw [ofMembers, haveClosed, isClosed_ofJson item, haveClosed_ofMembers members]
    rfl

end

mutual

/-- A value is written as the tokens of its document. -/
theorem lexes_chars : ∀ (j : Json) {us : List Token} {rest : List Char}, j.isWhole = true →
    Lexes us rest → Lexes ((ofJson j).tokens ++ us) (j.chars ++ rest)
  | .null, _, _, _, h => .token .null h
  | .bool true, _, _, _, h => .token .true h
  | .bool false, _, _, _, h => .token .false h
  | .num n, _, _, hwhole, h => .token (isLexeme_number hwhole) h
  | .str s, _, _, _, h => .token (isLexeme_stringChars s) h
  | .arr [], us, rest, _, h => by
    show Lexes (.openArray :: .closeArray :: us) (['['] ++ ([']'] ++ rest))
    exact .token .openArray (.token .closeArray h)
  | .arr (item :: items), us, rest, hwhole, h => by
    obtain ⟨hitem, hitems⟩ := Bool.and_eq_true_iff.mp hwhole
    rw [chars, ofJson, ofItems, tokens, List.cons_append, List.append_assoc, List.cons_append,
      List.append_assoc]
    exact .token .openArray (lexes_chars item hitem (lexes_itemChars items hitems h))
  | .obj [], us, rest, _, h => by
    show Lexes (.openObject :: .closeObject :: us) (['{'] ++ (['}'] ++ rest))
    exact .token .openObject (.token .closeObject h)
  | .obj ((key, value) :: members), us, rest, hwhole, h => by
    obtain ⟨hvalue, hmembers⟩ := Bool.and_eq_true_iff.mp hwhole
    have hlexes := lexes_chars value hvalue (lexes_memberChars members hmembers h)
    simp only [chars, ofJson, ofMembers, tokens, List.cons_append, List.append_assoc]
    exact .token .openObject (.token (isLexeme_stringChars key) (.token .colon hlexes))

/-- The text of items has their tokens, the closing bracket among them. -/
theorem lexes_itemChars : ∀ (items : List Json) {us : List Token} {rest : List Char},
    areWhole items = true → Lexes us rest →
    Lexes (itemTokens (ofItems items) ++ us) (itemChars items ++ rest)
  | [], _, _, _, h => .token .closeArray h
  | item :: items, us, rest, hwhole, h => by
    obtain ⟨hitem, hitems⟩ := Bool.and_eq_true_iff.mp hwhole
    rw [itemChars, ofItems, itemTokens, List.cons_append, List.append_assoc, List.cons_append,
      List.append_assoc]
    exact .token .comma (lexes_chars item hitem (lexes_itemChars items hitems h))

/-- The text of members has their tokens, the closing brace among them. -/
theorem lexes_memberChars : ∀ (members : List (String × Json)) {us : List Token}
    {rest : List Char}, haveWhole members = true → Lexes us rest →
    Lexes (memberTokens (ofMembers members) ++ us) (memberChars members ++ rest)
  | [], _, _, _, h => .token .closeObject h
  | (key, value) :: members, us, rest, hwhole, h => by
    obtain ⟨hvalue, hmembers⟩ := Bool.and_eq_true_iff.mp hwhole
    have hlexes := lexes_chars value hvalue (lexes_memberChars members hmembers h)
    simp only [memberChars, ofMembers, memberTokens, List.cons_append, List.append_assoc]
    exact .token .comma (.token (isLexeme_stringChars key) (.token .colon hlexes))

end

/-- The text of a value of whole numbers is one of its document. -/
theorem isWritten_text {j : Json} (h : j.isWhole = true) : (ofJson j).IsWritten j.text := by
  have hlexes := lexes_chars j h .nil
  rw [List.append_nil, List.append_nil] at hlexes
  refine ⟨isClosed_ofJson j, ?_⟩
  rwa [text, String.toList_ofList]

end Doc

end StepPlan.Json
