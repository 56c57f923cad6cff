import StepPlan.Proofs.Json.Documents
import StepPlan.Proofs.Json.NumberLiteral
import StepPlan.Proofs.Json.StringSpelling

/-!
# The texts of a document

A document is written as its tokens, each in one of its spellings (`IsLexeme`), with blanks anywhere
between them (`Lexes`). The reader does not see which of its texts it is given:
`Doc.ofText_of_isWritten` says that a text of a document is read as that document, with nothing
behind it.

Only a number does not show its own end, and in a document something that does always follows it
(`Token.numbersEnd_tokens`).
-/

namespace StepPlan.Json

/-- The ways to write a token. A word, a bracket or a mark has one. -/
inductive IsLexeme : Token → List Char → Prop where
  | openArray : IsLexeme .openArray ['[']
  | closeArray : IsLexeme .closeArray [']']
  | openObject : IsLexeme .openObject ['{']
  | closeObject : IsLexeme .closeObject ['}']
  | colon : IsLexeme .colon [':']
  | comma : IsLexeme .comma [',']
  | null : IsLexeme .null ['n', 'u', 'l', 'l']
  | true : IsLexeme (.bool true) ['t', 'r', 'u', 'e']
  | false : IsLexeme (.bool false) ['f', 'a', 'l', 's', 'e']
  | num {cs : List Char} (h : Numeral.IsLiteral cs) : IsLexeme (.num (Numeral.valueOf cs)) cs
  | str {pieces : List Piece} {cs : List Char} {s : String} (h : Spells pieces cs)
      (hs : StandsFor pieces s.toList) : IsLexeme (.str (some s)) ('"' :: (cs ++ ['"']))
  /-- A string with an unpaired surrogate stands for nothing. -/
  | unpaired {pieces : List Piece} {cs : List Char} (h : Spells pieces cs)
      (hnone : ∀ ds, ¬StandsFor pieces ds) : IsLexeme (.str none) ('"' :: (cs ++ ['"']))

/-- The ways to write some tokens. -/
inductive Lexes : List Token → List Char → Prop where
  | nil : Lexes [] []
  | blank {c : Char} {ts : List Token} {cs : List Char} (hc : Mode.isBlank c = true)
      (h : Lexes ts cs) : Lexes ts (c :: cs)
  | token {t : Token} {ts : List Token} {lexeme cs : List Char} (ht : IsLexeme t lexeme)
      (h : Lexes ts cs) : Lexes (t :: ts) (lexeme ++ cs)

/-- The string may stand between quotes as it is. -/
def isUnescaped (s : String) : Bool :=
  s.toList.all fun c => c != '"' && c != '\\' && decide (0x20 ≤ c.toNat)

/-- A string that needs no escapes is spelled by its own characters. -/
theorem isLexeme_of_isUnescaped {s : String} (h : isUnescaped s = true) :
    IsLexeme (.str (some s)) ('"' :: (s.toList ++ ['"'])) := by
  have hspelled : ∀ cs : List Char, (∀ c ∈ cs, c ≠ '"' ∧ c ≠ '\\' ∧ 0x20 ≤ c.toNat) →
      Spells (cs.map .char) cs ∧ StandsFor (cs.map .char) cs := by
    intro cs hcs
    induction cs with
    | nil => exact ⟨.nil, .nil⟩
    | cons c cs ih =>
      obtain ⟨hquote, hslash, hlow⟩ := hcs c (List.mem_cons_self ..)
      obtain ⟨hspells, hstands⟩ := ih fun d hd => hcs d (List.mem_cons_of_mem _ hd)
      exact ⟨.cons (.plain hquote hslash hlow) hspells, .char c hstands⟩
  have hall : ∀ c ∈ s.toList, c ≠ '"' ∧ c ≠ '\\' ∧ 0x20 ≤ c.toNat := by
    simpa [isUnescaped, and_assoc] using h
  obtain ⟨hspells, hstands⟩ := hspelled s.toList hall
  exact .str hspells hstands

namespace Token

/-! ## Numbers end -/

/-- The token may stand behind a number. -/
def endsNumber : Token → Bool
  | .comma | .closeArray | .closeObject => true
  | _ => false

/-- Behind each number stands a token that may stand there, or nothing. -/
def numbersEnd : List Token → Bool
  | [] => true
  | .num _ :: t :: ts => t.endsNumber && numbersEnd (t :: ts)
  | _ :: ts => numbersEnd ts

/-- Only a number asks for something behind it. -/
theorem numbersEnd_cons {t : Token} {ts : List Token} (ht : ∀ v, t ≠ .num v) :
    numbersEnd (t :: ts) = numbersEnd ts := by
  cases t with
  | num v => exact absurd rfl (ht v)
  | _ => rfl

/-- A number may be followed by what ends it. -/
theorem numbersEnd_num_cons {v : Option Number} {ts : List Token}
    (hts : ∀ t ∈ ts.head?, t.endsNumber = true) :
    numbersEnd (.num v :: ts) = numbersEnd ts := by
  cases ts with
  | nil => rfl
  | cons t ts => rw [numbersEnd, hts t rfl, Bool.true_and]

/-- No item starts behind a number without a mark between them. -/
theorem endsNumber_itemTokens (items : List Doc) (us : List Token) :
    ∀ t ∈ (Doc.itemTokens items ++ us).head?, t.endsNumber = true := by
  intro t ht
  cases items with
  | nil =>
    obtain rfl := Option.some.inj ht
    rfl
  | cons item items =>
    rw [Doc.itemTokens] at ht
    obtain rfl := Option.some.inj ht
    rfl

/-- Behind the value of a member stands a comma or the closing brace. -/
theorem endsNumber_memberTokens (members : List (Key × Doc)) (us : List Token) :
    ∀ t ∈ (Doc.memberTokens members ++ us).head?, t.endsNumber = true := by
  intro t ht
  cases members with
  | nil =>
    obtain rfl := Option.some.inj ht
    rfl
  | cons m members =>
    obtain ⟨key, item⟩ := m
    rw [Doc.memberTokens] at ht
    obtain rfl := Option.some.inj ht
    rfl

/-- A key and its colon ask for nothing. -/
theorem numbersEnd_key_colon (key : Key) (ts : List Token) :
    numbersEnd (key.token :: .colon :: ts) = numbersEnd ts := by
  have hkey : ∀ v, key.token ≠ .num v := by
    intro v
    cases key <;> exact nofun
  rw [numbersEnd_cons hkey]
  rfl

mutual

/-- The numbers of a document end in it, unless it is a number itself. -/
theorem numbersEnd_tokens_append : ∀ (d : Doc) {us : List Token},
    (∀ t ∈ us.head?, t.endsNumber = true) → numbersEnd us = true →
    numbersEnd (d.tokens ++ us) = true
  | .null, _, _, hus => hus
  | .bool _, _, _, hus => hus
  | .num v, us, hends, hus => by
    show numbersEnd (.num v :: us) = true
    -- Only here is it needed that what follows the document ends a number.
    rw [numbersEnd_num_cons hends, hus]
  | .str _, _, _, hus => hus
  | .arr [] _, _, _, hus => hus
  | .arr (item :: items) ending, us, hends, hus => by
    rw [Doc.tokens, List.cons_append, List.append_assoc]
    show numbersEnd (item.tokens ++ (Doc.itemTokens items ++ us)) = true
    exact numbersEnd_tokens_append item (endsNumber_itemTokens items us)
      (numbersEnd_itemTokens_append items hus)
  | .obj [] _, _, _, hus => hus
  | .obj ((key, item) :: members) ending, us, hends, hus => by
    rw [Doc.tokens, List.cons_append, List.cons_append, List.cons_append, List.append_assoc]
    show numbersEnd (key.token :: .colon :: (item.tokens ++ (Doc.memberTokens members ++ us)))
      = true
    rw [numbersEnd_key_colon]
    exact numbersEnd_tokens_append item (endsNumber_memberTokens members us)
      (numbersEnd_memberTokens_append members hus)
  | .broken _, _, _, hus => hus

/-- The numbers among items end. -/
theorem numbersEnd_itemTokens_append : ∀ (items : List Doc) {us : List Token},
    numbersEnd us = true → numbersEnd (Doc.itemTokens items ++ us) = true
  | [], _, hus => hus
  | item :: items, us, hus => by
    rw [Doc.itemTokens, List.cons_append, List.append_assoc]
    show numbersEnd (item.tokens ++ (Doc.itemTokens items ++ us)) = true
    exact numbersEnd_tokens_append item (endsNumber_itemTokens items us)
      (numbersEnd_itemTokens_append items hus)

/-- The numbers among members end. -/
theorem numbersEnd_memberTokens_append : ∀ (members : List (Key × Doc)) {us : List Token},
    numbersEnd us = true → numbersEnd (Doc.memberTokens members ++ us) = true
  | [], _, hus => hus
  | (key, item) :: members, us, hus => by
    rw [Doc.memberTokens, List.cons_append, List.cons_append, List.cons_append,
      List.append_assoc]
    show numbersEnd (key.token :: .colon :: (item.tokens ++ (Doc.memberTokens members ++ us)))
      = true
    rw [numbersEnd_key_colon]
    exact numbersEnd_tokens_append item (endsNumber_memberTokens members us)
      (numbersEnd_memberTokens_append members hus)

end

/-- Each number in a document ends; at the end of the text, it does so by itself. -/
theorem numbersEnd_tokens (d : Doc) : numbersEnd d.tokens = true := by
  have hend : numbersEnd (d.tokens ++ []) = true := numbersEnd_tokens_append d nofun rfl
  rwa [List.append_nil] at hend

/-! ## Scanning -/

/-- A token that ends a number is written in a character that ends it. -/
theorem ends_of_isLexeme {t : Token} {lexeme rest : List Char} (h : IsLexeme t lexeme)
    (ht : t.endsNumber = true) : ∀ c ∈ (lexeme ++ rest).head?, Numeral.Ends c := by
  intro c hc
  cases h with
  | comma =>
    obtain rfl := Option.some.inj hc
    exact .inr (.inl rfl)
  | closeArray =>
    obtain rfl := Option.some.inj hc
    exact .inr (.inr (.inl rfl))
  | closeObject =>
    obtain rfl := Option.some.inj hc
    exact .inr (.inr (.inr rfl))
  | _ => cases ht

/-- What is written behind a number, blanks or the next token, ends it. -/
theorem ends_of_lexes {ts : List Token} {cs : List Char} (h : Lexes ts cs)
    (hts : ∀ t ∈ ts.head?, t.endsNumber = true) : ∀ c ∈ cs.head?, Numeral.Ends c := by
  cases h with
  | nil => exact nofun
  | blank hc h =>
    intro c' hc'
    obtain rfl := Option.some.inj hc'
    exact .inl hc
  | token ht h => exact ends_of_isLexeme ht (hts _ rfl)

/-- A blank between tokens is passed over. -/
theorem scan_blank {c : Char} (h : Mode.isBlank c = true) (rest : List Char) :
    scan .between (c :: rest) = scan .between rest := by
  simp only [Mode.isBlank, Bool.or_eq_true, decide_eq_true_eq] at h
  rcases h with ((rfl | rfl) | rfl) | rfl <;> rfl

/-- A token is read from any of its spellings, a number as long as it ends. -/
theorem scan_lexeme {t : Token} {lexeme : List Char} (h : IsLexeme t lexeme) {rest : List Char}
    (hnum : ∀ v, t = .num v → ∀ c ∈ rest.head?, Numeral.Ends c) :
    scan .between (lexeme ++ rest) = t :: scan .between rest := by
  cases h with
  | num h => exact scan_literal h (hnum _ rfl)
  | str h hs =>
    rw [List.cons_append, List.append_assoc, List.singleton_append, scan_string h,
      spelled_of_standsFor hs, Option.map_some, String.ofList_toList]
  | @unpaired pieces cs h hnone =>
    have hspelled : Piece.spelled pieces = none := by
      rw [Option.eq_none_iff_forall_ne_some]
      intro ds hds
      exact hnone ds (standsFor_of_spelled (lt_of_mem_of_spells h) hds)
    rw [List.cons_append, List.append_assoc, List.singleton_append, scan_string h, hspelled]
    rfl
  | _ => rfl

/-- A text is read as the tokens it is written in. -/
theorem ofChars_of_lexes {ts : List Token} {cs : List Char} (h : Lexes ts cs)
    (hts : numbersEnd ts = true) : ofChars cs = ts := by
  unfold ofChars
  induction h with
  | nil => rfl
  | blank hc h ih => rw [scan_blank hc, ih hts]
  | @token t ts lexeme cs ht h ih =>
    cases t with
    | num v =>
      cases ts with
      | nil => rw [scan_lexeme ht fun _ _ => ends_of_lexes h nofun, ih rfl]
      | cons u us =>
        obtain ⟨hu, hus⟩ := Bool.and_eq_true_iff.mp hts
        have hends : ∀ t ∈ (u :: us).head?, t.endsNumber = true := by
          intro t ht
          obtain rfl := Option.some.inj ht
          exact hu
        rw [scan_lexeme ht fun _ _ => ends_of_lexes h hends, ih hus]
    | _ => rw [scan_lexeme ht nofun, ih hts]

end Token

namespace Doc

/-- The text says the document, which is complete, and nothing else. -/
def IsWritten (d : Doc) (s : String) : Prop :=
  d.isClosed = true ∧ Lexes d.tokens s.toList

/-- A text of a document is read as that document. -/
theorem ofText_of_isWritten {d : Doc} {s : String} (h : d.IsWritten s) : ofText s = ⟨d, false⟩ := by
  obtain ⟨hclosed, hlexes⟩ := h
  rw [ofText, Token.ofChars_of_lexes hlexes (Token.numbersEnd_tokens d), ofTokens_tokens hclosed]

end Doc

/-- Reading a text of a document is reading the document. -/
theorem readText_of_isWritten {α : Type} (read : Doc → Except ReadError α) {d : Doc} {s : String}
    (h : d.IsWritten s) : readText read s = read d := by
  unfold readText
  rw [Doc.ofText_of_isWritten h]
  show (read d >>= fun a => pure a) = _
  exact bind_pure _

end StepPlan.Json
