import StepPlan.Proofs.Json.IntegerLiteral
import StepPlan.Proofs.Json.Lexemes
import StepPlan.Proofs.Json.Truncation

/-!
# Texts that break off

A front of a text is read like the text itself up to where it breaks off, in the middle of some
token or between two. The tokens before are those of the text (`Mode.exists_scan_append`), and what
the break leaves of the token it falls in goes with that token (`Mode.exists_token`). So the
document of the front is a front of the document of the text: `Doc.isFront_ofText`.

Numbers are the one thing that may be complete and another in the front. Its number is not too large
if that of the text is not, as long as there is no exponent: `Mode.readsIntegers`.
-/

namespace StepPlan.Json

/-- No surrogate to come pairs one that is alone. -/
theorem Piece.spelled_of_spoiled {pieces : List Piece} (h : spoiled pieces = true)
    (more : List Piece) : spelled (pieces ++ more) = none := by
  -- By the recursion of `spoiled`: a surrogate that nothing to come can pair stays unpaired.
  fun_induction spoiled pieces with
  | case1 => cases h
  | case2 c rest ih => simp only [List.cons_append, spelled, ih h, Option.map_none]
  | case3 unit rest htrailing =>
    rw [List.cons_append]
    unfold spelled
    rw [if_pos htrailing]
  | case4 unit htrailing hleading => cases h
  | case5 unit htrailing hleading next rest hpair ih =>
    rw [List.cons_append, List.cons_append]
    unfold spelled
    rw [if_neg htrailing, if_pos hleading]
    simp only [hpair, if_true, ih h, Option.map_none]
  | case6 unit htrailing hleading next rest hpair =>
    rw [List.cons_append, List.cons_append]
    unfold spelled
    rw [if_neg htrailing, if_pos hleading]
    simp only [hpair, Bool.false_eq_true, if_false]
  | case7 unit htrailing hleading c rest =>
    rw [List.cons_append, List.cons_append]
    unfold spelled
    rw [if_neg htrailing, if_pos hleading]
  | case8 unit rest htrailing hleading ih =>
    rw [List.cons_append]
    unfold spelled
    rw [if_neg htrailing, if_neg hleading, ih h, Option.map_none]

namespace Mode

/-- A number that is being read has neither a fraction nor an exponent so far. -/
def isInteger : Mode → Bool
  | .number n => n.isInteger
  | _ => true

/-- None of the numbers that are read has a fraction or an exponent. -/
def readsIntegers (m : Mode) : List Char → Bool
  | [] => m.isInteger
  | c :: cs => m.isInteger && (m.step c cs).2.readsIntegers cs

/-- A reader that reads no fraction and no exponent to come is in none now. -/
theorem isInteger_of_readsIntegers {m : Mode} {cs : List Char} (h : m.readsIntegers cs = true) :
    m.isInteger = true := by
  cases cs with
  | nil => exact h
  | cons c cs => exact (Bool.and_eq_true_iff.mp h).1

/-- Words are those of JSON, which have no blanks, and numbers count their places. -/
def IsSound : Mode → Prop
  | .word next rest token =>
    (token = .null ∨ ∃ b, token = .bool b) ∧ ∀ c ∈ next :: rest, isBlank c = false
  | .number n => n.CountsPlaces
  | _ => True

/-- What a first character begins is sound. -/
theorem isSound_start (c : Char) : (start c).2.IsSound := by
  unfold start
  split
  case h_7 => exact ⟨.inl rfl, by simp [isBlank]⟩
  case h_8 | h_9 => exact ⟨.inr ⟨_, rfl⟩, by simp [isBlank]⟩
  case h_11 => exact Numeral.countsPlaces_minus
  case h_12 =>
    split
    · trivial
    · split
      · exact Numeral.countsPlaces_first false c
      · trivial
  all_goals trivial

/-- Every step leads from what is sound to what is sound. -/
theorem isSound_step {m : Mode} (hm : m.IsSound) (c : Char) (behind : List Char) :
    (m.step c behind).2.IsSound := by
  -- Only words and numbers have anything to keep; what a string is in the middle of is always
  -- sound.
  cases m with
  | between => exact isSound_start c
  | word next rest token =>
    simp only [step]
    split
    · cases rest with
      | nil => trivial
      | cons next rest => exact ⟨hm.1, (List.forall_mem_cons.mp hm.2).2⟩
    · trivial
  | number n =>
    rw [step]
    split
    next n' hnext => exact Numeral.countsPlaces_of_next? hm hnext
    · split
      · exact isSound_start c
      · trivial
  | text pieces =>
    rw [step]
    repeat' split
    all_goals trivial
  | escape pieces =>
    rw [step]
    repeat' split
    all_goals trivial
  | code pieces count value =>
    rw [step]
    repeat' split
    all_goals trivial
  | halted => trivial

/-! ## Up to the break -/

/-- The reader has stopped. -/
def isHalted : Mode → Bool
  | .halted => true
  | _ => false

/-- There is a broken piece among the tokens, or the reader goes on. -/
def GoesOn (s : List Token × Mode) : Prop :=
  (∃ piece, Token.broken piece ∈ s.1) ∨ s.2.isHalted = false

/-- A piece that is no token ends the reading. -/
theorem goesOn_broken (piece : Broken) : GoesOn ([.broken piece], .halted) :=
  .inl ⟨piece, List.mem_singleton.mpr rfl⟩

/-- After a first character the reader goes on, unless it has left a broken piece. -/
theorem goesOn_start (c : Char) : GoesOn (start c) := by
  unfold start
  split
  case h_12 =>
    split
    · exact .inr rfl
    · split
      · exact .inr rfl
      · exact goesOn_broken _
  all_goals exact .inr rfl

/-- The reader stops with a broken piece only. -/
theorem goesOn_step {m : Mode} (hm : m.isHalted = false) (c : Char) (behind : List Char) :
    GoesOn (m.step c behind) := by
  cases m with
  | between => exact goesOn_start c
  | word next rest token =>
    simp only [step]
    split
    · cases rest <;> exact .inr rfl
    · exact goesOn_broken _
  | number n =>
    rw [step]
    split
    · exact .inr rfl
    · split
      · rcases goesOn_start c with ⟨piece, hpiece⟩ | hgoes
        · exact .inl ⟨piece, List.mem_cons_of_mem _ hpiece⟩
        · exact .inr hgoes
      · exact goesOn_broken _
  | text pieces =>
    rw [step]
    repeat' split
    all_goals first | exact goesOn_broken _ | exact .inr rfl
  | escape pieces =>
    rw [step]
    repeat' split
    all_goals first | exact goesOn_broken _ | exact .inr rfl
  | code pieces count value =>
    rw [step]
    repeat' split
    all_goals first | exact goesOn_broken _ | exact .inr rfl
  | halted => cases hm

/-- Unless the reader stops, what is behind a character does not matter. -/
theorem step_eq_of_isHalted {m : Mode} {c : Char} {behind : List Char}
    (h : (m.step c behind).2.isHalted = false) (behind' : List Char) :
    m.step c behind' = m.step c behind := by
  cases m with
  | code pieces count value =>
    rw [step] at h ⊢
    rw [step]
    split
    · rfl
    next hnone =>
      rw [hnone] at h
      cases h
  | _ => rfl

/-- A text without broken pieces is read like any front of it, up to where that breaks off. -/
theorem exists_scan_append {m : Mode} (hm : m.IsSound) (hhalted : m.isHalted = false)
    {front rest : List Char} (h : ∀ piece, Token.broken piece ∉ Token.scan m (front ++ rest)) :
    ∃ ts m', m'.IsSound ∧ m'.isHalted = false
      ∧ Token.scan m (front ++ rest) = ts ++ Token.scan m' rest
      ∧ Token.scan m front = ts ++ m'.finish
      ∧ (m.readsIntegers (front ++ rest) = true → m'.readsIntegers rest = true) := by
  induction front generalizing m with
  | nil => exact ⟨[], m, hm, hhalted, rfl, rfl, id⟩
  | cons c front ih =>
    rw [List.cons_append, Token.scan_cons] at h
    -- Without broken pieces the reader never stops, so `rest` is read from where `front` ends.
    have hgoes : (m.step c (front ++ rest)).2.isHalted = false := by
      refine (goesOn_step hhalted c (front ++ rest)).resolve_left ?_
      rintro ⟨piece, hpiece⟩
      exact h piece (List.mem_append_left _ hpiece)
    obtain ⟨ts, m', hm', hhalted', hscan, hfront, hintegers⟩ :=
      ih (isSound_step hm c (front ++ rest)) hgoes
        fun piece hpiece => h piece (List.mem_append_right _ hpiece)
    refine ⟨(m.step c (front ++ rest)).1 ++ ts, m', hm', hhalted', ?_, ?_, ?_⟩
    · rw [List.cons_append, Token.scan_cons, hscan, List.append_assoc]
    · rw [Token.scan_cons, step_eq_of_isHalted hgoes front, hfront, List.append_assoc]
    · intro hreads
      exact hintegers (Bool.and_eq_true_iff.mp hreads).2

/-! ## The token that the break falls in -/

/-- The reader is in the middle of a token. -/
def isBegun : Mode → Bool
  | .between | .halted => false
  | _ => true

/-- A reader that neither rests nor has stopped is in the middle of a token. -/
theorem isBegun_of_ne {m : Mode} (hbetween : m ≠ .between) (hhalted : m.isHalted = false) :
    m.isBegun = true := by
  cases m with
  | between => exact absurd rfl hbetween
  | halted => cases hhalted
  | word | number | text | escape | code => rfl

/-- What the reader is in the middle of may become the token, a number that of a whole number. -/
def Becomes : Mode → Token → Prop
  | .between, _ | .halted, _ => False
  | .word _ _ token, t => t = token
  | .number n, t => ∃ n', n'.CountsPlaces ∧ n'.isInteger = true ∧ t = .num n'.value?
      ∧ (n.isWhole = true → n.Under n')
  | .text pieces, t | .escape pieces, t | .code pieces _ _, t =>
    ∃ more, t = .str ((Piece.spelled (pieces.reverse ++ more)).map String.ofList)

/-- What a string may become with a piece more, it may become. -/
theorem becomes_text_cons {piece : Piece} {pieces : List Piece} {t : Token}
    (h : (Mode.text (piece :: pieces)).Becomes t) : (Mode.text pieces).Becomes t := by
  obtain ⟨more, h⟩ := h
  refine ⟨piece :: more, ?_⟩
  rw [h, List.reverse_cons, List.append_assoc]
  rfl

/-- What a character does to what the reader is in the middle of: it breaks, it becomes a token, or
it goes on and will become only what it might have become before. -/
inductive Advances (m : Mode) : List Token × Mode → Prop where
  | broken {piece : Broken} {m' : Mode} : Advances m ([.broken piece], m')
  | token {t : Token} {ts : List Token} {m' : Mode} (h : m.isInteger = true → m.Becomes t) :
      Advances m (t :: ts, m')
  | on {m' : Mode} (hbegun : m'.isBegun = true)
      (h : ∀ t, m'.isInteger = true → m'.Becomes t → m.Becomes t) : Advances m ([], m')

/-- Inside a token a character completes it, breaks it or leads further into it. -/
theorem advances_step {m : Mode} (hm : m.IsSound) (hbegun : m.isBegun = true) (c : Char)
    (behind : List Char) : m.Advances (m.step c behind) := by
  cases m with
  | between => cases hbegun
  | word next rest token =>
    simp only [step]
    split
    · cases rest with
      | nil => exact .token fun _ => rfl
      | cons next rest => exact .on rfl fun _ _ h => h
    · exact .broken
  | number n =>
    rw [step]
    split
    next n' hnext =>
      -- A further digit leaves the number under whatever it may still become.
      refine .on rfl fun t hint h => ?_
      obtain ⟨n'', hn'', hint'', rfl, hunder⟩ := h
      refine ⟨n'', hn'', hint'', rfl, fun hwhole => ?_⟩
      obtain ⟨hwhole', hunder'⟩ := Numeral.under_of_next? hm hwhole hnext hint
      exact hunder'.trans (hunder hwhole')
    · split
      · exact .token fun hint => ⟨n, hm, hint, rfl, fun _ => Numeral.under_self hm hint⟩
      · exact .broken
  | text pieces =>
    rw [step]
    split
    · exact .token fun _ => ⟨[], by rw [List.append_nil]; rfl⟩
    · split
      · exact .on rfl fun _ _ h => h
      · split
        · exact .broken
        · exact .on rfl fun _ _ h => becomes_text_cons h
  | escape pieces =>
    rw [step]
    split
    · exact .on rfl fun _ _ h => h
    · split
      · exact .on rfl fun _ _ h => becomes_text_cons h
      · exact .broken
  | code pieces count value =>
    rw [step]
    split
    · split
      · exact .on rfl fun _ _ h => h
      · exact .on rfl fun _ _ h => becomes_text_cons h
    · exact .broken
  | halted => cases hbegun

/-- At the end of the text, what the reader is in the middle of breaks or is a whole number. -/
theorem advances_finish {m : Mode} (hm : m.IsSound) (hbegun : m.isBegun = true) :
    m.Advances (m.finish, .between) := by
  cases m with
  | between | halted => cases hbegun
  | number n =>
    rw [finish]
    split
    · exact .token fun hint => ⟨n, hm, hint, rfl, fun _ => Numeral.under_self hm hint⟩
    · exact .broken
  | word next rest token | text pieces | escape pieces | code pieces count value => exact .broken

/-- In a text without broken pieces, what the reader is in the middle of becomes the next token. -/
theorem exists_token {m : Mode} (hm : m.IsSound) (hbegun : m.isBegun = true) {cs : List Char}
    (h : ∀ piece, Token.broken piece ∉ Token.scan m cs) :
    ∃ t ts, Token.scan m cs = t :: ts ∧ (m.readsIntegers cs = true → m.Becomes t) := by
  induction cs generalizing m with
  | nil =>
    have hadvances := advances_finish hm hbegun
    rw [Token.scan_nil] at h ⊢
    generalize m.finish = ts at *
    -- By induction on the characters to come: a step breaks, completes the token or leads on.
    cases hadvances with
    | broken => exact absurd (List.mem_singleton.mpr rfl) (h _)
    | token ht => exact ⟨_, _, rfl, ht⟩
    | on hb => cases hb
  | cons c cs ih =>
    have hadvances := advances_step hm hbegun c cs
    have hsound := isSound_step hm c cs
    have hreads : m.readsIntegers (c :: cs)
        = (m.isInteger && (m.step c cs).2.readsIntegers cs) := rfl
    rw [Token.scan_cons] at h ⊢
    rw [hreads, Bool.and_eq_true_iff]
    generalize m.step c cs = s at *
    cases hadvances with
    | broken => exact absurd (List.mem_append_left _ (List.mem_singleton.mpr rfl)) (h _)
    | token ht => exact ⟨_, _, rfl, fun hint => ht hint.1⟩
    | @on m' hbegun' hback =>
      obtain ⟨t, ts, hscan, ht⟩ := ih hsound hbegun' h
      refine ⟨t, ts, hscan, fun hint => ?_⟩
      exact hback t (isInteger_of_readsIntegers hint.2) (ht hint.2)

/-- What is no blank and completes nothing begins a token. -/
theorem isBegun_of_start {c : Char} (hc : isBlank c = false) (h : (start c).1 = []) :
    (start c).2.isBegun = true := by
  unfold start at h ⊢
  split at h
  case h_12 =>
    rw [if_neg (by rw [hc]; exact Bool.false_ne_true)] at h ⊢
    split at h
    next hdigit =>
      rw [if_pos hdigit]
      rfl
    next => cases h
  all_goals first | (cases h; done) | rfl

/-- Anything but blanks makes a token. -/
theorem scan_between_ne_nil {cs : List Char} (h : ∃ c ∈ cs, isBlank c = false)
    (hbroken : ∀ piece, Token.broken piece ∉ Token.scan .between cs) :
    Token.scan .between cs ≠ [] := by
  induction cs with
  | nil =>
    obtain ⟨c, hc, -⟩ := h
    cases hc
  | cons c cs ih =>
    cases hblank : isBlank c with
    | true =>
      rw [Token.scan_blank hblank] at hbroken ⊢
      obtain ⟨c', hc', hother⟩ := h
      refine ih ⟨c', ?_, hother⟩ hbroken
      refine (List.mem_cons.mp hc').resolve_left ?_
      rintro rfl
      rw [hblank] at hother
      cases hother
    | false =>
      -- What is no blank begins a token, which there is no way out of without one.
      rw [Token.scan_cons] at hbroken ⊢
      intro hnil
      obtain ⟨hstart, hrest⟩ := List.append_eq_nil_iff.mp hnil
      have hbegun := isBegun_of_start hblank hstart
      obtain ⟨t, ts, hscan, -⟩ := exists_token (isSound_start c) hbegun
        fun piece hpiece => hbroken piece (List.mem_append_right _ hpiece)
      exact List.cons_ne_nil t ts (hscan.symm.trans hrest)

/-- What the end of the text leaves of a token goes with that token: it is as good as a front. -/
theorem isFront_of_becomes {m : Mode} {b : Builder} {t : Token} {root : Doc} (hm : m.IsSound)
    (hint : m.isInteger = true) (ht : m.Becomes t) (hstep : (b.step t).LeadsTo root) :
    (b.run m.finish).finish.IsFront root := by
  have htext : ∀ pieces : List Piece,
      (∃ more, t = .str ((Piece.spelled (pieces.reverse ++ more)).map String.ofList)) →
      (b.run [brokenText pieces .truncated]).finish.IsFront root := by
    rintro pieces ⟨more, rfl⟩
    refine Builder.isFront_broken hstep rfl (fun hne => ?_) fun _ _ => rfl
    refine if_neg fun hspoiled => hne ?_
    rw [Piece.spelled_of_spoiled hspoiled, Option.map_none]
  -- A word or string that is cut short is broken; a number may be whole already, and is then less
  -- than the one of the whole text.
  cases m with
  | between | halted => exact ht.elim
  | word next rest token =>
    obtain rfl : t = token := ht
    rcases hm.1 with rfl | ⟨v, rfl⟩
    · exact Builder.isFront_broken hstep rfl (fun _ => rfl) nofun
    · exact Builder.isFront_broken hstep rfl (fun _ => rfl) nofun
  | number n =>
    obtain ⟨n', hn', hint', rfl, hunder⟩ := ht
    by_cases hwhole : n.isWhole = true
    · rw [finish, if_pos hwhole]
      exact Builder.isFront_num hstep
        (Numeral.isSome_value?_of_under hm hint hn' hint' (hunder hwhole))
    · rw [finish, if_neg hwhole]
      exact Builder.isFront_broken hstep rfl (fun _ => rfl) nofun
  | text pieces | escape pieces | code pieces count value => exact htext pieces ht

/-! ## Blanks at the end -/

/-- Blanks alone have no tokens. -/
theorem scan_between_blanks {cs : List Char} (h : ∀ c ∈ cs, isBlank c = true) :
    Token.scan .between cs = [] := by
  induction cs with
  | nil => rfl
  | cons c cs ih =>
    obtain ⟨hc, hcs⟩ := List.forall_mem_cons.mp h
    rw [Token.scan_blank hc]
    exact ih hcs

/-- The reader is in the middle of a word or a string. -/
def isWordOrText : Mode → Bool
  | .word .. | .text _ | .escape _ | .code .. => true
  | _ => false

/-- A blank breaks a word and an escape. In a string it may stand, but it does not close it. -/
theorem step_blank {m : Mode} (hm : m.IsSound) (hopen : m.isWordOrText = true) {c : Char}
    (hc : isBlank c = true) (behind : List Char) :
    (∃ piece, m.step c behind = ([.broken piece], .halted))
      ∨ ∃ pieces, m.step c behind = ([], .text pieces) := by
  have hcases : ((c = ' ' ∨ c = '\t') ∨ c = '\n') ∨ c = '\r' := by
    simpa only [isBlank, Bool.or_eq_true, decide_eq_true_eq] using hc
  -- No word has a blank in it, and inside a string only the space is let through.
  cases m with
  | between | halted | number => cases hopen
  | word next rest token =>
    have hne : c ≠ next := by
      rintro rfl
      rw [(List.forall_mem_cons.mp hm.2).1] at hc
      cases hc
    simp only [step, if_neg hne]
    exact .inl ⟨_, rfl⟩
  | text pieces =>
    rcases hcases with ((rfl | rfl) | rfl) | rfl
    · exact .inr ⟨_, rfl⟩
    all_goals exact .inl ⟨_, rfl⟩
  | escape pieces | code pieces count value =>
    rcases hcases with ((rfl | rfl) | rfl) | rfl
    all_goals exact .inl ⟨_, rfl⟩

/-- A word or a string is not completed by blanks. -/
theorem exists_broken_of_blanks {m : Mode} (hm : m.IsSound) (hopen : m.isWordOrText = true)
    {cs : List Char} (h : ∀ c ∈ cs, isBlank c = true) :
    ∃ piece, Token.broken piece ∈ Token.scan m cs := by
  induction cs generalizing m with
  | nil =>
    cases m with
    | between | halted | number => cases hopen
    | word | text | escape | code => exact ⟨_, List.mem_singleton.mpr rfl⟩
  | cons c cs ih =>
    obtain ⟨hc, hcs⟩ := List.forall_mem_cons.mp h
    rw [Token.scan_cons]
    rcases step_blank hm hopen hc cs with ⟨piece, hstep⟩ | ⟨pieces, hstep⟩
    · rw [hstep]
      exact ⟨piece, List.mem_append_left _ (List.mem_singleton.mpr rfl)⟩
    · rw [hstep]
      exact ih (m := .text pieces) trivial rfl hcs

/-- A number is not completed by blanks either, but it may end before them. -/
theorem scan_number_blanks {n : Numeral} {cs : List Char} (h : ∀ c ∈ cs, isBlank c = true)
    (hbroken : ∀ piece, Token.broken piece ∉ Token.scan (.number n) cs) :
    Token.scan (.number n) cs = (Mode.number n).finish := by
  by_cases hwhole : n.isWhole = true
  · have hends : ∀ c ∈ cs.head?, Numeral.Ends c := by
      intro c hc
      exact .inl (h c (List.mem_of_mem_head? hc))
    rw [scan_number_of_ends hwhole hends, scan_between_blanks h, finish, if_pos hwhole]
  · cases cs with
    | nil => rfl
    | cons c cs =>
      have hnext : n.next? c = none := Numeral.next?_of_ends (.inl (h c (List.mem_cons_self ..)))
      have hends : ¬n.endsBefore c = true := fun hends => hwhole (Bool.and_eq_true_iff.mp hends).1
      refine absurd ?_ (hbroken ⟨false, .malformed, .malformed⟩)
      rw [Token.scan_cons]
      simp only [step, hnext, if_neg hends]
      exact List.mem_cons_self ..

/-- What the reader is in the middle of before the blanks at the end of a text is complete without
them. -/
theorem scan_blanks {m : Mode} (hm : m.IsSound) (hhalted : m.isHalted = false) {cs : List Char}
    (h : ∀ c ∈ cs, isBlank c = true) (hbroken : ∀ piece, Token.broken piece ∉ Token.scan m cs) :
    Token.scan m cs = m.finish := by
  cases m with
  | between => exact scan_between_blanks h
  | halted => cases hhalted
  | number n => exact scan_number_blanks h hbroken
  | word | text | escape | code =>
    obtain ⟨piece, hpiece⟩ := exists_broken_of_blanks hm rfl h
    exact absurd hpiece (hbroken piece)

end Mode

/-- No number of the text has a fraction or an exponent. -/
def hasIntegersOnly (s : String) : Bool :=
  Mode.readsIntegers .between s.toList

namespace Doc

section

variable {s front : String} {rest : List Char}

/-- The document of a text is complete, and nothing stands behind it. -/
def IsComplete (s : String) : Prop :=
  (ofText s).root.isOpen = false ∧ (ofText s).overfull = false

instance : Decidable (IsComplete s) :=
  inferInstanceAs (Decidable (_ ∧ _))

/-- The tokens of a complete text build its document and nothing else. -/
theorem run_of_isComplete (h : IsComplete s) :
    (Builder.value []).run (Token.scan .between s.toList) = .whole (ofText s).root :=
  Builder.eq_whole_of_finish (Builder.haltsOpen_run (b := .value []) trivial _) h.1 h.2

/-- Where a front breaks off, the builder is in a state that leads to the document of the text, and
the reader in the middle of something. -/
theorem exists_break (hs : s.toList = front.toList ++ rest) (h : IsComplete s) :
    ∃ (b : Builder) (m : Mode),
      (Builder.value []).run (Token.scan .between front.toList) = b.run m.finish
      ∧ b.run (Token.scan m rest) = .whole (ofText s).root
      ∧ m.IsSound ∧ m.isHalted = false ∧ (∀ piece, Token.broken piece ∉ Token.scan m rest)
      ∧ (hasIntegersOnly s = true → m.readsIntegers rest = true) := by
  have hrun := run_of_isComplete h
  have hbroken : ∀ piece, Token.broken piece ∉ Token.scan .between s.toList := by
    intro piece hpiece
    obtain ⟨ts, us, hsplit⟩ := List.append_of_mem hpiece
    have hleads := Builder.leadsTo_of_eq_whole hrun
    rw [hsplit, Builder.run_append, Builder.run_cons] at hleads
    exact Builder.not_leadsTo_step_broken (Builder.leadsTo_of_run hleads)
  rw [hs] at hrun hbroken
  obtain ⟨ts, m, hm, hhalted, hscan, hfront, hintegers⟩ :=
    Mode.exists_scan_append (m := .between) trivial rfl hbroken
  rw [hscan] at hrun hbroken
  rw [hasIntegersOnly, hs]
  exact ⟨(Builder.value []).run ts, m, by rw [hfront, Builder.run_append],
    by rw [← Builder.run_append, hrun], hm, hhalted,
    fun piece hpiece => hbroken piece (List.mem_append_right _ hpiece), hintegers⟩

/-- The blanks at the end of a text make no difference to its document. -/
theorem ofText_of_blanks (hs : s.toList = front.toList ++ rest) (h : IsComplete s)
    (hblanks : ∀ c ∈ rest, Mode.isBlank c = true) : ofText front = ofText s := by
  obtain ⟨b, m, hrun, hwhole, hm, hhalted, hbroken, -⟩ := exists_break hs h
  rw [Mode.scan_blanks hm hhalted hblanks hbroken, ← hrun, ← run_of_isComplete h] at hwhole
  exact congrArg (fun b : Builder => (⟨b.finish, b.isOverfull⟩ : Parsed)) hwhole

/-- What leaves out more than blanks of a complete document is not complete, or is only a number. -/
theorem not_isComplete_or_num (hs : s.toList = front.toList ++ rest) (h : IsComplete s)
    (hrest : ∃ c ∈ rest, Mode.isBlank c = false) :
    ¬IsComplete front ∨ ∃ v, (ofText front).root = .num v := by
  refine Decidable.or_iff_not_imp_left.mpr fun hfront => ?_
  have hfront : IsComplete front := Decidable.not_not.mp hfront
  obtain ⟨b, m, hrun, hwhole, hm, hhalted, hbroken, -⟩ := exists_break hs h
  rw [run_of_isComplete hfront] at hrun
  have hpiece : ∀ piece, m.finish = [.broken piece] → ∃ v, (ofText front).root = .num v := by
    intro piece heq
    rw [heq] at hrun
    exact (Builder.not_leadsTo_step_broken (Builder.leadsTo_of_eq_whole hrun.symm)).elim
  cases m with
  | between =>
    -- Nothing was begun, so all that is left of the text stands behind a complete document.
    obtain rfl : .whole (ofText front).root = b := hrun
    have hleads := Builder.leadsTo_of_eq_whole hwhole
    exact absurd (Builder.eq_nil_of_whole hleads) (Mode.scan_between_ne_nil hrest hbroken)
  | number n =>
    by_cases hwhole : n.isWhole = true
    · rw [Mode.finish, if_pos hwhole] at hrun
      exact ⟨n.value?, Builder.eq_num_of_step hrun.symm⟩
    · exact hpiece _ (if_neg hwhole)
  | word next rest token => exact hpiece _ rfl
  | text pieces => exact hpiece _ rfl
  | escape pieces => exact hpiece _ rfl
  | code pieces count value => exact hpiece _ rfl
  | halted => cases hhalted

/-- The document of what leaves out more than blanks is a front of the document of the text. -/
theorem isFront_ofText (hs : s.toList = front.toList ++ rest) (h : IsComplete s)
    (hrest : ∃ c ∈ rest, Mode.isBlank c = false) (hintegers : hasIntegersOnly s = true) :
    (ofText front).root.IsFront (ofText s).root := by
  obtain ⟨b, m, hrun, hwhole, hm, hhalted, hbroken, hreads⟩ := exists_break hs h
  have hleads := Builder.leadsTo_of_eq_whole hwhole
  have hroot : (ofText front).root = (b.run m.finish).finish := congrArg Builder.finish hrun
  rw [hroot]
  by_cases hbetween : m = .between
  · subst hbetween
    refine Builder.isFront_finish (Builder.leadsTo_of_run hleads) ?_
    rintro rfl
    exact Mode.scan_between_ne_nil hrest hbroken (Builder.eq_nil_of_whole hleads)
  · obtain ⟨t, ts, hscan, hbecomes⟩ :=
      Mode.exists_token hm (Mode.isBegun_of_ne hbetween hhalted) hbroken
    rw [hscan] at hleads
    have hstep : (b.step t).LeadsTo (ofText s).root := Builder.leadsTo_of_run hleads
    have hint := Mode.isInteger_of_readsIntegers (hreads hintegers)
    exact Mode.isFront_of_becomes hm hint (hbecomes (hreads hintegers)) hstep

end

end Doc

end StepPlan.Json
