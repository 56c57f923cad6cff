import StepPlan.Proofs.Json.Building

/-!
# Documents that break off

When a text breaks off, its document is a front of the whole one (`Doc.IsFront`): everything that
stands before the last thing that was begun is there, this last thing is a front in turn or a broken
piece, and the arrays and objects around it are truncated. The builder sees to that token by token:
what the tokens to come make of a state contains what the state holds so far
(`Builder.leadsTo_of_step`), and the document of a state is a front of any it leads to
(`Builder.isFront_finish`).

Fronts are those of documents that can be read: where a surrogate is not paired or a number is too
large, nothing is said of the front.
-/

namespace StepPlan.Json

namespace Doc

mutual

/-- The first document is what is left of the second one when the text breaks off. -/
inductive IsFront : Doc → Doc → Prop where
  | piece {piece : Broken} {d : Doc} (h : d ≠ .str none → piece.strict = .truncated) :
      IsFront (.broken piece) d
  /-- A number that breaks off may be another number. -/
  | num {v v' : Option Number} (h : v'.isSome = true → v.isSome = true) :
      IsFront (.num v) (.num v')
  | arr {items items' : List Doc} {ending : Ending} (h : AreFront items items') :
      IsFront (.arr items (.faulty .truncated)) (.arr items' ending)
  | obj {fault : Fault} {members members' : List (Key × Doc)} {ending : Ending}
      (h : HaveFront fault members members') :
      IsFront (.obj members (.faulty fault)) (.obj members' ending)

/-- The same of the items of arrays. -/
inductive AreFront : List Doc → List Doc → Prop where
  | nil {rest : List Doc} : AreFront [] rest
  | last {d d' : Doc} {rest : List Doc} (h : IsFront d d') : AreFront [d] (d' :: rest)
  | cons {d : Doc} {items items' : List Doc} (h : AreFront items items') :
      AreFront (d :: items) (d :: items')

/-- The same of the members of objects, with the fault that the front ends with. -/
inductive HaveFront : Fault → List (Key × Doc) → List (Key × Doc) → Prop where
  | nil {rest : List (Key × Doc)} : HaveFront .truncated [] rest
  | key {piece : Broken} {m : Key × Doc} {rest : List (Key × Doc)}
      (h : m.1 ≠ .text none → piece.strict = .truncated) :
      HaveFront piece.strict [(.broken piece, .broken piece)] (m :: rest)
  | last {key : Key} {d d' : Doc} {rest : List (Key × Doc)} (h : IsFront d d') :
      HaveFront .truncated [(key, d)] ((key, d') :: rest)
  | cons {fault : Fault} {m : Key × Doc} {members members' : List (Key × Doc)}
      (h : HaveFront fault members members') : HaveFront fault (m :: members) (m :: members')

end

/-- Items that stand in front on both sides change nothing. -/
theorem AreFront.append {items items' : List Doc} (h : AreFront items items')
    (before : List Doc) : AreFront (before ++ items) (before ++ items') := by
  induction before with
  | nil => exact h
  | cons d before ih => exact .cons ih

/-- Members that stand in front on both sides change nothing. -/
theorem HaveFront.append {fault : Fault} {members members' : List (Key × Doc)}
    (h : HaveFront fault members members') (before : List (Key × Doc)) :
    HaveFront fault (before ++ members) (before ++ members') := by
  induction before with
  | nil => exact h
  | cons m before ih => exact .cons ih

/-- What is there before the break is a front, with nothing begun behind it. -/
theorem areFront_append (before rest : List Doc) : AreFront before (before ++ rest) := by
  have hnil : AreFront [] rest := .nil
  have h := hnil.append before
  rwa [List.append_nil] at h

/-- The first members of some are a front of all of them. -/
theorem haveFront_append (before rest : List (Key × Doc)) :
    HaveFront .truncated before (before ++ rest) := by
  have hnil : HaveFront .truncated [] rest := .nil
  have h := hnil.append before
  rwa [List.append_nil] at h

end Doc

/-! ## Open arrays and objects -/

/-- The frames lead from the root to the document: it stands in the innermost one, behind what that
holds so far. -/
inductive LiesIn (root : Doc) : List Frame → Doc → Prop where
  | root : LiesIn root [] root
  | item {before rest : List Doc} {stack : List Frame} {d : Doc} {ending : Ending}
      (h : LiesIn root stack (.arr (before.reverse ++ d :: rest) ending)) :
      LiesIn root (.items before :: stack) d
  | member {before rest : List (Key × Doc)} {key : Key} {stack : List Frame} {d : Doc}
      {ending : Ending} (h : LiesIn root stack (.obj (before.reverse ++ (key, d) :: rest) ending)) :
      LiesIn root (.members before key :: stack) d

namespace Builder

/-- When the last thing that was begun is a front, all that is abandoned with it is. -/
theorem isFront_abandoned {root d d' : Doc} {stack : List Frame} (hstack : LiesIn root stack d')
    (hd : d.IsFront d') : (abandoned d stack).IsFront root := by
  induction hstack generalizing d with
  | root => exact hd
  | @item before rest stack d' ending hstack ih =>
    rw [abandoned, List.reverse_cons]
    exact ih (.arr ((Doc.AreFront.last hd).append _))
  | @member before rest key stack d' ending hstack ih =>
    rw [abandoned, List.reverse_cons]
    exact ih (.obj ((Doc.HaveFront.last hd).append _))

/-- What the builder holds so far stands where it should in the root. -/
def LeadsTo (root : Doc) : Builder → Prop
  | .value stack => ∃ d, LiesIn root stack d
  | .firstItem stack => ∃ items ending, LiesIn root stack (.arr items ending)
  | .afterItem items stack => ∃ rest ending, LiesIn root stack (.arr (items.reverse ++ rest) ending)
  | .firstKey stack => ∃ members ending, LiesIn root stack (.obj members ending)
  | .nextKey members stack =>
    ∃ m rest ending, LiesIn root stack (.obj (members.reverse ++ m :: rest) ending)
  | .colon members key stack => ∃ d, LiesIn root (.members members key :: stack) d
  | .afterMember members stack =>
    ∃ rest ending, LiesIn root stack (.obj (members.reverse ++ rest) ending)
  | .whole d => d = root
  | .overfull _ | .halted _ => False

section

variable {root : Doc} {stack : List Frame} {t : Token}

/-- If completing a document leads to the root, the document lies in it. -/
theorem liesIn_of_complete {d : Doc} (h : (complete d stack).LeadsTo root) :
    LiesIn root stack d := by
  cases stack with
  | nil =>
    obtain rfl : d = root := h
    exact .root
  | cons f stack =>
    cases f with
    | items before =>
      obtain ⟨rest, ending, h⟩ := h
      rw [List.reverse_cons, List.append_assoc] at h
      exact .item h
    | members before key =>
      obtain ⟨rest, ending, h⟩ := h
      rw [List.reverse_cons, List.append_assoc] at h
      exact .member h

/-- A token that is a value by itself is that value. -/
theorem onValue_scalar {d : Doc} (ht : t.scalar? = some d) :
    onValue t stack = complete d stack := by
  cases t with
  | null | bool b | num n | str s =>
    obtain rfl := Option.some.inj ht
    rfl
  | _ => cases ht

/-- If a token where a value is wanted leads to the root, some value lies there. -/
theorem liesIn_of_onValue (h : (onValue t stack).LeadsTo root) : ∃ d, LiesIn root stack d := by
  cases t with
  | null | bool b | num n | str s => exact ⟨_, liesIn_of_complete h⟩
  | openArray =>
    obtain ⟨items, ending, h⟩ := h
    exact ⟨_, h⟩
  | openObject =>
    obtain ⟨members, ending, h⟩ := h
    exact ⟨_, h⟩
  | _ => exact h.elim

/-- If a token where a key is wanted leads to the root, it is a string, and a member of this key
lies there. -/
theorem liesIn_of_onKey {members : List (Key × Doc)} (h : (onKey t members stack).LeadsTo root) :
    ∃ s d rest ending, t = .str s
      ∧ LiesIn root stack (.obj (members.reverse ++ (.text s, d) :: rest) ending) := by
  cases t with
  | str s =>
    obtain ⟨d, h⟩ := h
    cases h with
    | member h => exact ⟨s, d, _, _, rfl, h⟩
  | _ => exact h.elim

/-- Whatever a token leads to, the state before it leads to. -/
theorem leadsTo_of_step {b : Builder} (h : (b.step t).LeadsTo root) : b.LeadsTo root := by
  -- One case for each thing that may be awaited: what lies in the root after the token did so
  -- before.
  cases b with
  | value stack => exact liesIn_of_onValue h
  | firstItem stack =>
    rw [step] at h
    split at h
    · exact ⟨_, _, liesIn_of_complete h⟩
    · obtain ⟨d, h⟩ := liesIn_of_onValue h
      cases h with
      | item h => exact ⟨_, _, h⟩
  | afterItem items stack =>
    cases t with
    | comma =>
      obtain ⟨d, h⟩ := h
      cases h with
      | item h => exact ⟨_, _, h⟩
    | closeArray =>
      refine ⟨[], .closed, ?_⟩
      rw [List.append_nil]
      exact liesIn_of_complete h
    | _ => exact h.elim
  | firstKey stack =>
    rw [step] at h
    split at h
    · exact ⟨_, _, liesIn_of_complete h⟩
    · obtain ⟨s, d, rest, ending, -, h⟩ := liesIn_of_onKey h
      exact ⟨_, _, h⟩
  | nextKey members stack =>
    obtain ⟨s, d, rest, ending, -, h⟩ := liesIn_of_onKey h
    exact ⟨_, _, _, h⟩
  | colon members key stack =>
    rw [step] at h
    split at h
    · exact h
    · exact h.elim
  | afterMember members stack =>
    cases t with
    | comma =>
      obtain ⟨m, rest, ending, h⟩ := h
      exact ⟨_, _, h⟩
    | closeObject =>
      refine ⟨[], .closed, ?_⟩
      rw [List.append_nil]
      exact liesIn_of_complete h
    | _ => exact h.elim
  | whole d => exact h.elim
  | overfull d => exact h.elim
  | halted d => exact h.elim

/-- What leads to the root after some tokens led to it before them. -/
theorem leadsTo_of_run {b : Builder} {ts : List Token} (h : (b.run ts).LeadsTo root) :
    b.LeadsTo root := by
  induction ts generalizing b with
  | nil => exact h
  | cons t ts ih => exact leadsTo_of_step (ih h)

/-! ## Fronts -/

/-- An object that breaks off at a key is a front of the whole one. -/
theorem isFront_keyless {piece : Broken} {members rest : List (Key × Doc)} {m : Key × Doc}
    {ending : Ending} (hpiece : m.1 ≠ .text none → piece.strict = .truncated)
    (h : LiesIn root stack (.obj (members.reverse ++ m :: rest) ending)) :
    (abandoned (keyless piece members) stack).IsFront root := by
  rw [keyless, List.reverse_cons]
  exact isFront_abandoned h (.obj ((Doc.HaveFront.key hpiece).append _))

/-- The document of a state is a front of the root it leads to, as long as something is to come. -/
theorem isFront_finish {b : Builder} (h : b.LeadsTo root) (hb : b ≠ .whole root) :
    b.finish.IsFront root := by
  -- Closing what is open leaves a front: of an array, of an object, or of a value that is yet to
  -- come.
  cases b with
  | value stack =>
    obtain ⟨d, h⟩ := h
    exact isFront_abandoned h (.piece fun _ => rfl)
  | firstItem stack =>
    obtain ⟨items, ending, h⟩ := h
    exact isFront_abandoned h (.arr .nil)
  | afterItem items stack =>
    obtain ⟨rest, ending, h⟩ := h
    exact isFront_abandoned h (.arr (Doc.areFront_append _ _))
  | firstKey stack =>
    obtain ⟨members, ending, h⟩ := h
    exact isFront_abandoned h (.obj .nil)
  | nextKey members stack =>
    obtain ⟨m, rest, ending, h⟩ := h
    exact isFront_keyless (fun _ => rfl) h
  | colon members key stack =>
    obtain ⟨d, h⟩ := h
    exact isFront_abandoned h (.piece fun _ => rfl)
  | afterMember members stack =>
    obtain ⟨rest, ending, h⟩ := h
    exact isFront_abandoned h (.obj (Doc.haveFront_append _ _))
  | whole d => exact absurd (congrArg whole h) hb
  | overfull d => exact h.elim
  | halted d => exact h.elim

/-- At the end of the text a completed document closes what is open around it. -/
theorem finish_complete (d : Doc) (stack : List Frame) :
    (complete d stack).finish = abandoned d stack := by
  cases stack with
  | nil => rfl
  | cons f stack => cases f <;> rfl

/-- A broken piece in the place of a value or of a key makes a front. -/
theorem isFront_broken {b : Builder} {d : Doc} {piece : Broken} (h : (b.step t).LeadsTo root)
    (ht : t.scalar? = some d) (hpiece : d ≠ .str none → piece.strict = .truncated)
    (hkey : ∀ s, t = .str s → piece.mayBeKey = true) :
    (b.step (.broken piece)).finish.IsFront root := by
  have honValue : ∀ stack, (onValue t stack).LeadsTo root →
      (onValue (.broken piece) stack).finish.IsFront root := by
    intro stack h
    rw [onValue_scalar ht] at h
    exact isFront_abandoned (liesIn_of_complete h) (.piece hpiece)
  have honKey : ∀ members stack, (onKey t members stack).LeadsTo root →
      (onKey (.broken piece) members stack).finish.IsFront root := by
    intro members stack h
    obtain ⟨s, d', rest, ending, rfl, hlies⟩ := liesIn_of_onKey h
    obtain rfl := Option.some.inj ht
    rw [onKey, if_pos (hkey s rfl)]
    refine isFront_keyless (fun hs => hpiece fun heq => hs ?_) hlies
    rw [Doc.str.inj heq]
  -- The broken piece is taken where the whole token is, as a value or as a key.
  cases b with
  | value stack => exact honValue stack h
  | firstItem stack =>
    rw [step, if_neg (by rintro rfl; cases ht)] at h
    exact honValue _ h
  | afterItem items stack => cases t <;> first | exact h.elim | cases ht
  | firstKey stack =>
    rw [step, if_neg (by rintro rfl; cases ht)] at h
    exact honKey _ _ h
  | nextKey members stack => exact honKey _ _ h
  | colon members key stack =>
    rw [step, if_neg (by rintro rfl; cases ht)] at h
    exact h.elim
  | afterMember members stack => cases t <;> first | exact h.elim | cases ht
  | whole d => exact h.elim
  | overfull d => exact h.elim
  | halted d => exact h.elim

/-- So does a number that ends too early. -/
theorem isFront_num {b : Builder} {v v' : Option Number} (h : (b.step (.num v')).LeadsTo root)
    (hv : v'.isSome = true → v.isSome = true) : (b.step (.num v)).finish.IsFront root := by
  have hvalue : ∀ stack, (complete (.num v') stack).LeadsTo root →
      (complete (.num v) stack).finish.IsFront root := by
    intro stack h
    rw [finish_complete]
    exact isFront_abandoned (liesIn_of_complete h) (.num hv)
  cases b with
  | value stack => exact hvalue stack h
  | firstItem stack => exact hvalue (.items [] :: stack) h
  | _ => exact h.elim

end

end Builder

/-! ## Documents that are not complete -/

/-- The document has broken off, at its end at the latest. -/
def Doc.isOpen : Doc → Bool
  | .broken _ | .arr _ (.faulty _) | .obj _ (.faulty _) => true
  | _ => false

/-- A front has broken off, unless it is a number. -/
theorem Doc.IsFront.isOpen_or_num {d d' : Doc} (h : d.IsFront d') :
    d.isOpen = true ∨ ∃ v, d = .num v := by
  cases h with
  | num h => exact .inr ⟨_, rfl⟩
  | _ => exact .inl rfl

namespace Builder

/-- Around an open document everything is open. -/
theorem isOpen_abandoned {d : Doc} (h : d.isOpen = true) (stack : List Frame) :
    (abandoned d stack).isOpen = true := by
  induction stack generalizing d with
  | nil => exact h
  | cons f stack ih =>
    cases f with
    | items before => exact ih rfl
    | members before key => exact ih rfl

/-- If the builder has stopped, it has a document that has broken off. -/
def HaltsOpen : Builder → Prop
  | .halted d => d.isOpen = true
  | _ => True

/-- Completing a document does not stop the builder. -/
theorem haltsOpen_complete (d : Doc) (stack : List Frame) : (complete d stack).HaltsOpen := by
  cases stack with
  | nil => trivial
  | cons f stack => cases f <;> trivial

/-- Where a value is wanted, a token that stops the builder leaves the document open. -/
theorem haltsOpen_onValue (t : Token) (stack : List Frame) : (onValue t stack).HaltsOpen := by
  cases t with
  | null | bool b | num n | str s => exact haltsOpen_complete _ stack
  | openArray | openObject => trivial
  | _ => exact isOpen_abandoned rfl stack

/-- Where a key is wanted, a token that stops the builder leaves the document open. -/
theorem haltsOpen_onKey (t : Token) (members : List (Key × Doc)) (stack : List Frame) :
    (onKey t members stack).HaltsOpen := by
  cases t with
  | str s => trivial
  | _ => exact isOpen_abandoned rfl stack

/-- A token that stops the builder leaves the document open. -/
theorem haltsOpen_step {b : Builder} (h : b.HaltsOpen) (t : Token) : (b.step t).HaltsOpen := by
  -- The builder stops only at a token that it has no use for, and then leaves everything open.
  cases b with
  | value stack => exact haltsOpen_onValue t stack
  | firstItem stack =>
    rw [step]
    split
    · exact haltsOpen_complete _ stack
    · exact haltsOpen_onValue t _
  | afterItem items stack =>
    cases t with
    | comma => trivial
    | closeArray => exact haltsOpen_complete _ stack
    | _ => exact isOpen_abandoned rfl stack
  | firstKey stack =>
    rw [step]
    split
    · exact haltsOpen_complete _ stack
    · exact haltsOpen_onKey t [] stack
  | nextKey members stack => exact haltsOpen_onKey t members stack
  | colon members key stack =>
    rw [step]
    split
    · trivial
    · exact isOpen_abandoned rfl _
  | afterMember members stack =>
    cases t with
    | comma => trivial
    | closeObject => exact haltsOpen_complete _ stack
    | _ => exact isOpen_abandoned rfl stack
  | whole d => trivial
  | overfull d => trivial
  | halted d => exact h

/-- If tokens stop the builder, the document is open. -/
theorem haltsOpen_run {b : Builder} (h : b.HaltsOpen) (ts : List Token) : (b.run ts).HaltsOpen := by
  induction ts generalizing b with
  | nil => exact h
  | cons t ts ih => exact ih (haltsOpen_step h t)

/-- Only a complete document has not broken off. -/
theorem eq_whole_of_finish {b : Builder} (h : b.HaltsOpen) (hfinish : b.finish.isOpen = false)
    (hover : b.isOverfull = false) : b = .whole b.finish := by
  have habsurd : ∀ (d : Doc) (stack : List Frame), d.isOpen = true →
      (abandoned d stack).isOpen = false → b = .whole b.finish := by
    intro d stack hd hclosed
    rw [isOpen_abandoned hd] at hclosed
    cases hclosed
  cases b with
  | whole d => rfl
  | overfull d => cases hover
  | halted d =>
    have hclosed : d.isOpen = false := hfinish
    rw [show d.isOpen = true from h] at hclosed
    cases hclosed
  | value stack | firstItem stack | afterItem items stack | firstKey stack | nextKey members stack
  | afterMember members stack => exact habsurd _ stack rfl hfinish
  | colon members key stack =>
    exact habsurd (.broken .endOfText) (.members members key :: stack) rfl hfinish

/-- A builder that holds the whole leads to it. -/
theorem leadsTo_of_eq_whole {b : Builder} {root : Doc} (h : b = .whole root) :
    b.LeadsTo root := by
  rw [h]
  exact rfl

/-- A broken piece leads to nothing. -/
theorem not_leadsTo_step_broken {b : Builder} {piece : Broken} {root : Doc} :
    ¬(b.step (.broken piece)).LeadsTo root := by
  cases b <;> exact id

/-- A complete document is complete with its last token. -/
theorem eq_nil_of_whole {d root : Doc} {ts : List Token} (h : ((whole d).run ts).LeadsTo root) :
    ts = [] := by
  cases ts with
  | nil => rfl
  | cons t ts => exact (leadsTo_of_run h : ((whole d).step t).LeadsTo root).elim

/-- A number alone completes nothing but itself. -/
theorem eq_num_of_step {b : Builder} {v : Option Number} {d : Doc}
    (h : b.step (.num v) = .whole d) :
    d = .num v := by
  have hcomplete : ∀ stack, complete (.num v) stack = .whole d → d = .num v := by
    intro stack h
    cases stack with
    | nil => exact (whole.inj h).symm
    | cons f stack => cases f <;> cases h
  cases b with
  | value stack => exact hcomplete stack h
  | firstItem stack => exact hcomplete (.items [] :: stack) h
  | _ => cases h

end Builder

end StepPlan.Json
