import StepPlan.Json.Record
import StepPlan.Proofs.Json.ReadBack

/-!
# The parts of records are read back

`Doc.Reads read j a` says that a reader reads `a` from what the value `j` is written as. It holds of
the parts that records are made of: words, optional strings (`Doc.reads_optional`), lists whose
items are read back (`Doc.reads_list`), and variants. A record whose fields are read back one by one
is read back as a whole: `Doc.members_written`.
-/

namespace StepPlan.Json

/-! ## Whole numbers -/

/-- A list is written without doubles if its members are. -/
theorem areWhole_map {α : Type} {write : α → Json} {as : List α}
    (h : ∀ a ∈ as, (write a).isWhole = true) : areWhole (as.map write) = true := by
  induction as with
  | nil => rfl
  | cons a as ih =>
    have hrest := ih fun b hb => h b (List.mem_cons_of_mem a hb)
    rw [List.map_cons, areWhole, h a (List.mem_cons_self ..), hrest]
    rfl

/-- A word is in the range in which whole numbers are kept. -/
theorem isWhole_word (w : UInt64) : (num (.int w.toNat)).isWhole = true := by
  have hfits : w.toNat < 2 ^ (64 : Nat) := w.toNat_lt
  have hrange : Number.leastInt ≤ (w.toNat : Int) ∧ (w.toNat : Int) ≤ Number.greatestInt := by
    unfold Number.leastInt Number.greatestInt
    omega
  exact decide_eq_true hrange

/-- A text or none is written without doubles. -/
theorem isWhole_ofOption (v : Option String) : (ofOption v).isWhole = true := by
  cases v <;> rfl

namespace Doc

/-! ## Parts of records -/

/-- The reader reads `a` from what `j` is written as. -/
def Reads {α : Type} (read : Doc → Except ReadError α) (j : Json) (a : α) : Prop :=
  read (ofJson j) = .ok a

/-- A word is read back from its number, whatever type was wanted. -/
theorem reads_word (wanted : Wanted) (w : UInt64) :
    Reads (word wanted) (.num (.int w.toNat)) w := by
  show (if w.toNat < 2 ^ (64 : Nat) then Except.ok (UInt64.ofNat w.toNat) else _) = Except.ok w
  rw [if_pos w.toNat_lt, UInt64.ofNat_toNat]

/-- A string that may be absent is read back, as nothing from `null`. -/
theorem reads_optional (v : Option String) : Reads (optional string) (ofOption v) v := by
  cases v <;> rfl

/-- The documents of items are those of each item. -/
theorem ofItems_eq_map (items : List Json) : ofItems items = items.map ofJson := by
  induction items with
  | nil => rfl
  | cons item items ih => rw [ofItems, ih, List.map_cons]

/-- A list is read back if its items are. -/
theorem reads_list {α : Type} {read : Doc → Except ReadError α} {write : α → Json} {as : List α}
    (h : ∀ a ∈ as, Reads read (write a) a) : Reads (list read) (.arr (as.map write)) as := by
  have hitems : ((as.map write).map ofJson).mapM read = .ok as := by
    induction as with
    | nil => rfl
    | cons a as ih =>
      have hfirst : read (ofJson (write a)) = .ok a := h a (List.mem_cons_self ..)
      have hrest := ih fun b hb => h b (List.mem_cons_of_mem a hb)
      rw [List.map_cons, List.map_cons, List.mapM_cons, hfirst, hrest]
      rfl
  show ((ofItems (as.map write)).mapM read >>= fun items => Except.ok () >>= fun _ => .ok items) = _
  rw [ofItems_eq_map, hitems]
  rfl

/-! ## Members -/

section

variable {φ σ : Type} {field? : String → Option φ} {name : φ → String} {has : σ → φ → Bool}
  {read : σ → φ → Doc → Except ReadError σ}

/-- A member is read as the field it is named for, if that has not been read before. -/
theorem members_field {fields after : σ} {key : String} {f : φ} {d : Doc}
    (hkey : field? key = some f) (hnew : has fields f = false) (hread : read fields f d = .ok after)
    (rest : List (Key × Doc)) :
    members field? name has read fields ((.text (some key), d) :: rest)
      = members field? name has read after rest := by
  have hname : liftFault (Key.text (some key)).read = .ok key := rfl
  simp only [members, hname, bind, Except.bind, hkey, hnew, hread]
  rfl

/-- The members of a record are read back, in whatever order its fields have been written: each
under its own name, and what is written of a field is read as what the field holds. -/
theorem members_written [DecidableEq φ] {write : φ → Json} {put : σ → φ → σ}
    (hname : ∀ f, field? (name f) = some f)
    (hread : ∀ fields f, read fields f (ofJson (write f)) = .ok (put fields f))
    (hput : ∀ fields f g, has (put fields f) g = (decide (f = g) || has fields g))
    {fs : List φ} (hnodup : fs.Nodup) {fields : σ} (hnew : ∀ f ∈ fs, has fields f = false) :
    members field? name has read fields (ofMembers (fs.map fun f => (name f, write f)))
      = .ok (fs.foldl put fields) := by
  -- What carries the induction is that no field still to come has been read.
  induction fs generalizing fields with
  | nil => rfl
  | cons f fs ih =>
    obtain ⟨hf, hrest⟩ := List.nodup_cons.mp hnodup
    have hlater : ∀ g ∈ fs, has (put fields f) g = false := by
      intro g hg
      have hne : f ≠ g := fun heq => hf (heq ▸ hg)
      rw [hput, decide_eq_false hne, hnew g (List.mem_cons_of_mem f hg)]
      rfl
    rw [List.map_cons, ofMembers,
      members_field (hname f) (hnew f (List.mem_cons_self ..)) (hread fields f), ih hrest hlater]
    rfl

end

/-! ## Variants -/

section

variable {α β : Type} {names : List String} {find : String → Option β}
  {bare : β → Except ReadError α} {content : β → Doc → Except ReadError α} {name : String} {b : β}
  {a : α}

/-- A variant without content is read from its name. -/
theorem reads_variant_bare (hfind : find name = some b) (hbare : bare b = .ok a) :
    Reads (variant names find bare content) (.str name) a := by
  show (variantNamed names find name >>= bare) = .ok a
  rw [variantNamed, hfind]
  exact hbare

/-- A variant with content is read from the object that has it as the one member. -/
theorem reads_variant_content {j : Json} (hfind : find name = some b)
    (hcontent : content b (ofJson j) = .ok a) :
    Reads (variant names find bare content) (.obj [(name, j)]) a := by
  show (variantNamed names find name >>= fun b => content b (ofJson j) >>= _) = _
  rw [variantNamed, hfind]
  show (content b (ofJson j) >>= _) = _
  rw [hcontent]
  rfl

end

end Doc

end StepPlan.Json
