import StepPlan.Proofs.Plan.Directive
import StepPlan.Proofs.Plan.Parts

/-!
# What a plan says beside its steps

Whether a tree is rejected, whether redirects are followed and which warning is left is settled by
little of the tree: the number of its sections, whether there are operations, and the type marker in
front of them. Here each answer is told without the reader of directives: `Tree.RejectedFor` says
why a tree is rejected, `Json.States` which truth value a payload states, and `IsShownAs` how a
warning shows a payload that states none.

The three answers are read from the heading of a tree (`Tree.compile_eq_of_heading_eq`), and a
change elsewhere than at its first operation leaves that as it is (`Tree.heading_changedAt`). Main
statement: `Tree.compile_verdict`.
-/

namespace StepPlan

/-! ## Directives -/

/-- The value states a truth value: as itself, or as its word in letters of any case. -/
inductive Json.States : Json → Bool → Prop where
  | flag (b : Bool) : States (.bool b) b
  | yes {s : String} (h : Text.sameLetters s "true" = true) : States (.str s) true
  | no {s : String} (h : Text.sameLetters s "false" = true) : States (.str s) false

/-- How a warning shows a payload: a string as itself, any other value by its JSON text, and none as
`null`. -/
inductive IsShownAs : Option Json → String → Prop where
  | missing : IsShownAs none "null"
  | string (s : String) : IsShownAs (some (.str s)) s
  | other {v : Json} (h : ∀ s, v ≠ .str s) : IsShownAs (some v) v.text

/-- The payload states no truth value, or there is none. -/
def IsUnreadable (value : Option Json) : Prop :=
  ∀ v ∈ value, ∀ b, ¬v.States b

/-- The truth value of a directive is the one that its value states. -/
theorem Json.asFlag?_eq_some_iff {j : Json} {b : Bool} : j.asFlag? = some b ↔ j.States b := by
  constructor
  · intro h
    cases j with
    | bool c =>
      obtain rfl : c = b := Option.some.inj h
      exact .flag c
    | str s =>
      rw [asFlag?] at h
      split at h
      next hyes =>
        obtain rfl := Option.some.inj h
        exact .yes hyes
      next =>
        split at h
        next hno =>
          obtain rfl := Option.some.inj h
          exact .no hno
        next => cases h
    | null | num | arr | obj => cases h
  · intro h
    cases h with
    | flag b => rfl
    | yes h => rw [asFlag?, if_pos h]
    | @no s h =>
      -- The two words are asked for in turn, and no string has the letters of both.
      have hother : ¬Text.sameLetters s "true" = true := by
        intro hyes
        have hwords := Text.sameLetters_trans (Text.sameLetters_symm hyes) h
        exact absurd hwords (by decide +kernel)
      rw [asFlag?, if_neg hother, if_pos h]

theorem isShownAs_shown (value : Option Json) :
    IsShownAs value ((value.map Json.shown).getD "null") := by
  cases value with
  | none => exact .missing
  | some v =>
    by_cases hstring : ∃ s, v = .str s
    · obtain ⟨s, rfl⟩ := hstring
      exact .string s
    · have hother : ∀ s, v ≠ .str s := fun s hs => hstring ⟨s, hs⟩
      show IsShownAs (some v) v.shown
      rw [Json.shown_eq_text hother]
      exact .other hother

/-- A value that states a truth is read as it, without a warning. -/
theorem readDirective_of_states {v : Json} {b : Bool} (h : v.States b) :
    readDirective (some v) = (b, []) := by
  have hflag : (some v).bind Json.asFlag? = some b := Json.asFlag?_eq_some_iff.mpr h
  rw [readDirective, hflag]

/-- A value that states none leaves redirects followed, and a warning that shows it. -/
theorem readDirective_of_isUnreadable {value : Option Json} (h : IsUnreadable value) :
    readDirective value
      = (defaultFollowRedirects,
          [.unreadableDirective ((value.map Json.shown).getD "null")]) := by
  have hflag : value.bind Json.asFlag? = none := by
    rw [Option.eq_none_iff_forall_ne_some]
    intro b hb
    obtain ⟨v, hv, hstated⟩ := Option.bind_eq_some_iff.mp hb
    exact h v hv b (Json.asFlag?_eq_some_iff.mp hstated)
  rw [readDirective, hflag]

/-- A directive states a truth or is unreadable. -/
theorem isUnreadable_or (value : Option Json) :
    IsUnreadable value ∨ ∃ v b, value = some v ∧ v.States b := by
  by_cases h : ∃ v b, value = some v ∧ v.States b
  · exact .inr h
  · exact .inl fun v hv b hb => h ⟨v, b, hv, hb⟩

namespace Tree

/-! ## Rejection -/

/-- Why a tree is rejected: it has fewer than two sections, or its operations section is empty. -/
inductive RejectedFor (root : Tree) : Rejection → Prop where
  | tooFewSections (h : root.children.length < 2) :
      RejectedFor root (.tooFewSections root.children.length)
  | emptyOperations {operations : Tree} (h : root.children[operationsSection]? = some operations)
      (hempty : operations.children = []) : RejectedFor root .emptyOperations

/-- A tree is rejected when it lacks its operations section or that is empty. -/
theorem error_compile (root : Tree) :
    root.compile.error
      = match root.operations?.map List.isEmpty with
        | none => some (.tooFewSections root.children.length)
        | some true => some .emptyOperations
        | some false => none := by
  unfold compile compilation operations?
  cases root.children[operationsSection]? with
  | none => rfl
  | some operations =>
    cases hc : operations.children with
    | nil => simp only [Option.map_some, hc, List.isEmpty_nil, Compilation.rejected, Plan.error]
    | cons first others =>
      simp only [Option.map_some, hc, List.isEmpty_cons, Compilation.ofOperations, Plan.error]

theorem operations?_eq_none_iff {root : Tree} :
    root.operations? = none ↔ root.children.length < 2 := by
  rw [operations?, Option.map_eq_none_iff, List.getElem?_eq_none_iff, operationsSection]
  exact Nat.lt_succ_iff.symm

/-- The reason of a rejection is the first thing that is missing. -/
theorem error_compile_eq_some_iff {root : Tree} {reason : Rejection} :
    root.compile.error = some reason ↔ root.RejectedFor reason := by
  rw [error_compile]
  constructor
  · intro h
    -- No operations section, an empty one, or one with operations, which is no reason at all.
    cases ho : root.operations? with
    | none =>
      rw [ho] at h
      obtain rfl := Option.some.inj h
      exact .tooFewSections (operations?_eq_none_iff.mp ho)
    | some operations =>
      cases operations with
      | nil =>
        rw [ho] at h
        obtain rfl := Option.some.inj h
        obtain ⟨operations, hsection, hempty⟩ := Option.map_eq_some_iff.mp ho
        exact .emptyOperations hsection hempty
      | cons first others =>
        rw [ho] at h
        cases h
  · intro h
    cases h with
    | tooFewSections h =>
      rw [operations?_eq_none_iff.mpr h]
      rfl
    | @emptyOperations operations h hempty =>
      have hnil : root.operations? = some [] := Option.map_eq_some_iff.mpr ⟨operations, h, hempty⟩
      rw [hnil]
      rfl

/-! ## The leading type marker -/

/-- A type marker with this payload stands in front of all operations. -/
def LedBy (root : Tree) (value : Option Json) : Prop :=
  ∃ first, root.get? [operationsSection, 0] = some first ∧ first.operation = .type
    ∧ first.value = value

/-- A directive is there when the operations are led by a type marker. -/
theorem directive?_eq_some_iff {root : Tree} {value : Option Json} :
    root.directive? = some value ↔ root.LedBy value := by
  rw [directive?, Option.bind_eq_some_iff, LedBy]
  refine exists_congr fun first => and_congr_right fun _ => ?_
  by_cases ht : first.operation = .type
  · simp [ht]
  · simp [ht]

/-- A tree with a first operation is not rejected. -/
theorem LedBy.error_compile_eq_none {root : Tree} {value : Option Json} (h : root.LedBy value) :
    root.compile.error = none := by
  obtain ⟨first, hfirst, -⟩ := h
  obtain ⟨operations, hsection, hget⟩ := Option.bind_eq_some_iff.mp hfirst
  have hhead : operations.children[0]? = some first := by simpa using hget
  cases hc : operations.children with
  | nil =>
    rw [hc] at hhead
    cases hhead
  | cons f others =>
    have hoperations : root.operations? = some (f :: others) := by
      rw [operations?, hsection, Option.map_some, hc]
    exact Tree.error_compile_eq_none hoperations

theorem followRedirects_warnings_of_ledBy {root : Tree} {value : Option Json}
    (h : root.LedBy value) :
    (root.compile.followRedirects, root.compile.warnings) = readDirective value := by
  rw [directive_compile, directive?_eq_some_iff.mpr h]
  rfl

/-- A truth value that the leading marker states is what the plan says, without a warning. -/
theorem compile_of_states {root : Tree} {v : Json} {b : Bool} (h : root.LedBy (some v))
    (hstated : v.States b) :
    root.compile.followRedirects = b ∧ root.compile.warnings = [] := by
  have hread := followRedirects_warnings_of_ledBy h
  rw [readDirective_of_states hstated] at hread
  exact Prod.mk.inj hread

/-- A payload that states none leaves one warning, which shows it. -/
theorem compile_of_isUnreadable {root : Tree} {value : Option Json} (h : root.LedBy value)
    (hunreadable : IsUnreadable value) :
    root.compile.followRedirects = true
      ∧ ∃ text, IsShownAs value text ∧ root.compile.warnings = [.unreadableDirective text] := by
  have hread := followRedirects_warnings_of_ledBy h
  rw [readDirective_of_isUnreadable hunreadable] at hread
  obtain ⟨hfollow, hwarnings⟩ := Prod.mk.inj hread
  exact ⟨hfollow, _, isShownAs_shown value, hwarnings⟩

/-- Without a leading marker redirects are followed, and nothing is warned of. -/
theorem compile_of_not_ledBy {root : Tree} (h : ∀ value, ¬root.LedBy value) :
    root.compile.followRedirects = true ∧ root.compile.warnings = [] := by
  have hnone : root.directive? = none := by
    rw [Option.eq_none_iff_forall_ne_some]
    exact fun value hvalue => h value (directive?_eq_some_iff.mp hvalue)
  have hread := directive_compile root
  rw [hnone] at hread
  exact Prod.mk.inj hread

/-- One of three is the case of every tree. -/
theorem ledBy_cases (root : Tree) :
    (∃ v b, root.LedBy (some v) ∧ v.States b)
      ∨ (∃ value, root.LedBy value ∧ IsUnreadable value) ∨ ∀ value, ¬root.LedBy value := by
  by_cases hled : ∃ value, root.LedBy value
  · obtain ⟨value, hvalue⟩ := hled
    rcases isUnreadable_or value with hunreadable | ⟨v, b, rfl, hstated⟩
    · exact .inr (.inl ⟨value, hvalue, hunreadable⟩)
    · exact .inl ⟨v, b, hvalue, hstated⟩
  · exact .inr (.inr fun value hvalue => hled ⟨value, hvalue⟩)

/-- Redirects are not followed exactly when the leading marker says so. -/
theorem followRedirects_compile_eq_false_iff {root : Tree} :
    root.compile.followRedirects = false ↔ ∃ v, root.LedBy (some v) ∧ v.States false := by
  constructor
  · intro h
    rcases root.ledBy_cases with ⟨v, b, hled, hstated⟩ | ⟨value, hled, hunreadable⟩ | hnot
    · obtain rfl : b = false := (compile_of_states hled hstated).1.symm.trans h
      exact ⟨v, hled, hstated⟩
    · exact absurd ((compile_of_isUnreadable hled hunreadable).1.symm.trans h) Bool.noConfusion
    · exact absurd ((compile_of_not_ledBy hnot).1.symm.trans h) Bool.noConfusion
  · rintro ⟨v, hled, hstated⟩
    exact (compile_of_states hled hstated).1

/-- A warning is left exactly when the leading marker states no truth value. -/
theorem warnings_compile_ne_nil_iff {root : Tree} :
    root.compile.warnings ≠ [] ↔ ∃ value, root.LedBy value ∧ IsUnreadable value := by
  constructor
  · intro h
    rcases root.ledBy_cases with ⟨v, b, hled, hstated⟩ | hunreadable | hnot
    · exact absurd (compile_of_states hled hstated).2 h
    · exact hunreadable
    · exact absurd (compile_of_not_ledBy hnot).2 h
  · rintro ⟨value, hled, hunreadable⟩
    obtain ⟨-, text, -, hwarnings⟩ := compile_of_isUnreadable hled hunreadable
    rw [hwarnings]
    exact List.cons_ne_nil _ _

/-- A rejected tree has no steps and no warnings, and redirects are followed. -/
theorem compile_of_rejected {root : Tree} (h : root.compile.error ≠ none) :
    root.compile.steps = [] ∧ root.compile.warnings = [] ∧ root.compile.followRedirects = true := by
  cases hp : root.compile with
  | rejected reason => exact ⟨rfl, rfl, rfl⟩
  | executable steps followRedirects warnings =>
    rw [hp] at h
    exact absurd rfl h

/-! ## Changes elsewhere -/

/-- The operation and the payload that stand in front of all others. -/
def opening (operations : List Tree) : Option (Operation × Option Json) :=
  operations.head?.map fun first => (first.operation, first.value)

/-- The number of sections, and what opens the operations if there is a section for them. -/
def heading (root : Tree) : Nat × Option (Option (Operation × Option Json)) :=
  (root.children.length, root.operations?.map opening)

theorem directive?_eq_opening (root : Tree) :
    root.directive? = (root.operations?.bind opening).bind fun (operation, value) =>
      if operation = .type then some value else none := by
  unfold directive? operations? opening
  simp only [get?_cons, get?_nil]
  cases root.children[operationsSection]? with
  | none => rfl
  | some operations =>
    cases hc : operations.children with
    | nil => simp [hc]
    | cons first others => simp [hc]

/-- Nothing else of a tree has to do with its rejection, its directive and its warnings. -/
theorem compile_eq_of_heading_eq {a b : Tree} (h : a.heading = b.heading) :
    a.compile.error = b.compile.error
      ∧ a.compile.followRedirects = b.compile.followRedirects
      ∧ a.compile.warnings = b.compile.warnings := by
  obtain ⟨hlength, hopening⟩ := Prod.mk.inj h
  -- Whether there are operations and which directive they have is told by what opens them.
  have hempty : List.isEmpty = Option.isNone ∘ opening := by
    funext operations
    cases operations <;> rfl
  have hjoin : ∀ o : Option (List Tree), o.bind opening = (o.map opening).join := by
    intro o
    cases o <;> rfl
  have hdirective : (a.compile.followRedirects, a.compile.warnings)
      = (b.compile.followRedirects, b.compile.warnings) := by
    rw [directive_compile, directive_compile, directive?_eq_opening, directive?_eq_opening, hjoin,
      hjoin, hopening]
  refine ⟨?_, Prod.mk.inj hdirective⟩
  rw [error_compile, error_compile, hempty, ← Option.map_map, ← Option.map_map, hopening, hlength]

/-- The tree in which the node at a path is changed. -/
def changedAt (change : Tree → Tree) : List Nat → Tree → Tree
  | [], t => change t
  | i :: path, t => { t with children := t.children.modify i (changedAt change path) }

variable {change : Tree → Tree}

/-- A change beneath the first of some operations, or at another, leaves their opening. -/
theorem opening_modify_changedAt {i : Nat} {path : List Nat} (h : i :: path ≠ [0])
    (operations : List Tree) :
    opening (operations.modify i (changedAt change path)) = opening operations := by
  cases operations with
  | nil => rw [List.modify_nil]
  | cons first others =>
    cases i with
    | succ i => rfl
    | zero =>
      cases path with
      | nil => exact absurd rfl h
      | cons k path => rfl

/-- What is done to another node than the first operation leaves the heading of the tree, if the
nodes beneath it stay where they are as long as it stands above. -/
theorem heading_changedAt {path : List Nat} (hpath : path ≠ [operationsSection, 0])
    (hkeep : path <+: [operationsSection, 0] → ∀ t, (change t).children = t.children)
    (root : Tree) : (root.changedAt change path).heading = root.heading := by
  cases path with
  | nil =>
    have hchildren : (change root).children = root.children := hkeep List.nil_prefix root
    rw [changedAt, heading, heading, operations?, operations?, hchildren]
  | cons i path =>
    -- The number of sections stays. What opens the operations could change only if the path leads
    -- into their section, to the section itself or beneath it.
    have hopening : ∀ s : Tree, opening (if i = operationsSection then s.changedAt change path
        else s).children = opening s.children := by
      intro s
      split
      next hi =>
        cases path with
        | nil =>
          have hprefix : [i] <+: [operationsSection, 0] := ⟨[0], by rw [hi]; rfl⟩
          rw [changedAt, hkeep hprefix]
        | cons j path =>
          have hbeneath : j :: path ≠ [0] := fun h => hpath (by rw [hi, h])
          exact opening_modify_changedAt hbeneath s.children
      next => rfl
    simp only [heading, operations?, changedAt, List.length_modify, List.getElem?_modify,
      Option.map_map, Option.map_eq_map]
    congr 2
    funext s
    exact hopening s

/-! ## The verdict -/

/-- Every tree with fewer than two sections is rejected for their number, every other without
operations for that, and no other tree; a rejected plan is empty and follows redirects. Redirects
are not followed exactly when a tree is not rejected and the type marker in front of all operations
states `false`. A warning is left exactly when it is not rejected and the marker states no truth
value; it is the only one and shows the payload, and redirects are followed. Nothing but the heading
has a part in this, and no other node than the first operation has a part in the heading: it stays
whatever is done to such a node, as long as those beneath it stay where they are if it stands above
the first operation. -/
theorem compile_verdict (root : Tree) :
    (∀ reason, root.compile.error = some reason ↔ root.RejectedFor reason)
      ∧ (root.compile.error ≠ none → root.compile.steps = [] ∧ root.compile.warnings = []
          ∧ root.compile.followRedirects = true)
      ∧ (root.compile.followRedirects = false ↔ root.compile.error = none
          ∧ ∃ v, root.LedBy (some v) ∧ v.States false)
      ∧ (root.compile.warnings ≠ [] ↔ root.compile.error = none
          ∧ ∃ value, root.LedBy value ∧ IsUnreadable value)
      ∧ (∀ value, root.LedBy value → IsUnreadable value → root.compile.followRedirects = true
          ∧ ∃ text, IsShownAs value text ∧ root.compile.warnings = [.unreadableDirective text])
      ∧ (∀ other : Tree, other.heading = root.heading →
          other.compile.error = root.compile.error
            ∧ other.compile.followRedirects = root.compile.followRedirects
            ∧ other.compile.warnings = root.compile.warnings)
      ∧ ∀ path change, path ≠ [operationsSection, 0] →
          (path <+: [operationsSection, 0] → ∀ t : Tree, (change t).children = t.children) →
          (root.changedAt change path).heading = root.heading := by
  refine ⟨fun reason => error_compile_eq_some_iff, compile_of_rejected, ?_, ?_,
    fun value => compile_of_isUnreadable, fun other => compile_eq_of_heading_eq,
    fun path change hpath hkeep => heading_changedAt hpath hkeep root⟩
  -- A tree with a directive has operations, so it is not rejected.
  · rw [followRedirects_compile_eq_false_iff]
    constructor
    · rintro ⟨v, hled, hstated⟩
      exact ⟨hled.error_compile_eq_none, v, hled, hstated⟩
    · rintro ⟨-, hfalse⟩
      exact hfalse
  · rw [warnings_compile_ne_nil_iff]
    constructor
    · rintro ⟨value, hled, hunreadable⟩
      exact ⟨hled.error_compile_eq_none, value, hled, hunreadable⟩
    · rintro ⟨-, hunreadable⟩
      exact hunreadable

/-- The tree of a marker that is no truth value before another one that is. -/
def mislabelledTree : Tree :=
  (leaf .nonTerminal (.named "root")).withChildren
    [leaf .nonExecutable (.named "info"),
      (leaf .nonTerminal (.named "execute")).withChildren
        [(leaf .nonExecutable .type).withValue (.str "off"),
          (leaf .nonExecutable .type).withValue (.bool false)]]

/-- Its warning shows the first marker, also if the second one is not there. -/
theorem warnings_mislabelledTree :
    mislabelledTree.LedBy (some (.str "off")) ∧ IsUnreadable (some (.str "off"))
      ∧ (∃ text, IsShownAs (some (.str "off")) text
          ∧ mislabelledTree.compile.warnings = [.unreadableDirective text])
      ∧ (mislabelledTree.changedAt (fun _ => leaf .terminal (.named "send"))
          [1, 1]).compile.warnings = mislabelledTree.compile.warnings := by
  have hled : mislabelledTree.LedBy (some (.str "off")) := ⟨_, rfl, rfl, rfl⟩
  have hunreadable : IsUnreadable (some (.str "off")) := by
    intro v hv b hstated
    obtain rfl := Option.some.inj hv
    have hflag := Json.asFlag?_eq_some_iff.mpr hstated
    have hnone : (Json.str "off").asFlag? = none := by decide +kernel
    rw [hnone] at hflag
    cases hflag
  obtain ⟨-, -, -, -, hwarned, halike, hchanged⟩ := compile_verdict mislabelledTree
  refine ⟨hled, hunreadable, (hwarned _ hled hunreadable).2, ?_⟩
  have hkeep : [1, 1] <+: [operationsSection, 0] →
      ∀ t : Tree, (leaf .terminal (.named "send")).children = t.children :=
    fun h => absurd h (by decide)
  have hheading := hchanged [1, 1] (fun _ => leaf .terminal (.named "send")) (by decide) hkeep
  exact (halike _ hheading).2.2

end Tree

end StepPlan
