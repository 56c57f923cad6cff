/-!
# Names

What the names of a definition mean: the kind of a node, which says how it takes part in execution,
and its operation. Kinds and the three reserved operations are recognised whatever the case of the
ASCII letters of their names. `Text.lowered` makes the ASCII capitals of a text small and leaves
every other character alone; two texts have the same letters when their lowered forms agree.

Nothing but its three names is a kind. A reserved operation keeps its node out of the plan, and any
other name is an operation for the runtime, kept letter for letter.
-/

namespace StepPlan

/-! ## Letter case -/

namespace Text

/-- The characters of `s` with the ASCII capitals made small. -/
def lowered (s : String) : List Char :=
  s.toList.map Char.toLower

/-- `a` and `b` are the same text up to the case of ASCII letters. -/
def sameLetters (a b : String) : Bool :=
  lowered a == lowered b

/-- Texts have the same letters when their lowered forms agree. -/
theorem sameLetters_iff {a b : String} : sameLetters a b = true ↔ lowered a = lowered b := by
  simp [sameLetters]

theorem sameLetters_symm {a b : String} (h : sameLetters a b = true) :
    sameLetters b a = true :=
  sameLetters_iff.2 (sameLetters_iff.1 h).symm

theorem sameLetters_trans {a b c : String} (hab : sameLetters a b = true)
    (hbc : sameLetters b c = true) : sameLetters a c = true :=
  sameLetters_iff.2 ((sameLetters_iff.1 hab).trans (sameLetters_iff.1 hbc))

end Text

/-! ## Node kinds -/

/-- How a node takes part in execution. -/
inductive NodeKind where
  /-- A leaf that is executed. -/
  | terminal
  /-- A node that is executed, and its children after it. -/
  | nonTerminal
  /-- A leaf that holds information and is never executed. -/
  | nonExecutable
deriving DecidableEq

namespace NodeKind

instance : Inhabited NodeKind := ⟨.terminal⟩

/-- All kinds in order. -/
def all : List NodeKind :=
  [.terminal, .nonTerminal, .nonExecutable]

/-- The name of a kind. -/
def name : NodeKind → String
  | .terminal => "Terminal"
  | .nonTerminal => "NonTerminal"
  | .nonExecutable => "TerminalNonExecutable"

/-- The place of a kind in the order. -/
def index : NodeKind → Nat
  | .terminal => 0
  | .nonTerminal => 1
  | .nonExecutable => 2

/-- The kind of a name in letters of any case. -/
def ofName? (s : String) : Option NodeKind :=
  all.find? fun k => Text.sameLetters k.name s

/-- The kind of a name in exactly its own letters. -/
def ofExactName? (s : String) : Option NodeKind :=
  all.find? fun k => k.name == s

/-- A kind is found by its own name. -/
theorem ofName?_name (k : NodeKind) : ofName? k.name = some k := by
  cases k <;> decide +kernel

/-- A kind is found by its own name, letter for letter. -/
theorem ofExactName?_name (k : NodeKind) : ofExactName? k.name = some k := by
  cases k <;> decide +kernel

end NodeKind

/-! ## Operations -/

/-- What a node means. -/
inductive Operation where
  /-- A setting; in front of all operations it says whether redirects are followed. -/
  | type
  /-- A block of assertions. -/
  | validate
  /-- A redirect marker. -/
  | followRedirect
  /-- An operation for the runtime. -/
  | named (name : String)
deriving DecidableEq

namespace Operation

instance : Inhabited Operation := ⟨.type⟩

/-- The name of an operation. -/
def name : Operation → String
  | .type => "type"
  | .validate => "validate"
  | .followRedirect => "follow_redirect"
  | .named s => s

/-- The operation is one of the three markers. -/
def isReserved : Operation → Bool
  | .named _ => false
  | _ => true

/-- The operation of a name: a marker if the letters are those of one, else a named operation. -/
def ofName (s : String) : Operation :=
  if Text.sameLetters s "type" then .type
  else if Text.sameLetters s "validate" then .validate
  else if Text.sameLetters s "follow_redirect" then .followRedirect
  else .named s

end Operation

end StepPlan
