import StepPlan.Json.Reading

/-!
# Records and variants

A record is an object whose members are its fields, in any order, or an array of all of them in
order. A variant is its name, or an object in which its content stands under its name.

* `Doc.members` reads the members of an object: a second member of the same field is an error as
  soon as its key is read, members of other names are passed over.
* `Doc.nextItem` and `Doc.noMoreItems` read a record item by item. Too few items are an error at
  the closing bracket, too many a fault.
* `Doc.variant` reads a variant. A name that is none is reported before the colon behind it is
  read.
-/

namespace StepPlan.Json

/-- An optional string as JSON. -/
def ofOption : Option String → Json
  | none => .null
  | some s => .str s

namespace Doc

/-! ## Records -/

/-- Reads the members of an object: those of known names with `read`, which is not told of the same
field twice; the others are passed over. -/
def members {φ σ : Type} (field? : String → Option φ) (name : φ → String) (has : σ → φ → Bool)
    (read : σ → φ → Doc → Except ReadError σ) (fields : σ) :
    List (Key × Doc) → Except ReadError σ
  | [] => .ok fields
  | (key, d) :: rest => do
    match field? (← liftFault key.read) with
    | none =>
      liftFault d.skip
      members field? name has read fields rest
    | some field =>
      if has fields field then .error (.mismatch (.duplicate (name field)))
      else do
        let fields ← read fields field d
        members field? name has read fields rest

/-- Reads the next item of a record written as an array, of which `index` have been read. -/
def nextItem {α : Type} (record : String) (fields : Nat) (ending : Ending) (index : Nat)
    (read : Doc → Except ReadError α) : List Doc → Except ReadError (α × List Doc)
  | [] => do
    liftFault ending.check
    .error (.mismatch (.length index record fields))
  | d :: rest => do
    let a ← read d
    return (a, rest)

/-- All items of a record have been read. -/
def noMoreItems (ending : Ending) : List Doc → Except ReadError Unit
  | [] => liftFault ending.check
  | _ :: _ => .error (.fault .malformed)

/-! ## Variants -/

/-- The variant that a name stands for. -/
def variantNamed {β : Type} (names : List String) (find : String → Option β) (name : String) :
    Except ReadError β :=
  match find name with
  | some b => .ok b
  | none => .error (.mismatch (.variant name names))

/-- Reads a variant: its name alone (`bare`), or an object with its content as the one member. The
names are those of `names`, and `find` knows what they name. -/
def variant {α β : Type} (names : List String) (find : String → Option β)
    (bare : β → Except ReadError α) (content : β → Doc → Except ReadError α) :
    Doc → Except ReadError α
  | .str (some s) => variantNamed names find s >>= bare
  | .obj ((key, d) :: members) ending => do
    let b ← variantNamed names find (← liftFault key.read)
    let a ← content b d
    match members with
    | [] => do
      liftFault ending.check
      return a
    | _ :: _ => .error (.fault .malformed)
  | .obj [] (.faulty f) => .error (.fault f)
  | .broken piece => .error (.fault (if piece.mayBeKey then piece.strict else .malformed))
  | _ => .error (.fault .malformed)

/-- Reads `null`. -/
def nothing : Doc → Except ReadError Unit
  | .null => .ok ()
  | d => .error (d.mismatch .nothing)

end Doc

end StepPlan.Json
