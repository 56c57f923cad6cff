import StepPlan.Json.Lexer

/-!
# Documents

The nesting of the tokens of a text, before anything is asked of it. A document is complete or
not: where the text breaks off or goes wrong, the innermost array or object ends with that fault,
or holds a broken item, and so does everything around it. Reading a document in order therefore
meets the faults of the text in the order of the text, among whatever else the reader objects to.

`Doc.ofTokens` builds the document in one pass over the tokens with a stack of the open arrays and
objects (`Frame`); `Builder` is what it waits for.
-/

namespace StepPlan.Json

/-- How an array or object ends, behind its last complete member. -/
inductive Ending where
  | closed
  /-- With a fault, where a comma or the closing bracket should stand. -/
  | faulty (fault : Fault)
deriving DecidableEq

/-- What stands where a key is wanted. -/
inductive Key where
  | text (value : Option String)
  | broken (piece : Broken)
deriving DecidableEq

/-- What a text says, as far as it can be followed. -/
inductive Doc where
  | null
  | bool (value : Bool)
  | num (value : Option Number)
  | str (value : Option String)
  | arr (items : List Doc) (ending : Ending)
  | obj (members : List (Key × Doc)) (ending : Ending)
  | broken (piece : Broken)

instance : Inhabited Doc := ⟨.null⟩

namespace Broken

/-- The text ends where something is wanted. -/
def endOfText : Broken :=
  ⟨true, .truncated, .truncated⟩

/-- A token stands where another is wanted. -/
def misplaced : Broken :=
  ⟨false, .malformed, .malformed⟩

end Broken

/-- An open array or object around the value that is being read; what it holds so far, last first.
-/
inductive Frame where
  | items (before : List Doc)
  | members (before : List (Key × Doc)) (key : Key)

/-- What the next token is read as. -/
inductive Builder where
  | value (stack : List Frame)
  /-- The first item of an array, or its closing bracket. -/
  | firstItem (stack : List Frame)
  /-- A comma after an item, or the closing bracket. -/
  | afterItem (items : List Doc) (stack : List Frame)
  /-- The first key of an object, or its closing brace. -/
  | firstKey (stack : List Frame)
  | nextKey (members : List (Key × Doc)) (stack : List Frame)
  | colon (members : List (Key × Doc)) (key : Key) (stack : List Frame)
  /-- A comma after a member, or the closing brace. -/
  | afterMember (members : List (Key × Doc)) (stack : List Frame)
  | whole (root : Doc)
  /-- Nothing: the document is complete, and something stands behind it. -/
  | overfull (root : Doc)
  /-- Nothing: the text is broken. -/
  | halted (root : Doc)

namespace Builder

/-- A complete value takes its place in the frame around it. -/
def complete (d : Doc) : List Frame → Builder
  | [] => .whole d
  | .items before :: stack => .afterItem (d :: before) stack
  | .members before key :: stack => .afterMember ((key, d) :: before) stack

/-- The document when the value being read is the last thing that can be followed. The endings of
the arrays and objects around it are never looked at. -/
def abandoned (d : Doc) : List Frame → Doc
  | [] => d
  | .items before :: stack =>
    abandoned (.arr (d :: before).reverse (.faulty .truncated)) stack
  | .members before key :: stack =>
    abandoned (.obj ((key, d) :: before).reverse (.faulty .truncated)) stack

/-- Stops at the value being read. -/
def halt (d : Doc) (stack : List Frame) : Builder :=
  .halted (abandoned d stack)

/-- A token where a value is wanted. -/
def onValue (t : Token) (stack : List Frame) : Builder :=
  match t with
  | .null => complete .null stack
  | .bool b => complete (.bool b) stack
  | .num n => complete (.num n) stack
  | .str s => complete (.str s) stack
  | .openArray => .firstItem stack
  | .openObject => .firstKey stack
  | .broken piece => halt (.broken piece) stack
  | .closeArray | .closeObject | .colon | .comma => halt (.broken .misplaced) stack

/-- An object that breaks off where a key is wanted. -/
def keyless (piece : Broken) (members : List (Key × Doc)) : Doc :=
  .obj ((.broken piece, .broken piece) :: members).reverse (.faulty piece.strict)

/-- A token where a key is wanted. -/
def onKey (t : Token) (members : List (Key × Doc)) (stack : List Frame) : Builder :=
  match t with
  | .str s => .colon members (.text s) stack
  | .broken piece =>
    halt (keyless (if piece.mayBeKey then piece else .misplaced) members) stack
  | _ => halt (keyless .misplaced members) stack

/-- What is read after a token. -/
def step (b : Builder) (t : Token) : Builder :=
  match b with
  | .value stack => onValue t stack
  | .firstItem stack =>
    if t = .closeArray then complete (.arr [] .closed) stack
    else onValue t (.items [] :: stack)
  | .afterItem items stack =>
    match t with
    | .comma => .value (.items items :: stack)
    | .closeArray => complete (.arr items.reverse .closed) stack
    | _ => halt (.arr items.reverse (.faulty .malformed)) stack
  | .firstKey stack =>
    if t = .closeObject then complete (.obj [] .closed) stack
    else onKey t [] stack
  | .nextKey members stack => onKey t members stack
  | .colon members key stack =>
    if t = .colon then .value (.members members key :: stack)
    else halt (.broken .misplaced) (.members members key :: stack)
  | .afterMember members stack =>
    match t with
    | .comma => .nextKey members stack
    | .closeObject => complete (.obj members.reverse .closed) stack
    | _ => halt (.obj members.reverse (.faulty .malformed)) stack
  -- One token behind the document is enough; what it says does not matter.
  | .whole root => .overfull root
  | .overfull root => .overfull root
  | .halted root => .halted root

/-- The document when the tokens end. -/
def finish : Builder → Doc
  | .value stack => abandoned (.broken .endOfText) stack
  | .firstItem stack => abandoned (.arr [] (.faulty .truncated)) stack
  | .afterItem items stack => abandoned (.arr items.reverse (.faulty .truncated)) stack
  | .firstKey stack => abandoned (.obj [] (.faulty .truncated)) stack
  | .nextKey members stack => abandoned (keyless .endOfText members) stack
  | .colon members key stack => abandoned (.broken .endOfText) (.members members key :: stack)
  | .afterMember members stack =>
    abandoned (.obj members.reverse (.faulty .truncated)) stack
  | .whole root | .overfull root | .halted root => root

/-- Something stands behind the complete document. -/
def isOverfull : Builder → Bool
  | .overfull _ => true
  | _ => false

end Builder

/-- A text as a document, and whether anything but blanks stands behind it. -/
structure Parsed where
  root : Doc
  /-- Something stands behind the document. -/
  overfull : Bool

namespace Doc

/-- The document of some tokens. -/
def ofTokens (ts : List Token) : Parsed :=
  let b := ts.foldl Builder.step (.value [])
  ⟨b.finish, b.isOverfull⟩

/-- The document of a text. -/
def ofText (s : String) : Parsed :=
  ofTokens (Token.ofChars s.toList)

end Doc

end StepPlan.Json
