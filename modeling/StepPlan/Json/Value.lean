import StepPlan.Number.Basic

/-!
# JSON values

The payload of a node. Reading keeps the members of an object sorted by key, with one member a key:
`insertMember` is how a member gets there, and a later member takes the place of an earlier one of
the same key. `Json.same` is equality of values: numbers compare by sort and then by value, so that
the two zeros of a double are the same.

Values are written without any blanks, the members of an object in their order. A string escapes the
quote, the backslash and the control characters below U+0020, the five common ones by their letter
and the others as four hexadecimal digits; everything else stands for itself.
-/

namespace StepPlan

/-- A JSON value. -/
inductive Json where
  | null
  | bool (value : Bool)
  | num (value : Number)
  | str (value : String)
  | arr (items : List Json)
  /-- An object, as its members in order. -/
  | obj (members : List (String × Json))

namespace Json

instance : Inhabited Json := ⟨.null⟩

mutual

/-- Equality of values. -/
def same : Json → Json → Bool
  | .null, .null => true
  | .bool a, .bool b => a == b
  | .num a, .num b => a.same b
  | .str a, .str b => a == b
  | .arr a, .arr b => sameItems a b
  | .obj a, .obj b => sameMembers a b
  | _, _ => false

/-- Equality of item lists. -/
def sameItems : List Json → List Json → Bool
  | [], [] => true
  | a :: as, b :: bs => same a b && sameItems as bs
  | _, _ => false

/-- Equality of member lists. -/
def sameMembers : List (String × Json) → List (String × Json) → Bool
  | [], [] => true
  | (k, a) :: as, (l, b) :: bs => k == l && same a b && sameMembers as bs
  | _, _ => false

end

mutual

/-- Every value equals itself. -/
theorem same_self : ∀ j : Json, j.same j = true
  | .null => rfl
  | .bool _ | .str _ => by simp [same]
  | .num n => Number.same_self n
  | .arr items => sameItems_self items
  | .obj members => sameMembers_self members

theorem sameItems_self : ∀ items : List Json, sameItems items items = true
  | [] => rfl
  | item :: items => by simp [sameItems, same_self item, sameItems_self items]

theorem sameMembers_self : ∀ members : List (String × Json), sameMembers members members = true
  | [] => rfl
  | (key, value) :: members => by
    simp [sameMembers, same_self value, sameMembers_self members]

end

/-- Puts a member among sorted ones, in the place of any member of the same key. -/
def insertMember (key : String) (value : Json) :
    List (String × Json) → List (String × Json)
  | [] => [(key, value)]
  | (k, v) :: rest =>
    if key < k then (key, value) :: (k, v) :: rest
    else if key = k then (key, value) :: rest
    else (k, v) :: insertMember key value rest

end Json

end StepPlan

/-! ## The text of values -/

namespace StepPlan.Json

/-- The spelling of one character inside a string. -/
def escapedChar (c : Char) : List Char :=
  match c with
  | '"' => ['\\', '"']
  | '\\' => ['\\', '\\']
  | '\x08' => ['\\', 'b']
  | '\x0c' => ['\\', 'f']
  | '\n' => ['\\', 'n']
  | '\r' => ['\\', 'r']
  | '\t' => ['\\', 't']
  | c =>
    if c.toNat < 0x20 then
      ['\\', 'u', '0', '0', Nat.digitChar (c.toNat / 16), Nat.digitChar (c.toNat % 16)]
    else [c]

/-- A string between its quotes. -/
def stringChars (s : String) : List Char :=
  '"' :: (s.toList.flatMap escapedChar ++ ['"'])

mutual

/-- The characters of a value. -/
def chars : Json → List Char
  | .null => ['n', 'u', 'l', 'l']
  | .bool true => ['t', 'r', 'u', 'e']
  | .bool false => ['f', 'a', 'l', 's', 'e']
  | .num n => n.chars
  | .str s => stringChars s
  | .arr [] => ['[', ']']
  | .arr (item :: items) => '[' :: (chars item ++ itemChars items)
  | .obj [] => ['{', '}']
  | .obj ((key, value) :: members) =>
    '{' :: (stringChars key ++ ':' :: (chars value ++ memberChars members))

/-- The items after the first one, and the closing bracket. -/
def itemChars : List Json → List Char
  | [] => [']']
  | item :: items => ',' :: (chars item ++ itemChars items)

/-- The members after the first one, and the closing brace. -/
def memberChars : List (String × Json) → List Char
  | [] => ['}']
  | (key, value) :: members =>
    ',' :: (stringChars key ++ ':' :: (chars value ++ memberChars members))

end

/-- The text of a value. -/
def text (j : Json) : String :=
  String.ofList j.chars

end StepPlan.Json
