import StepPlan.Json.Value
import StepPlan.Text.Utf8
import StepPlan.Tree.Basic

/-!
# Fingerprints

A tree is spelled as one flat sequence of words and bytes (`Tree.code`): for every node in
pre-order its kind, its operation with the name of a named one, whether it has a value and the
JSON text of that value, and the number of its children. A text ends with the byte `FF`, which no
text contains. The fingerprint is a digest of this sequence in 64 bits. How a digest is made is left
to a `Hasher`; the program comes with one, and nothing else here depends on how it mixes.
-/

namespace StepPlan

/-- A piece of the code of a tree. -/
inductive Atom where
  | word (value : Nat)
  | byte (value : UInt8)
deriving DecidableEq

namespace Atom

/-- The bytes of a text and the byte that ends it. -/
def text (cs : List Char) : List Atom :=
  (Text.Utf8.encode cs).map .byte ++ [.byte 0xFF]

end Atom

namespace Operation

/-- The place of an operation among the sorts of operations. -/
def index : Operation → Nat
  | .type => 0
  | .validate => 1
  | .followRedirect => 2
  | .named _ => 3

/-- The code of an operation. -/
def code : Operation → List Atom
  | .named s => .word 3 :: Atom.text s.toList
  | o => [.word o.index]

end Operation

/-- The code of a payload. -/
def payloadCode : Option Json → List Atom
  | none => [.byte 0]
  | some v => .byte 1 :: Atom.text v.chars

namespace Tree

mutual

/-- The code of a tree. -/
def code : Tree → List Atom
  | ⟨kind, operation, value, children⟩ =>
    .word kind.index :: (operation.code ++ (payloadCode value
      ++ .word children.length :: forestCode children))

/-- The codes of some trees, one after the other. -/
def forestCode : List Tree → List Atom
  | [] => []
  | t :: ts => code t ++ forestCode ts

end

end Tree

/-- A digest of 64 bits: every piece is mixed into what has been seen before. -/
structure Digest where
  state : UInt64

namespace Digest

/-- The digest of nothing. -/
def seed : Digest :=
  ⟨0x9E3779B97F4A7C15⟩

/-- Scatters the bits of a word; no two words are scattered alike. -/
def scatter (x : UInt64) : UInt64 :=
  let x := (x ^^^ (x >>> 30)) * 0xBF58476D1CE4E5B9
  let x := (x ^^^ (x >>> 27)) * 0x94D049BB133111EB
  x ^^^ (x >>> 31)

/-- Mixes a word into the digest. -/
def mix (d : Digest) (x : UInt64) : Digest :=
  ⟨scatter (d.state * 0x2545F4914F6CDD1D + x + 0x6A09E667F3BCC909)⟩

/-- Mixes a piece into the digest; words and bytes are kept apart. -/
def add (d : Digest) : Atom → Digest
  | .word n => (d.mix 0x100).mix (.ofNat n)
  | .byte b => d.mix b.toUInt64

/-- The digest of a sequence. -/
def ofAtoms (atoms : List Atom) : Digest :=
  atoms.foldl add seed

end Digest

/-- How the code of a tree becomes a fingerprint. -/
class Hasher where
  digest : List Atom → UInt64

instance : Hasher := ⟨fun atoms => (Digest.ofAtoms atoms).state⟩

/-- The fingerprint of a tree. -/
def Tree.fingerprint [Hasher] (t : Tree) : UInt64 :=
  Hasher.digest t.code

end StepPlan
