import StepPlan.Definition.Load
import StepPlan.Snapshot.Bytes

/-!
# Files of trees and snapshots

What the program asks of the system around it: to read and write files, to print, and to log. A file
is read in two stages, opening and reading, and written in two, creating and writing; when a stage
fails the system says why in its own words.

A tree file holds the text of a definition in UTF-8, a snapshot file the bytes of a snapshot.
-/

namespace StepPlan

/-! ## The system -/

/-- The stages of reading or writing a file. -/
inductive FileStage where
  | opening
  | reading
  | creating
  | writing
deriving DecidableEq

/-- Why a file could not be read or written. -/
structure FileError where
  stage : FileStage
  reason : String
deriving DecidableEq

/-- What the program asks of the system, in the effects `m`. -/
structure System (m : Type → Type) where
  read : String → m (Except FileError (List UInt8))
  /-- Makes a file at a path hold these bytes and nothing else. -/
  write : String → List UInt8 → m (Except FileError Unit)
  print : String → m Unit
  log : String → m Unit

/-! ## Trees and snapshots -/

/-- Why a snapshot could not be stored or fetched. -/
inductive StoreError where
  | file (path : String) (error : FileError)
  | notSnapshot (error : Bytes.DecodeError)
deriving DecidableEq

/-- The message of any error about stored snapshots. -/
def StoreError.artifact (reason : String) : String :=
  "Artifact error: " ++ reason

/-- What could not be done to a file, up to its name. -/
def FileStage.complaint : FileStage → String
  | .opening => "Could not open file"
  | .reading => "Could not read from file"
  | .creating => "Could not create file"
  | .writing => "Could not write to file"

/-- The message of an error. -/
def StoreError.message : StoreError → String
  | .file path e => artifact (e.stage.complaint ++ " '" ++ path ++ "': " ++ e.reason)
  | .notSnapshot e => artifact ("Deserialization failed: " ++ e.message)

/-- Loads the tree of the bytes of a file. -/
def loadTreeBytes (path : String) (bytes : List UInt8) : Except LoadError Tree :=
  match Text.Utf8.decode bytes with
  | .ok cs => loadTree (String.ofList cs)
  | .error _ => .error (.file path "stream did not contain valid UTF-8")

variable {m : Type → Type} [Monad m]

/-- Loads the tree of a file. -/
def loadTreeFile (sys : System m) (path : String) : m (Except LoadError Tree) := do
  match ← sys.read path with
  | .ok bytes => return loadTreeBytes path bytes
  | .error e => return .error (.file path e.reason)

namespace Snapshot

/-- Stores a snapshot in a file. -/
def save (sys : System m) (path : String) (s : Snapshot) : m (Except StoreError Unit) := do
  match ← sys.write path s.bytes with
  | .ok () => return .ok ()
  | .error e => return .error (.file path e)

/-- Fetches the snapshot of a file. -/
def load (sys : System m) (path : String) : m (Except StoreError Snapshot) := do
  match ← sys.read path with
  | .error e => return .error (.file path e)
  | .ok bytes =>
    match ofBytes bytes with
    | .ok s => return .ok s
    | .error e => return .error (.notSnapshot e)

end Snapshot

end StepPlan
