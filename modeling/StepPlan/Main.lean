import StepPlan.Cli.Run

/-!
# The program

The command line on the real system: files of the file system, the standard output, and the log on
the standard error.
-/

namespace StepPlan

/-- The words of the system for an error. -/
def systemReason (e : IO.Error) : String :=
  let told (details : String) (code : UInt32) : String :=
    details ++ " (os error " ++ toString code.toNat ++ ")"
  match e with
  | .noFileOrDirectory _ code _ => told "No such file or directory" code
  | .permissionDenied _ code _ => told "Permission denied" code
  | .inappropriateType _ code details => told details code
  | .alreadyExists _ code details => told details code
  | .resourceExhausted _ code details => told details code
  | .invalidArgument _ code details => told details code
  | .otherError code details => told details code
  | e => toString e

/-- Does something to a file, and blames its failure on a stage. -/
def attempt {α : Type} (stage : FileStage) (action : IO α) : IO (Except FileError α) := do
  try
    return .ok (← action)
  catch e =>
    return .error ⟨stage, systemReason e⟩

/-- The system that the program runs on. -/
def realSystem : System IO where
  read path := do
    match ← attempt .opening (IO.FS.Handle.mk path .read) with
    | .error e => return .error e
    | .ok file =>
      match ← attempt .reading file.readBinToEnd with
      | .error e => return .error e
      | .ok bytes => return .ok bytes.toList
  write path bytes := do
    match ← attempt .creating (IO.FS.Handle.mk path .write) with
    | .error e => return .error e
    | .ok file => attempt .writing (file.write (ByteArray.mk bytes.toArray))
  print s := do
    let out ← IO.getStdout
    out.putStr s
    out.flush
  log entry := IO.eprintln entry

end StepPlan

/-- Runs the program on the arguments of the command line. -/
def main (arguments : List String) : IO UInt32 := do
  let code ← StepPlan.Cli.runToExit StepPlan.realSystem arguments
  return code.toUInt32
