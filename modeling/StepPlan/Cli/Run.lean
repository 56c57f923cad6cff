import StepPlan.Cli.Arguments
import StepPlan.Files.Load
import StepPlan.Plan.Report
import StepPlan.Tree.Basic

/-!
# Runs

A run loads a tree, shows it if asked to, compiles it, reports the plan, and stores its snapshot
if there is a place for it. With reuse, a stored snapshot that is current for the tree takes the
place of all that follows the loading. The run succeeds if the plan can be executed; a failed one
says why in the log.
-/

namespace StepPlan.Cli

/-- How a run ends. -/
inductive Outcome where
  /-- The run came to its end; the plan can be executed or not. -/
  | done (executable : Bool)
  | misuse
  | notLoaded (error : LoadError)
  | notStored (error : StoreError)
deriving DecidableEq

namespace Outcome

/-- The exit code of an outcome. -/
def exitCode : Outcome → UInt8
  | .done true => 0
  | .misuse => 2
  | .done false | .notLoaded _ | .notStored _ => 1

/-- What a failed run complains of. -/
def complaint? : Outcome → Option String
  | .done _ | .misuse => none
  | .notLoaded e => some e.message
  | .notStored e => some e.message

end Outcome

/-- The text of the version. -/
def versionText : String :=
  "junban " ++ StepPlan.version ++ "\n"

/-- The arguments in short. -/
def usageLine : String :=
  "Usage: junban-cli [OPTIONS] <TREE_PATH>"

/-- How the program is used, line by line. -/
def helpLines : List String :=
  ["An execution-order compiler that flattens hierarchical API security test definitions into "
      ++ "ordered step plans",
    "",
    usageLine,
    "",
    "Arguments:",
    "  <TREE_PATH>  Path to the test tree JSON file "
      ++ "(nodeType / operationType / values / childNodes)",
    "",
    "Options:",
    "  -o, --output <OUTPUT>  Write the compiled plan as a bincode artifact to this path",
    "      --reuse            Reuse the artifact at --output when it was compiled from an "
      ++ "identical tree",
    "      --show-tree        Print the loaded tree before compiling",
    "  -d, --debug            Enable debug logging",
    "  -h, --help             Print help",
    "  -V, --version          Print version"]

/-- How the program is used. -/
def helpText : String :=
  String.join (helpLines.map (· ++ "\n"))

/-- What a run says of a stored snapshot that it uses. -/
def reuseText (path : String) (s : Snapshot) : String :=
  "Stored plan '" ++ path ++ "' is current (" ++ Nat.repr s.steps.length
    ++ " steps, follow_redirects: " ++ flagText s.followRedirects ++ ")\n"

/-- What a run says of a snapshot that it has stored. -/
def storedText (path : String) : String :=
  "  -> Wrote compiled plan to '" ++ path ++ "'\n"

/-- What the log says of a stored snapshot of another tree or version. -/
def staleText (path : String) : String :=
  logEntry "INFO" ("Stored plan '" ++ path ++ "' is stale, recompiling")

/-- What the log says when there is no stored snapshot. -/
def unusableText (e : StoreError) : String :=
  logEntry "DEBUG" ("No reusable plan: " ++ e.message)

variable {m : Type → Type} [Monad m] [Hasher]

/-- Logs the events of compiling a tree. -/
def logEvents (sys : System m) (inDetail : Bool) : List Event → m Unit
  | [] => return ()
  | e :: events => do
    if e.isLogged inDetail then sys.log e.entry
    logEvents sys inDetail events

/-- The stored snapshot that may take the place of compiling the tree. -/
def reusable (sys : System m) (o : Options) (t : Tree) : m (Option (String × Snapshot)) := do
  match o.reuse, o.output with
  | true, some path => do
    match ← Snapshot.load sys path with
    | .ok s =>
      if s.isCurrentFor t then return some (path, s)
      else do
        sys.log (staleText path)
        return none
    | .error e => do
      if o.debug then sys.log (unusableText e)
      return none
  | _, _ => return none

/-- Compiles the tree, reports the plan and stores the snapshot. -/
def compileAndStore (sys : System m) (o : Options) (t : Tree) : m Outcome := do
  let compilation := t.compilation
  let plan := compilation.plan
  logEvents sys o.debug compilation.events
  sys.print plan.report
  match o.output with
  | none => return .done plan.isExecutable
  | some path =>
    match ← (Snapshot.ofPlan t plan).save sys path with
    | .error e => return .notStored e
    | .ok () => do
      sys.print (storedText path)
      return .done plan.isExecutable

/-- Runs the program on a tree. -/
def compile (sys : System m) (o : Options) : m Outcome := do
  match ← loadTreeFile sys o.treePath with
  | .error e => return .notLoaded e
  | .ok t => do
    if o.showTree then sys.print (t.drawing ++ "\n")
    match ← reusable sys o t with
    | some (path, s) => do
      -- The stored snapshot is taken at its word, also in that its tree was rejected.
      sys.print (reuseText path s)
      return .done s.error.isNone
    | none => compileAndStore sys o t

/-- Does what the arguments ask for. -/
def run (sys : System m) (arguments : List String) : m Outcome :=
  match Command.ofArguments arguments with
  | .help => do
    sys.print helpText
    return .done true
  | .version => do
    sys.print versionText
    return .done true
  | .misuse => return .misuse
  | .compile o => compile sys o

/-- What the log says last: why a run has failed. -/
def Outcome.lastEntry? (o : Outcome) : Option String :=
  if o = .misuse then some usageLine else o.complaint?.map ("\nError: " ++ ·)

/-- Runs the program to its exit code. -/
def runToExit (sys : System m) (arguments : List String) : m UInt8 := do
  let outcome ← run sys arguments
  match outcome.lastEntry? with
  | some entry => sys.log entry
  | none => pure ()
  return outcome.exitCode

end StepPlan.Cli
