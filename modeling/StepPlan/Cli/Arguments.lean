/-!
# Arguments

The arguments of the command line are read from left to right. The first one that is wrong ends the
reading, and so does a request for help or for the version; what is missing shows at the end.

One argument is the path of the tree. Options may stand anywhere: long ones after two dashes, with
a value behind `=` or in the next argument, and letters after one dash, several in a row, where a
letter that takes a value takes the rest of the row (behind `=` or not) or else the next argument.
A next argument that looks like an option is no value. After a bare `--` everything is a path. No
option may be given twice.
-/

namespace StepPlan.Cli

/-- What to compile, and how. -/
structure Options where
  treePath : String
  output : Option String
  reuse : Bool
  showTree : Bool
  debug : Bool
deriving DecidableEq

/-- What the arguments ask for. -/
inductive Command where
  | help
  | version
  | misuse
  | compile (options : Options)
deriving DecidableEq

/-- The arguments read so far. -/
structure Given where
  treePath : Option String
  output : Option String
  reuse : Bool
  showTree : Bool
  debug : Bool

namespace Given

/-- No arguments. -/
def empty : Given :=
  ⟨none, none, false, false, false⟩

/-- With a path; nothing if there is one. -/
def withPath? (g : Given) (s : String) : Option Given :=
  if g.treePath.isSome then none else some { g with treePath := some s }

/-- With an output; nothing if there is one. -/
def withOutput? (g : Given) (s : String) : Option Given :=
  if g.output.isSome then none else some { g with output := some s }

/-- With detailed logs; nothing if they are asked for already. -/
def withDebug? (g : Given) : Option Given :=
  if g.debug then none else some { g with debug := true }

/-- With reuse; nothing if it is asked for already. -/
def withReuse? (g : Given) : Option Given :=
  if g.reuse then none else some { g with reuse := true }

/-- With the tree shown; nothing if that is asked for already. -/
def withShowTree? (g : Given) : Option Given :=
  if g.showTree then none else some { g with showTree := true }

/-- What the arguments ask for when there are no more of them. Reuse needs an output. -/
def finish (g : Given) : Command :=
  match g.treePath with
  | none => .misuse
  | some treePath =>
    if g.reuse && g.output.isNone then .misuse
    else .compile ⟨treePath, g.output, g.reuse, g.showTree, g.debug⟩

end Given

/-- What to do after an argument. -/
inductive Next where
  | go (given : Given)
  /-- Take the next argument for the output. -/
  | output (given : Given)
  | stop (command : Command)

namespace Next

/-- Reads on, unless the argument was wrong. -/
def ofOption : Option Given → Next
  | some g => .go g
  | none => .stop .misuse

end Next

/-- Reads the letters behind one dash. -/
def letters (g : Given) : List Char → Next
  | [] => .go g
  | 'h' :: _ => .stop .help
  | 'V' :: _ => .stop .version
  | 'd' :: rest =>
    match g.withDebug? with
    | some g => letters g rest
    | none => .stop .misuse
  | ['o'] => .output g
  | 'o' :: '=' :: value => .ofOption (g.withOutput? (String.ofList value))
  | 'o' :: value => .ofOption (g.withOutput? (String.ofList value))
  | _ :: _ => .stop .misuse

/-- Reads what stands behind two dashes: a name, and perhaps a value behind `=`. -/
def long (g : Given) (cs : List Char) : Next :=
  let name := String.ofList (cs.takeWhile (· != '='))
  match cs.dropWhile (· != '=') with
  | [] =>
    match name with
    | "help" => .stop .help
    | "version" => .stop .version
    | "debug" => .ofOption g.withDebug?
    | "reuse" => .ofOption g.withReuse?
    | "show-tree" => .ofOption g.withShowTree?
    | "output" => .output g
    | _ => .stop .misuse
  | _ :: value =>
    if name = "output" then .ofOption (g.withOutput? (String.ofList value))
    else .stop .misuse

/-- Reads one argument. -/
def argument (g : Given) (s : String) : Next :=
  match s.toList with
  | '-' :: '-' :: cs => long g cs
  | ['-'] => .ofOption (g.withPath? s)
  | '-' :: cs => letters g cs
  | _ => .ofOption (g.withPath? s)

/-- The argument looks like an option, so that it is nobody's value. -/
def isOption (s : String) : Bool :=
  match s.toList with
  | '-' :: _ :: _ => true
  | _ => false

/-- Reads paths and nothing else. -/
def paths (g : Given) : List String → Command
  | [] => g.finish
  | s :: rest =>
    match g.withPath? s with
    | some g => paths g rest
    | none => .misuse

/-- Reads the arguments behind those given. -/
def read (g : Given) : List String → Command
  | [] => g.finish
  | "--" :: rest => paths g rest
  | s :: rest =>
    match argument g s with
    | .go g => read g rest
    | .stop command => command
    | .output g =>
      match rest with
      | [] => .misuse
      | value :: rest =>
        if isOption value then .misuse
        else
          match g.withOutput? value with
          | some g => read g rest
          | none => .misuse

/-- What some arguments ask for. -/
def Command.ofArguments (arguments : List String) : Command :=
  read .empty arguments

end StepPlan.Cli
