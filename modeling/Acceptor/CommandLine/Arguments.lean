/-
The arguments of the program: flags, the name of a command, and its values. Flags that are not
bound to a command may stand before or after its name. After `--` every argument is a value.
Arguments are taken from left to right, so of two faults the first counts, and a request for help
before it.
-/

namespace Acceptor.CommandLine

/-- What the program is asked to do. -/
inductive Command
  /-- Show how an expression is taken apart, as text or in the DOT language. -/
  | build (expression : String) (dot : Bool)
  /-- Show the tables of an expression. -/
  | table (expression : String)
  /-- Show the closures of the table in a file. -/
  | closure (file : String)
  /-- Determinize the table in a file. -/
  | determinize (file : String)
  /-- Test inputs against an expression. -/
  | test (expression : String) (inputs : List String)
  /-- Tell by the exit code whether an input matches an expression. -/
  | check (expression input : String)
deriving DecidableEq

/-- Flags without a value. -/
inductive Flag
  | legacyEpsilon
  | verbose
  | dot
deriving DecidableEq

/-- Why the arguments ask for nothing to be done. -/
inductive Stop
  /-- Help is asked for. -/
  | help
  /-- The version is asked for. -/
  | version
  /-- The arguments cannot be understood. -/
  | misuse (reason : String)
deriving DecidableEq

/-- The command and whether edges without a label to read take any character. -/
structure Invocation where
  command : Command
  legacyEpsilon : Bool
deriving DecidableEq

/-- The name of a command. -/
inductive Name
  | build
  | table
  | closure
  | determinize
  | test
  | check
deriving DecidableEq

/-- The name that is written as a text. -/
def Name.ofText? : String → Option Name
  | "build" => some build
  | "table" => some table
  | "closure" => some closure
  | "determinize" => some determinize
  | "test" => some test
  | "match" => some check
  | _ => none

/-- How many values a command takes at most. -/
def Name.limit? : Name → Option Nat
  | test => none
  | check => some 2
  | _ => some 1

/-- Whether a command takes a file, whose name cannot be empty. -/
def Name.takesFile : Name → Bool
  | closure => true
  | determinize => true
  | _ => false

/-- What is collected: the flags, and the values in order. -/
structure Collected where
  flags : List Flag
  values : List String

/-- Notes a flag, which may be given once. -/
def Collected.addFlag (c : Collected) (flag : Flag) : Except Stop Collected :=
  if flag ∈ c.flags then .error (.misuse "an option is given twice")
  else .ok { c with flags := c.flags ++ [flag] }

/-- Notes a value of a command. -/
def Collected.addValue (c : Collected) (name : Name) (value : String) : Except Stop Collected :=
  if name.limit?.any (· ≤ c.values.length) then .error (.misuse "too many values")
  else if name.takesFile && value.isEmpty then .error (.misuse "the name of a file is empty")
  else .ok { c with values := c.values ++ [value] }

/-- The letters after a single dash, `command` being the name of the command they follow. -/
def shortFlags (command : Option Name) : Collected → List Char → Except Stop Collected
  | c, [] => .ok c
  | c, letter :: rest =>
    if letter = 'v' then do
      let c ← c.addFlag .verbose
      shortFlags command c rest
    else if letter = 'h' then .error .help
    else if letter = 'V' ∧ command = none then .error .version
    else .error (.misuse "unknown option")

/-- The word after two dashes. -/
def longFlag (command : Option Name) (c : Collected) (word : String) : Except Stop Collected :=
  if word = "legacy-epsilon" then c.addFlag .legacyEpsilon
  else if word = "verbose" then c.addFlag .verbose
  else if word = "dot" ∧ command = some .build then c.addFlag .dot
  else if word = "help" then .error .help
  else if word = "version" ∧ command = none then .error .version
  else .error (.misuse "unknown option")

/-- What an argument is by its form. -/
inductive Form
  | ending
  | long (word : String)
  | short (letters : List Char)
  | value
deriving DecidableEq

/-- A lone dash is a value. -/
def form (argument : String) : Form :=
  match argument.toList with
  | ['-', '-'] => .ending
  | '-' :: '-' :: word => .long (String.ofList word)
  | '-' :: letter :: rest => .short (letter :: rest)
  | _ => .value

/-- The flags and values after the name of a command. -/
def afterName (name : Name) : Collected → List String → Except Stop Collected
  | c, [] => .ok c
  | c, argument :: rest =>
    match form argument with
    | .ending => rest.foldlM (fun c value => c.addValue name value) c
    | .long word => do
      let c ← longFlag (some name) c word
      afterName name c rest
    | .short letters => do
      let c ← shortFlags (some name) c letters
      afterName name c rest
    | .value => do
      let c ← c.addValue name argument
      afterName name c rest

/-- The command of a name and enough values. -/
def commandOf (name : Name) (c : Collected) : Except Stop Command :=
  match name, c.values with
  | .build, [expression] => .ok (.build expression (Flag.dot ∈ c.flags))
  | .table, [expression] => .ok (.table expression)
  | .closure, [file] => .ok (.closure file)
  | .determinize, [file] => .ok (.determinize file)
  | .test, expression :: input :: inputs => .ok (.test expression (input :: inputs))
  | .check, [expression, input] => .ok (.check expression input)
  | _, _ => .error (.misuse "a value is missing")

/-- Whether the environment sets the flag. Where the flag is not among the arguments on one side
of the name of the command, the setting must read `true` or `false`. -/
def setting (environment : Option String) (before after : Collected) : Except Stop Bool :=
  match environment with
  | none => .ok false
  | some "true" => .ok true
  | some "false" => .ok false
  | some _ =>
    if Flag.legacyEpsilon ∈ before.flags ∧ Flag.legacyEpsilon ∈ after.flags then .ok false
    else .error (.misuse "the environment sets a flag neither to true nor to false")

/-- Help on the program or on one command. -/
def helpOn : List String → Stop
  | [] => .help
  | [topic] =>
    if topic = "help" || (Name.ofText? topic).isSome then .help else .misuse "unknown command"
  | _ => .misuse "unknown command"

/-- The invocation of a command, given the flags before its name and the arguments after it. -/
def invocation (environment : Option String) (before : Collected) (word : String)
    (rest : List String) : Except Stop Invocation := do
  if word = "help" then throw (helpOn rest)
  match Name.ofText? word with
  | none => throw (.misuse "unknown command")
  | some name =>
    let after ← afterName name ⟨[], []⟩ rest
    let set ← setting environment before after
    let command ← commandOf name after
    return ⟨command, set || Flag.legacyEpsilon ∈ before.flags || Flag.legacyEpsilon ∈ after.flags⟩

/-- What the arguments ask for, given the flags so far. -/
def parseFrom (environment : Option String) :
    Collected → List String → Except Stop Invocation
  | _, [] => .error (.misuse "a command is missing")
  | c, argument :: rest =>
    match form argument with
    | .ending => .error (.misuse "a command is missing")
    | .long word => do
      let c ← longFlag none c word
      parseFrom environment c rest
    | .short letters => do
      let c ← shortFlags none c letters
      parseFrom environment c rest
    | .value => invocation environment c argument rest

/-- What the arguments ask for. The environment may set a flag that they do not give. -/
def parse (arguments : List String) (environment : Option String) : Except Stop Invocation :=
  parseFrom environment ⟨[], []⟩ arguments

/-- The file that a command reads. -/
def Command.file? : Command → Option String
  | closure file => some file
  | determinize file => some file
  | _ => none

end Acceptor.CommandLine
