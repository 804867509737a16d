import ArmAssembly.File.Host

set_option autoImplicit false

/-! # The command line

    assembler INPUT -o FILE [--list]

Arguments are read from left to right, and the first one that is wrong or asks for something
else than assembling decides. Options may stand before and after the input; after `--` there
are no more options. The exit code is 0 if all went well, 1 if the assembler failed and 2 if
the arguments are wrong.
-/

namespace ArmAssembly

/-- What the command line asks for. -/
inductive Request where
  | assemble (input output : String) (list : Bool)
  | version
  | help
deriving DecidableEq

/-- The arguments read so far. -/
structure Arguments where
  input? : Option String
  output? : Option String
  list : Bool
deriving DecidableEq

namespace Arguments

/-- No arguments were read yet. -/
def initial : Arguments := ⟨none, none, false⟩

/-- One more positional argument; there is only one. -/
def addInput (a : Arguments) (input : String) : Option Arguments :=
  if a.input?.isSome then none else some { a with input? := some input }

/-- The option that names the output, which may stand once. -/
def addOutput (a : Arguments) (output : String) : Option Arguments :=
  if a.output?.isSome then none else some { a with output? := some output }

/-- The option that asks for a listing, which may stand once. -/
def addList (a : Arguments) : Option Arguments :=
  if a.list then none else some { a with list := true }

/-- The request when all arguments were read. -/
def request? (a : Arguments) : Option Request := do
  let input ← a.input?
  let output ← a.output?
  return .assemble input output a.list

/-- Reads arguments none of which is an option. -/
def positional? (a : Arguments) : List String → Option Request
  | [] => a.request?
  | arg :: rest => do
    let a ← a.addInput arg
    a.positional? rest

/-- The argument begins as an option does. A lone dash is none. -/
def looksLikeOption (arg : String) : Bool :=
  match arg.toList with
  | '-' :: _ :: _ => true
  | _ => false

/-- What an argument is by itself. -/
inductive Form where
  | positional
  | separator
  | list
  | version
  | help
  /-- The output option, with its value if that stands in the same argument. -/
  | output (value : Option String)
  | wrong

/-- The form of a long option, given what follows the two dashes. -/
def longForm (name : List Char) : Form :=
  if name = "list".toList then .list
  else if name = "version".toList then .version
  else if name = "help".toList then .help
  else if name = "output".toList then .output none
  else if "output=".toList.isPrefixOf name then .output (some (String.ofList (name.drop 7)))
  else .wrong

/-- The form of a short option, given its letter and what follows. -/
def shortForm (letter : Char) (value : List Char) : Form :=
  if letter = 'V' then .version
  else if letter = 'h' then .help
  else if letter = 'o' then
    match value with
    | [] => .output none
    | '=' :: value => .output (some (String.ofList value))
    | value => .output (some (String.ofList value))
  else .wrong

/-- The form of an argument. -/
def form (arg : String) : Form :=
  match arg.toList with
  | ['-', '-'] => .separator
  | '-' :: '-' :: name => longForm name
  | '-' :: letter :: value => shortForm letter value
  | _ => .positional

/-- Reads arguments from left to right. There is no request if they are wrong. -/
def read? (a : Arguments) : List String → Option Request
  | [] => a.request?
  | arg :: rest =>
    match form arg with
    | .positional => do
      let a ← a.addInput arg
      a.read? rest
    | .separator => a.positional? rest
    | .list => do
      let a ← a.addList
      a.read? rest
    | .version => some .version
    | .help => some .help
    | .output (some value) => do
      let a ← a.addOutput value
      a.read? rest
    | .output none =>
      match rest with
      | [] => none
      | value :: rest =>
        if looksLikeOption value then none
        else do
          let a ← a.addOutput value
          a.read? rest
    | .wrong => none

end Arguments

/-- How a run of the program ends: its exit code and what it has to complain about. -/
structure Exit where
  code : Nat
  complaint : String
deriving DecidableEq

/-- The answer to a question for the version. -/
def versionText : String := "assembler 0.1.0\n"

/-- How the program is called. -/
def usageText : String := "usage: assembler INPUT -o FILE [--list]\n"

variable {m : Type → Type} [Monad m]

/-- Answers a question on standard output. That it may not arrive is no failure. -/
def answer (host : Host m) (text : String) : m Exit := do
  let _ ← host.print text
  return ⟨0, ""⟩

/-- Runs the program with the given arguments. -/
def runCommand (host : Host m) (args : List String) : m Exit := do
  match Arguments.initial.read? args with
  | none => return ⟨2, usageText⟩
  | some .version => answer host versionText
  | some .help => answer host usageText
  | some (.assemble input output list) =>
    match ← (assembleFile host (.ofString input) (.ofString output) list).run with
    | .ok _ => return ⟨0, ""⟩
    | .error failure => return ⟨1, failure.message ++ "\n"⟩

end ArmAssembly
