import Microcode.Compile
import Microcode.Files

/-!
# The command line

There are three commands, each with a list of files.

* `compile` writes the listings of all files to one place. It writes nothing if one of them fails.
* `preprocess`, or `pre` for short, prints each file after preprocessing, up to the first that cannot be
  read.
* `macros` prints the macros of all files. It prints nothing if one of them cannot be read.

A command is a program over the calls of a `Host`. What is not asked of the host is fixed here: how arguments are
split into options and files (`Invocation.ofArgs?`), and how errors are worded, with the reason that the host gives
behind the name of the file (`CommandError.message`, `Invocation.errorText`).
-/

namespace Microcode

/-! ## Arguments -/

/-- The commands. -/
inductive Command where
  | compile
  | preprocess
  | macros
deriving DecidableEq, Repr

/-- The command of a name. -/
def Command.ofName? (name : Text) : Option Command :=
  if name = ascii "compile" then some .compile
  else if name = ascii "preprocess" || name = ascii "pre" then some .preprocess
  else if name = ascii "macros" then some .macros
  else none

/-- A command with its arguments. -/
structure Invocation where
  command : Command
  /-- The command as it was typed. -/
  typed : Text
  files : List Text
  /-- The name of the file to write to. If it is empty the output is printed. -/
  output : Text
deriving DecidableEq, Repr

namespace Invocation

/-- The value in an argument of the form `name=value`. -/
def valueOf? (name arg : Text) : Option Text :=
  if (name ++ ascii "=").isPrefixOf arg then some (arg.drop (name.length + 1)) else none

/-- Splits arguments into the files and the last value of the output option. -/
def splitOutput : List Text → List Text × Option Text
  | [] => ([], none)
  | [a] =>
    match valueOf? (ascii "--output") a with
    | some value => ([], some value)
    | none => ([a], none)
  | a :: b :: args =>
    if a = ascii "-o" || a = ascii "--output" then
      let (files, output) := splitOutput args
      (files, output.or (some b))
    else
      let (files, output) := splitOutput (b :: args)
      match valueOf? (ascii "--output") a with
      | some value => (files, output.or (some value))
      | none => (a :: files, output)

/-- Drops the options before the command, which choose what is logged. -/
def dropVerbosity : List Text → List Text
  | a :: b :: args =>
    if a = ascii "-v" || a = ascii "--verbosity" then dropVerbosity args
    else if (valueOf? (ascii "--verbosity") a).isSome then dropVerbosity (b :: args)
    else a :: b :: args
  | args => args

/-- Reads the arguments of the command line. -/
def ofArgs? (args : List Text) : Option Invocation :=
  match dropVerbosity args with
  | [] => none
  | typed :: args => do
    let command ← Command.ofName? typed
    match command with
    | .compile =>
      let (files, output) := splitOutput args
      return ⟨command, typed, files, output.getD []⟩
    | _ => return ⟨command, typed, args, []⟩

end Invocation

/-! ## What commands do -/

/-- Why a command fails. -/
inductive CommandError where
  /-- A file to compile cannot be read. -/
  | compileRead (file : Text) (cause : FileError)
  /-- A file does not compile. -/
  | compile (file : Text) (diagnostics : List Diagnostic)
  /-- A file cannot be read. -/
  | read (file : Text) (cause : FileError)
  /-- The output cannot be written. -/
  | write (cause : FileError)
  /-- The output cannot be printed. -/
  | print (cause : FileError)
deriving DecidableEq, Repr

/-- The wording of an error. -/
def CommandError.message : CommandError → Text
  | compileRead file cause =>
    ascii "compile " ++ file ++ ascii ": read file: " ++ cause.message
  | compile file diagnostics =>
    ascii "compile " ++ file ++ ascii ": " ++ Diagnostic.renderList diagnostics
  | read file cause => ascii "read " ++ file ++ ascii ": " ++ cause.message
  | write cause => ascii "write output: " ++ cause.message
  | print cause => cause.message

namespace Command

variable {m : Type → Type} [Monad m] {File α : Type}

/-- Makes a call, with the error that the command ends with if the call fails. -/
def calling (toError : FileError → CommandError) (call : m (Except FileError α)) : ExceptT CommandError m α :=
  ExceptT.mk do return (← call).mapError toError

/-- Compiles one file. -/
def compileFile (host : Host m File) (file : Text) : ExceptT CommandError m Text := do
  let source ← calling (.compileRead file) (host.readFile file)
  let compiled ← ExceptT.mk (pure ((Microcode.compile source).mapError (.compile file)))
  return compiled.text

/-- Writes the listings of all files to one place, up to the first file that fails. -/
def compileTo (host : Host m File) (files : List Text) (output : Text) : ExceptT CommandError m Unit := do
  let listings ← files.mapM (compileFile host)
  if output.isEmpty then
    calling .print (host.printText listings.flatten)
  else
    calling .write (host.writeFile output listings.flatten)

/-- Prints each file after preprocessing. -/
def preprocessAll (host : Host m File) (files : List Text) : ExceptT CommandError m Unit :=
  files.forM fun file => do
    let source ← calling (.read file) (host.readFile file)
    calling .print (host.printText ((Microcode.preprocess source).output ++ ascii "\n"))

/-- A macro of a file as it is printed. -/
def macroText (file : Text) (m : Macro) : Text :=
  file ++ ascii ":" ++ Text.ofNat m.line ++ ascii "\t" ++ m.name ++ ascii " = " ++ m.value ++
    ascii "\n"

/-- The macros of a file as they are printed. -/
def fileMacros (host : Host m File) (file : Text) : ExceptT CommandError m Text := do
  let source ← calling (.read file) (host.readFile file)
  return (Microcode.preprocess source).macros.sorted.flatMap (macroText file)

/-- Prints the macros of all files. -/
def listMacros (host : Host m File) (files : List Text) : ExceptT CommandError m Unit := do
  let texts ← files.mapM (fileMacros host)
  calling .print (host.printText texts.flatten)

end Command

namespace Invocation

variable {m : Type → Type} [Monad m] {File : Type}

/-- The command with its arguments, as a program over the calls of a host. -/
def program (host : Host m File) (i : Invocation) : ExceptT CommandError m Unit :=
  match i.command with
  | .compile => Command.compileTo host i.files i.output
  | .preprocess => Command.preprocessAll host i.files
  | .macros => Command.listMacros host i.files

/-- The text of an error, under the name of the command. -/
def errorText (i : Invocation) (e : CommandError) : Text :=
  i.typed ++ ascii ": " ++ e.message

/-- Carries out an invocation and gives the text of its error. -/
def perform (host : Host m File) (i : Invocation) : m (Option Text) := do
  match ← (i.program host).run with
  | .ok () => return none
  | .error e => return some (i.errorText e)

/-- What an invocation leaves behind. -/
structure Outcome where
  stdout : Text
  error : Option Text
  files : Files
deriving DecidableEq, Repr

/-- Runs an invocation on ordinary files. -/
def run (i : Invocation) (fs : Files) : Outcome :=
  let (error, s) := (i.perform (Files.host .usual)).run ⟨fs, []⟩
  ⟨s.stdout, error, s.files⟩

end Invocation

end Microcode
