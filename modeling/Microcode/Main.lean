import Microcode.Command

/-!
# The program

Reads the arguments and carries out the command in `IO`.
-/

namespace Microcode

/-- A text as a string; bytes that are not valid UTF-8 cannot be part of a file name here. -/
def Text.toString? (t : Text) : Option String :=
  String.fromUTF8? ⟨t.toArray⟩

/-- The fault that a code of the system, which may come with either sign, stands for. -/
def FileFault.ofCode? (code : UInt32) : Option FileFault :=
  match min code (0 - code) with
  | 2 => some .missing
  | 20 => some .notDirectory
  | 21 => some .directory
  | 22 => some .invalid
  | 28 => some .noSpace
  | 36 => some .nameTooLong
  | _ => none

/-- The fault that an error of the system stands for. -/
def FileFault.ofError (e : IO.Error) : FileFault :=
  let other := FileFault.other e.toString.toUTF8.toList
  match e with
  | .noFileOrDirectory _ code _ => (ofCode? code).getD .missing
  | .inappropriateType _ code _ => (ofCode? code).getD .directory
  | .invalidArgument _ code _ | .resourceExhausted _ code _ => (ofCode? code).getD other
  | _ => other

/-- Makes a call that may fail. -/
def attempt {α : Type} (call : IO α) : IO (Except FileFault α) := do
  try
    return .ok (← call)
  catch e =>
    return .error (FileFault.ofError e)

/-- Makes a call with the name of a file. -/
def withName {α : Type} (name : Text) (call : String → IO α) : IO (Except FileFault α) :=
  match name.toString? with
  | some name => attempt (call name)
  | none => return .error .missing

/-- Writes bytes to a stream. -/
def put (stream : IO.FS.Stream) (t : Text) : IO Unit := do
  stream.write ⟨t.toArray⟩
  stream.flush

/-- The host that the program runs on. A directory can be opened and then not be read. -/
def ioHost : Host IO IO.FS.Handle where
  readFile name := do
    match ← withName name fun file => IO.FS.readBinFile file with
    | .ok bytes => return .ok bytes.toList
    | .error fault => return .error ⟨if fault = .directory then .reading else .opening, name, fault⟩
  create name := withName name fun file => IO.FS.Handle.mk file .write
  write file text := attempt do
    file.write ⟨text.toArray⟩
    file.flush
  close _ := return .ok ()
  print text := attempt do put (← IO.getStdout) text

end Microcode

open Microcode in
/-- The command line of the compiler. -/
def main (args : List String) : IO UInt32 := do
  let stderr ← IO.getStderr
  match Invocation.ofArgs? (args.map fun a => a.toUTF8.toList) with
  | none =>
    put stderr (ascii "usage: microcode [-v topics] compile|preprocess|macros [-o output] files\n")
    return 1
  | some i =>
    match ← i.perform ioHost with
    | none => return 0
    | some message =>
      put stderr (ascii "error: " ++ message ++ ascii "\n")
      return 1
