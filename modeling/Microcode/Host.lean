import Microcode.Text.Basic

/-!
# Calls to the host

What a command asks of the host that it runs on. Every call may fail: a file cannot be opened, or a device stops
taking bytes half way.

* `Host` has the calls, in any monad: the program makes them in `IO`, and statements about it are made over
  states of the files;
* `Host.writeFile` writes a file in three calls. The first one empties the file, so a later one that fails
  leaves a part of the text behind;
* `FileFault` has the reasons that can be told apart, each with its words (`FileFault.message`).
-/

namespace Microcode

/-! ## Errors -/

/-- What is wrong with a file. -/
inductive FileFault where
  /-- Nothing has this name. -/
  | missing
  /-- It is a directory. -/
  | directory
  /-- The name goes through a file as if that were a directory. -/
  | notDirectory
  /-- The name or a part of it has too many bytes. -/
  | nameTooLong
  /-- The name has a zero byte. -/
  | invalid
  /-- There is no room for what is written. -/
  | noSpace
  /-- The system gives another reason. -/
  | other (reason : Text)
deriving DecidableEq, Repr

/-- The wording of a fault. -/
def FileFault.message : FileFault → Text
  | missing => ascii "no such file or directory"
  | directory => ascii "is a directory"
  | notDirectory => ascii "not a directory"
  | nameTooLong => ascii "file name too long"
  | invalid => ascii "invalid argument"
  | noSpace => ascii "no space left on device"
  | other reason => reason

/-- What is done with a file. -/
inductive FileCall where
  | opening
  | reading
  | writing
  | closing
deriving DecidableEq, Repr

/-- The word for a call in messages. -/
def FileCall.word : FileCall → Text
  | opening => ascii "open"
  | reading => ascii "read"
  | writing => ascii "write"
  | closing => ascii "close"

/-- A call that fails, with the name of its file. -/
structure FileError where
  call : FileCall
  name : Text
  fault : FileFault
deriving DecidableEq, Repr

/-- The wording of an error. -/
def FileError.message (e : FileError) : Text :=
  e.call.word ++ ascii " " ++ e.name ++ ascii ": " ++ e.fault.message

/-! ## Calls -/

/-- The calls that commands make. -/
structure Host (m : Type → Type) (File : Type) where
  /-- Reads a file to its end. -/
  readFile : Text → m (Except FileError Text)
  /-- Opens a file for writing. It is made if it is not there, and emptied if it is. -/
  create : Text → m (Except FileFault File)
  /-- Writes a text to an open file. -/
  write : File → Text → m (Except FileFault Unit)
  /-- Closes an open file. -/
  close : File → m (Except FileFault Unit)
  /-- Writes a text to the standard output. -/
  print : Text → m (Except FileFault Unit)

namespace Host

variable {m : Type → Type} [Monad m] {File : Type}

/-- The name of the standard output in messages. -/
def outputName : Text := ascii "/dev/stdout"

/-- Prints a text. -/
def printText (host : Host m File) (text : Text) : m (Except FileError Unit) := do
  return (← host.print text).mapError (⟨.writing, outputName, ·⟩)

/-- What the answers to writing and closing a file come to. If both fail, the error is that of writing. -/
def saving (name : Text) : (written closed : Except FileFault Unit) → Except FileError Unit
  | .error fault, _ => .error ⟨.writing, name, fault⟩
  | .ok (), closed => closed.mapError (⟨.closing, name, ·⟩)

/-- Writes a text to the file with a name. The file is closed also if it has not taken the text. -/
def writeFile (host : Host m File) (name text : Text) : m (Except FileError Unit) := do
  match ← host.create name with
  | .error fault => return .error ⟨.opening, name, fault⟩
  | .ok file =>
    let written ← host.write file text
    let closed ← host.close file
    return saving name written closed

end Host

end Microcode
