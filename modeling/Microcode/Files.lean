import Microcode.Path
import Microcode.Host

/-!
# Files

A host with ordinary files: the command line works in a directory, and each file is at its place in or around
it. A directory is there if a file is in it. What else there is, empty directories and devices, is given by the
`Surroundings`. All files may be read and written, and there are no links.

* `Files.walk` follows the parts of a path, each of which has to be entered from a directory;
* `Files.read` and `Files.target` work on names and give the reason if they fail;
* `Files.host` is the host.
-/

namespace Microcode

/-- The path with a name, if the name can be one at all. -/
def Path.ofName? (name : Text) : Except FileFault Path :=
  if name.contains 0 then .error .invalid
  else if maxLength < name.length then .error .nameTooLong
  else if name.isEmpty then .error .missing
  else .ok (ofName name)

/-! ## What there is -/

/-- A device, which does not keep what is written to it. -/
inductive Device where
  /-- It is empty and takes everything. -/
  | null
  /-- It takes nothing, and reading it does not end. -/
  | full
deriving DecidableEq, Repr

/-- What is read from a device. -/
def Device.read : Device → Except FileFault Text
  | null => .ok []
  | full => .error (.other (ascii "endless"))

/-- What happens to a text that is written to a device. -/
def Device.write : Device → Text → Except FileFault Unit
  | null, _ => .ok ()
  | full, _ => .error .noSpace

/-- What there is beside ordinary files. -/
structure Surroundings where
  /-- Directories that are there also if nothing is in them. -/
  directories : List Place
  devices : List (Place × Device)
deriving DecidableEq, Repr

/-- What a system usually has. -/
def Surroundings.usual : Surroundings where
  directories :=
    ["bin", "boot", "dev", "etc", "home", "lib", "media", "mnt", "opt", "proc", "root", "run", "sbin", "srv",
      "sys", "tmp", "usr", "var"].map fun name => ⟨.root, [ascii name]⟩
  devices :=
    [(⟨.root, [ascii "dev", ascii "null"]⟩, .null), (⟨.root, [ascii "dev", ascii "full"]⟩, .full)]

/-- The contents of files at their places. -/
abbrev Files := List (Place × Text)

namespace Files

/-- What is at a place. -/
inductive Entry where
  | file (content : Text)
  | device (device : Device)
  | directory
  | missing
deriving DecidableEq, Repr

section

variable (around : Surroundings) (fs : Files)

/-- Whether there is a directory at a place. -/
def isDirectory (p : Place) : Bool :=
  p.parts.isEmpty || around.directories.contains p || fs.any (fun f => p.isAround f.1) ||
    around.devices.any fun d => p.isAround d.1

/-- What is at a place. -/
def entry (p : Place) : Entry :=
  match around.devices.lookup p, fs.lookup p with
  | some device, _ => .device device
  | none, some content => .file content
  | none, none => if fs.isDirectory around p then .directory else .missing

/-! ## Following a path -/

/-- Makes sure that there is a directory at a place. -/
def checkDirectory (p : Place) : Except FileFault Unit :=
  match fs.entry around p with
  | .directory => .ok ()
  | .file _ | .device _ => .error .notDirectory
  | .missing => .error .missing

/-- Follows one part of a path. -/
def step (p : Place) (part : Text) : Except FileFault Place := do
  fs.checkDirectory around p
  if Path.maxPart < part.length then throw .nameTooLong
  return p.enter part

/-- Follows the parts of a path. There may be nothing at the place that the last one leads to. -/
def walk (start : Place) (parts : List Text) : Except FileFault Place :=
  parts.foldlM (fs.step around) start

/-- What a name stands for. A name that ends in a slash cannot stand for a file. -/
def find (name : Text) : Except FileFault Entry := do
  let path ← Path.ofName? name
  let found := fs.entry around (← fs.walk around path.start path.parts)
  match found, path.trailing with
  | .file _, true | .device _, true => throw .notDirectory
  | _, _ => return found

/-- The place of the file that is made or replaced under a name. A name that ends in a slash stands for
a directory, also if there is none. -/
def target (name : Text) : Except FileFault Place := do
  let path ← Path.ofName? name
  let some last := path.parts.getLast? | throw .directory
  let parent ← fs.walk around path.start path.parts.dropLast
  fs.checkDirectory around parent
  if path.trailing then throw .directory
  let p ← fs.step around parent last
  if fs.entry around p = .directory then throw .directory
  return p

/-! ## Reading and writing -/

/-- Reads a file. A directory can be opened and then not be read. -/
def read (name : Text) : Except FileError Text :=
  match fs.find around name with
  | .ok (.file content) => .ok content
  | .ok (.device device) => device.read.mapError (⟨.reading, name, ·⟩)
  | .ok .directory => .error ⟨.reading, name, .directory⟩
  | .ok .missing => .error ⟨.opening, name, .missing⟩
  | .error fault => .error ⟨.opening, name, fault⟩

end

/-- Gives the file at a place a content. -/
def put (fs : Files) (p : Place) (content : Text) : Files :=
  fs.filter (fun f => f.1 != p) ++ [(p, content)]

/-- What the file at a place has; a file that is not there has nothing. -/
def contentAt (fs : Files) (p : Place) : Text :=
  (fs.lookup p).getD []

/-- The files of the working directory, under their names, that are not in `old` with the same content. -/
def changedSince (fs old : Files) : List (Text × Text) :=
  fs.filterMap fun (p, content) =>
    if old.lookup p = some content then none else p.name?.map fun name => (name, content)

/-! ## The host -/

/-- The files and what has been printed. -/
structure State where
  files : Files
  stdout : Text
deriving DecidableEq, Repr

/-- The host with ordinary files. Opening a file for writing empties it, and a device keeps nothing. -/
def host (around : Surroundings) : Host (StateM State) Place where
  readFile name := fun s => (s.files.read around name, s)
  create name := fun s =>
    match s.files.target around name with
    | .error fault => (.error fault, s)
    | .ok p =>
      match around.devices.lookup p with
      | some _ => (.ok p, s)
      | none => (.ok p, { s with files := s.files.put p [] })
  write p text := fun s =>
    match around.devices.lookup p with
    | some device => (device.write text, s)
    | none => (.ok (), { s with files := s.files.put p (s.files.contentAt p ++ text) })
  close _ := fun s => (.ok (), s)
  print text := fun s => (.ok (), { s with stdout := s.stdout ++ text })

end Files

end Microcode
