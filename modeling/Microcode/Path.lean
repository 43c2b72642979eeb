import Microcode.Text.Basic

/-!
# Paths and places

A path is what is written on the command line; a place is where it leads to.

* `Path.ofName` reads a path from its name and keeps its dots, since they count only if the directories
  before them are there;
* `Place.enter` goes from a place to one of its parts;
* `Place.name?` is the name of a place in the working directory.
-/

namespace Microcode

/-! ## Paths -/

/-- A path as it is written. -/
structure Path where
  /-- It starts with a slash. -/
  absolute : Bool
  /-- What stands between the slashes. -/
  parts : List Text
  /-- It ends in a slash. -/
  trailing : Bool
deriving DecidableEq, Repr

namespace Path

/-- The separator of the parts of a path. -/
def slash : UInt8 := '/'.toUInt8

/-- The most bytes that a path can have. -/
abbrev maxLength : Nat := 4095

/-- The most bytes that a part of a path can have. -/
abbrev maxPart : Nat := 255

/-- The path with the given name. Slashes next to each other count as one. -/
def ofName (name : Text) : Path where
  absolute := name.head? == some slash
  parts := (name.splitOn slash).filter (!·.isEmpty)
  trailing := name.getLast? == some slash

end Path

/-! ## Places -/

/-- A directory that places are counted from. -/
inductive Base where
  /-- The directory that is so many levels above the working directory. -/
  | up (levels : Nat)
  /-- The directory that holds all others. -/
  | root
deriving DecidableEq, Repr

/-- A place for a file or a directory: what one goes through from the base to it. -/
structure Place where
  base : Base
  parts : List Text
deriving DecidableEq, Repr

namespace Place

/-- The working directory. -/
def here : Place := ⟨.up 0, []⟩

/-- The directory around a place. The root is around itself. -/
def parent : Place → Place
  | ⟨.up levels, []⟩ => ⟨.up (levels + 1), []⟩
  | ⟨base, parts⟩ => ⟨base, parts.dropLast⟩

/-- The place in a directory that a part leads to. One dot leads back to the directory, and two dots
lead to the directory around it. -/
def enter (p : Place) (part : Text) : Place :=
  if part = ascii "." then p
  else if part = ascii ".." then p.parent
  else { p with parts := p.parts ++ [part] }

/-- Whether one goes through the first place to get to the second. -/
def isAround (p q : Place) : Bool :=
  p.base == q.base && p.parts.isPrefixOf q.parts && p.parts.length < q.parts.length

/-- The name of a place in the working directory. -/
def name? (p : Place) : Option Text :=
  if p.base = .up 0 then some (List.intercalate [Path.slash] p.parts) else none

end Place

/-- Where a path starts. -/
def Path.start (path : Path) : Place :=
  if path.absolute then ⟨.root, []⟩ else .here

/-- The place that a path leads to if all that it goes through is there. -/
def Path.place (path : Path) : Place :=
  path.parts.foldl Place.enter path.start

end Microcode
