import Microcode.Generator
import Microcode.Listing
import Microcode.Source.Preprocess

/-!
# Compiling a source

A source is preprocessed, its lines are turned into a program, the program is optimised, and the result
is a listing. All diagnostics of preprocessing and generation are reported together.
-/

namespace Microcode

/-- A compiled source. -/
structure Compiled where
  text : Text
  steps : Nat
deriving DecidableEq, Repr

/-- The diagnostic that a program has too many steps. -/
def tooLong (steps : Nat) : Diagnostic :=
  ⟨0, ascii "Program too long: " ++ Text.ofNat steps ++ ascii " steps, max " ++
    Text.ofNat Program.maxSteps⟩

/-- The listing of an optimised program that fits the signal processor. -/
def assemble (madrs : List Text) (p : Program) : Except (List Diagnostic) Compiled :=
  if Program.maxSteps < p.length then .error [tooLong p.length]
  else .ok ⟨Listing.madrsText madrs ++ Listing.programText p, p.length⟩

/-- Compiles a source that has been preprocessed. -/
def Preprocessed.compile (s : Preprocessed) : Except (List Diagnostic) Compiled :=
  let g := Generator.ofLines s.lines
  let errors := s.errors ++ g.errors
  if errors.isEmpty then assemble g.madrs g.steps.optimize else .error errors

/-- Compiles a source. -/
def compile (source : Text) : Except (List Diagnostic) Compiled :=
  (preprocess source).compile

end Microcode
