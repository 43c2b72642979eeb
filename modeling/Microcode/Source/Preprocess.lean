import Microcode.Source.Comment
import Microcode.Source.Macro

/-!
# Preprocessing a source

A source is freed from its comments and its macros are expanded, line by line. Every line of the source
gives one line of the result. A definition is echoed as a comment, takes effect from the next line on, and
stays: a second definition of the same name is an error.
-/

namespace Microcode

/-- What can be wrong with a line before it is read as a directive. -/
inductive SourceProblem where
  /-- A definition is not well formed. -/
  | malformedDefine (line : Text)
  /-- A macro was defined before, on the given line. -/
  | redefinition (name : Text) (first : Nat)
  /-- The expansion of a line was given up. -/
  | runaway
  /-- A block comment is not closed. -/
  | unterminated
deriving DecidableEq, Repr

/-- The wording of a problem. -/
def SourceProblem.message : SourceProblem → Text
  | malformedDefine line => ascii "Malformed #define: " ++ line
  | redefinition name first =>
    ascii "Macro redefinition: " ++ name ++ ascii " (first defined at line " ++ Text.ofNat first ++
      ascii ")"
  | runaway =>
    ascii "Macro expansion exceeded maximum iterations (" ++ Text.ofNat MacroTable.maxRounds ++
      ascii "), possible circular definition"
  | unterminated => ascii "Unterminated block comment"

namespace Preprocess

/-- What one line of the source gives. -/
structure LineResult where
  output : Text
  /-- The macro that the line defines. -/
  defined : Option Macro
  problem : Option SourceProblem
deriving DecidableEq, Repr

/-- The text of a line that counts: what stands before a line comment, without the blanks around it. -/
def content (line : Text) : Text :=
  (Text.before (ascii "//") line).trim

/-- Takes a definition on line `n`. -/
def define (table : MacroTable) (n : Nat) (line : Text) : LineResult :=
  let echo := ascii "// " ++ line
  match parseDefine line with
  | none => ⟨echo, none, some (.malformedDefine line)⟩
  | some (name, value) =>
    match table.find name with
    | some m => ⟨echo, none, some (.redefinition name m.line)⟩
    | none => ⟨echo, some ⟨name, value, n⟩, none⟩

/-- Takes a line to be expanded. -/
def expand (table : MacroTable) (line : Text) : LineResult :=
  let (output, givenUp) := table.expand line
  ⟨output, none, if givenUp then some .runaway else none⟩

/-- Takes line `n`. Lines for other tools, which start with a hash sign, are passed on as they are. -/
def line (table : MacroTable) (n : Nat) (s : Text) : LineResult :=
  let text := content s
  if isDefine text then define table n text
  else if (ascii "#").isPrefixOf text then ⟨text, none, none⟩
  else expand table text

/-- Takes the lines of a source from line `n` on; a macro counts from the line after its definition. -/
def linesFrom (table : MacroTable) (n : Nat) : List Text → List LineResult
  | [] => []
  | s :: ss =>
    let r := line table n s
    r :: linesFrom (table ++ r.defined.toList) (n + 1) ss

/-- The diagnostics of the results of lines from line `n` on. -/
def diagnosticsFrom (n : Nat) (rs : List LineResult) : List Diagnostic :=
  (rs.zipIdx n).flatMap fun (r, k) => r.problem.toList.map fun p => ⟨k, p.message⟩

@[simp] theorem length_linesFrom (table : MacroTable) (n : Nat) (ss : List Text) :
    (linesFrom table n ss).length = ss.length := by
  induction ss generalizing table n with
  | nil => rfl
  | cons s ss ih => simp [linesFrom, ih]

end Preprocess

/-- A source after preprocessing. -/
structure Preprocessed where
  lines : List Text
  macros : MacroTable
  errors : List Diagnostic
deriving DecidableEq, Repr

/-- The lines as one text. -/
def Preprocessed.output (p : Preprocessed) : Text :=
  Text.unlines p.lines

/-- Preprocesses a source. -/
def preprocess (source : Text) : Preprocessed :=
  let stripped := Comment.strip source
  let results := Preprocess.linesFrom [] 1 stripped.text.lines
  let unclosed := stripped.openLine.toList.map fun n => ⟨n, SourceProblem.unterminated.message⟩
  ⟨results.map (·.output), results.filterMap (·.defined),
    Preprocess.diagnosticsFrom 1 results ++ unclosed⟩

end Microcode
