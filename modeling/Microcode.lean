import Microcode.Grammar
import Microcode.Main
import Microcode.Proofs.Compile.AddressLag
import Microcode.Proofs.Compile.Kept
import Microcode.Proofs.Machine.Optimize
import Microcode.Word.Wire
import Microcode.Proofs.Compile.Diagnostics
import Microcode.Proofs.Generator.Session
import Microcode.Proofs.Literal.Spelling
import Microcode.Proofs.Parser.Recognition
import Microcode.Proofs.Parser.Tokens
import Microcode.Proofs.Directive.Grammar
import Microcode.Proofs.Directive.Rendering
import Microcode.Proofs.Directive.Recognition
import Microcode.Proofs.Listing.Decode
import Microcode.Proofs.Source.Lines
import Microcode.Proofs.Compile.RoundTrip
import Microcode.Proofs.Source.Scan
import Microcode.Proofs.Source.Fidelity
import Microcode.Proofs.Program.Sweep
import Microcode.Proofs.Source.Expansion
import Microcode.Proofs.Program.Slots
import Microcode.Proofs.Generator.Loads
import Microcode.Proofs.Program.Conservation
import Microcode.Proofs.Program.Deletion
import Microcode.Proofs.Generator.Workspace
import Microcode.Proofs.Generator.Soundness
import Microcode.Proofs.Generator.Rejection
import Microcode.Proofs.Generator.Operands
import Microcode.Proofs.Program.Bounds
import Microcode.Proofs.Compile.Outcomes
import Microcode.Proofs.Source.Causality
import Microcode.Proofs.Source.LineEndings
import Microcode.Proofs.Source.Definitions
import Microcode.Proofs.Generator.Dispatch
import Microcode.Proofs.Source.FirstDefinitions
import Microcode.Proofs.Parser.Outline
import Microcode.Proofs.Parser.Alongside
import Microcode.Proofs.Parser.Integers
import Microcode.Proofs.Grammar.Outline
import Microcode.Proofs.Grammar.Moves
import Microcode.Proofs.Grammar.Calls
import Microcode.Proofs.Command.AllOrNothing
