import Microcode.Program.Basic

/-!
# Dropping empty steps

Empty steps are dropped in pairs, so that every other step keeps the parity of its index.
-/

namespace Microcode

namespace Program

/-- Drops pairs of neighbouring steps that do nothing. -/
def compact : Program → Program
  | s :: t :: p => if s.isNop && t.isNop then compact p else s :: compact (t :: p)
  | p => p

/-- The number of steps that are dropped. -/
def dropCount (p : Program) : Nat :=
  p.length - p.compact.length

end Program

end Microcode
