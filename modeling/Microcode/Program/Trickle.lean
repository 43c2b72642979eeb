import Microcode.Program.Basic

/-!
# Moving work before the empty steps

Memory accesses and commits are pinned to their steps. Between two pinned steps the remaining work moves
forward over the steps that do nothing and keeps its order, so that the empty steps gather at the end.
-/

namespace Microcode

/-- Whether a step accesses memory or commits, and so has to stay where it is. -/
def Step.isPinned (s : Step) : Bool :=
  s.word.has .mwt || s.word.has .mrd || s.word.has .iwt

namespace Program

/-- Moves work forward, with `held` empty steps passed since the last pinned step. Gives the number of
exchanges of neighbours that the moves stand for. -/
def trickleAfter : (held : Nat) → Program → Program × Nat
  | held, [] => (List.replicate held .nop, 0)
  | held, s :: p =>
    if s.isNop then trickleAfter (held + 1) p
    else if s.isPinned then
      let (q, count) := trickleAfter 0 p
      (List.replicate held .nop ++ s :: q, count)
    else
      let (q, count) := trickleAfter held p
      (s :: q, count + held)

/-- Moves work before the empty steps and gives the number of exchanges. -/
def trickle (p : Program) : Program × Nat :=
  trickleAfter 0 p

end Program

end Microcode
