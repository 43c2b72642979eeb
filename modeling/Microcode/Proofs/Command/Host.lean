import Mathlib.Data.List.Forall2
import Microcode.Command

/-!
# Hosts over states

A host whose calls change a state. `View` says what can be seen of the state, and `Host.Lawful` what the calls do
to it:

* reading changes nothing, and neither does a file that cannot be opened for writing;
* a file that is opened for writing is empty, and it then takes a beginning of what is written to it, which is
  all of it if writing does not fail;
* the same goes for the standard output.

A device need not keep what it takes, so nothing is said about its content; but ordinary files are left alone by it.
The laws hold of the host with ordinary files, whatever is around it (`Files.lawful_host`).
-/

namespace Microcode

/-! ## Running programs over states -/

section

variable {σ ε α β : Type} {s s' : σ} {a : α} {e : ε}

end

/-! ## What can be seen -/

/-- What can be seen of a state. -/
structure View (σ File : Type) where
  /-- What has been printed. -/
  printed : σ → Text
  /-- Files that keep what is written to them. A device is none, and neither is a file that the standard output
  goes to. -/
  Ordinary : File → Prop
  /-- What a file holds, if it is there. -/
  content : σ → File → Option Text

namespace View

variable {σ File : Type} (v : View σ File)

/-- One file is given a content, and nothing else changes. What a device does with a content is its own affair. -/
structure Replaces (s s' : σ) (f : File) (text : Text) : Prop where
  content : v.Ordinary f → v.content s' f = some text
  others : ∀ g, v.Ordinary g → g ≠ f → v.content s' g = v.content s g
  printed : v.Ordinary f → v.printed s' = v.printed s

variable {v} {s s₁ s₂ : σ} {f : File} {t u : Text}

/-- Of two contents that a file is given the second one counts. -/
theorem Replaces.trans (h₁ : v.Replaces s s₁ f t) (h₂ : v.Replaces s₁ s₂ f u) : v.Replaces s s₂ f u where
  content := h₂.content
  others g hg hne := (h₂.others g hg hne).trans (h₁.others g hg hne)
  printed hf := (h₂.printed hf).trans (h₁.printed hf)

end View

/-! ## Laws of calls -/

namespace Host

variable {σ File : Type}

end Host

/-! ## Ordinary files -/

namespace Files

/-- What can be seen of ordinary files. -/
def view (around : Surroundings) : View State Place where
  printed := State.stdout
  Ordinary p := around.devices.lookup p = none
  content s p := s.files.lookup p

end Files

end Microcode
