import Microcode.Instruction.Basic

/-!
# What the checks let pass

A directive becomes an instruction through checks of its operands. An operand that passes is unchanged: its bounded
form has the integer that was read.
-/

namespace Microcode

/-! ## Checks one after another -/

theorem exists_of_map_eq_ok {ε α β : Type} {f : α → β} {x : Except ε α} {b : β} (h : f <$> x = .ok b) :
    ∃ a, x = .ok a ∧ f a = b := by
  cases x with
  | error e => cases h
  | ok a => exact ⟨a, rfl, Except.ok.inj h⟩

/-- A sequence succeeds if both of its parts do. -/
theorem exists_of_bind_eq_ok {ε α β : Type} {x : Except ε α} {next : α → Except ε β} {b : β}
    (h : x >>= next = .ok b) : ∃ a, x = .ok a ∧ next a = .ok b := by
  cases x with
  | error e => cases h
  | ok a => exact ⟨a, rfl, h⟩

theorem ok_of_mapError_eq_ok {ε ε' α : Type} {f : ε → ε'} {x : Except ε α} {a : α} (h : x.mapError f = .ok a) :
    x = .ok a := by
  cases x with
  | error e => cases h
  | ok b =>
    cases h
    rfl

/-! ## Indices -/

/-- An index passes exactly if it is in range, and it is not changed then. -/
theorem checkIndex_cases (kind : String) (limit : Nat) (i : Int) :
    (∃ r : Fin limit, checkIndex kind limit i = .ok r ∧ (0 ≤ i ∧ i < limit) ∧ ((r : Nat) : Int) = i) ∨
      (∃ cause, checkIndex kind limit i = .error cause) ∧ ¬ (0 ≤ i ∧ i < limit) := by
  unfold checkIndex
  split
  · next hi => exact .inl ⟨_, rfl, hi, Int.toNat_of_nonneg hi.1⟩
  · next hi => exact .inr ⟨⟨_, rfl⟩, hi⟩

/-- An index that passes is not changed. -/
theorem val_of_checkIndex {kind : String} {limit : Nat} {i : Int} {r : Fin limit}
    (h : checkIndex kind limit i = .ok r) : ((r : Nat) : Int) = i := by
  rcases checkIndex_cases kind limit i with ⟨s, hs, -, hval⟩ | ⟨⟨cause, hc⟩, -⟩
  · rw [h] at hs
    cases hs
    exact hval
  · rw [h] at hc
    cases hc

/-- The number of registers of a bank. -/
def Bank.size : Bank → Int
  | mems => 32
  | mixer => 16
  | cdda => 2

/-- The selector of the first register of a bank. -/
def Bank.base : Bank → Int
  | mems => 0
  | mixer => 32
  | cdda => 48

/-- A bank has the registers below its size, one after another from its base on. -/
theorem Bank.input_cases (bank : Bank) (i : Int) :
    (∃ selected, bank.input i = .ok selected ∧ (0 ≤ i ∧ i < bank.size) ∧ ((selected : Nat) : Int) = bank.base + i) ∨
      (∃ cause, bank.input i = .error cause) ∧ ¬ (0 ≤ i ∧ i < bank.size) := by
  have hbank : ∃ (limit : Nat) (place : Fin limit → Input), bank.input i = place <$> checkIndex bank.name limit i ∧
      (limit : Int) = bank.size ∧ ∀ r, ((place r : Nat) : Int) = bank.base + r := by
    cases bank <;> exact ⟨_, _, rfl, rfl, fun r => by simp [base]⟩
  obtain ⟨limit, place, hinput, hlimit, hplace⟩ := hbank
  rw [hinput, ← hlimit]
  rcases checkIndex_cases bank.name limit i with ⟨r, hr, hrange, hval⟩ | ⟨⟨cause, hc⟩, hrange⟩
  · rw [hr]
    exact .inl ⟨place r, rfl, hrange, by rw [hplace, hval]⟩
  · rw [hc]
    exact .inr ⟨⟨cause, rfl⟩, hrange⟩

/-! ## Addresses and registers -/

/-- An access has the marks of the address as they stand. -/
theorem Access.exists_of_ofAddress {noFloat : Bool} {a : Address} {access : Access}
    (h : ofAddress noFloat a = .ok access) :
    ∃ entry : Fin masaCount, ((entry : Nat) : Int) = a.index ∧ access = ⟨entry, a.opened, a.next, a.adrs, noFloat⟩ := by
  unfold ofAddress at h
  by_cases hbrackets : a.opened ≠ a.closed
  · rw [if_pos hbrackets] at h
    cases h
  · rw [if_neg hbrackets] at h
    obtain ⟨entry, hentry, rfl⟩ := exists_of_map_eq_ok h
    exact ⟨entry, val_of_checkIndex hentry, rfl⟩

/-- The temporary register of a multiplicand, as it was read. -/
theorem Multiplicand.register_eq_ok {x : Multiplicand Int} {source : Option (Fin tempCount)} (h : x.register = .ok source) :
    x = .input ∧ source = none ∨ ∃ r : Fin tempCount, x = .temp r ∧ source = some r := by
  cases x with
  | input =>
    cases h
    exact .inl ⟨rfl, rfl⟩
  | temp i =>
    obtain ⟨r, hr, rfl⟩ := exists_of_map_eq_ok (ok_of_mapError_eq_ok h)
    exact .inr ⟨r, by rw [val_of_checkIndex hr], rfl⟩

/-- Two operands that name a register have to name the same one. -/
theorem eq_of_sharedRegister {source : Option (Fin tempCount)} {r register : Fin tempCount}
    (h : sharedRegister source r = .ok register) : register = r ∧ ∀ s ∈ source, s = r := by
  unfold sharedRegister at h
  split at h
  · cases h
    exact ⟨rfl, fun s hs => absurd hs (Option.not_mem_none s)⟩
  · split at h
    · next heq =>
      cases h
      exact ⟨rfl, fun s hs => (Option.some.inj hs).symm.trans heq⟩
    · cases h

end Microcode
