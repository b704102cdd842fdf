import Mathlib.Data.BitVec

/-!
# The interrupt gates of the IA-32

An interrupt enters the code that the gate of its vector names, and a trap or
interrupt gate with a privilege of its own can be entered by an `int`
instruction. The checks are those of the processor, in its order.
-/

namespace LimeOS

/-- What the processor reads in the eight bytes of a gate. -/
structure Gate where
  offset : BitVec 32
  selector : BitVec 16
  /-- Of four bits, after the bit for a system descriptor. -/
  kind : BitVec 4
  system : BitVec 1
  dpl : BitVec 2
  present : BitVec 1
  deriving DecidableEq

def Gate.read (v : BitVec 64) : Gate where
  offset := v.extractLsb' 48 16 ++ v.extractLsb' 0 16
  selector := v.extractLsb' 16 16
  kind := v.extractLsb' 40 4
  system := v.extractLsb' 44 1
  dpl := v.extractLsb' 45 2
  present := v.extractLsb' 47 1

/-- Where an interrupt goes to, and whether further interrupts are off there. -/
structure GateEntry where
  offset : BitVec 32
  selector : BitVec 16
  masked : Bool
  deriving DecidableEq

/-- The vector of the fault otherwise. -/
def Gate.enter (g : Gate) (cpl : Nat) (software : Bool) : Except Nat GateEntry :=
  if g.system ≠ 0 ∨ ¬ (g.kind = 0xE ∨ g.kind = 0xF) then .error 13
  else if software ∧ g.dpl.toNat < cpl then .error 13
  else if g.present = 0 then .error 11
  else .ok ⟨g.offset, g.selector, g.kind = 0xE⟩

end LimeOS
