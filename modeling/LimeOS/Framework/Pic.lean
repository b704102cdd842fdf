import LimeOS.Framework.Mem

/-!
# The 8259A interrupt controllers

Two controllers, one behind the other's level that its initialisation word 3
names. A command is a write to the first port of a controller, a mask or an
initialisation word one to the second. A level is delivered when it is
requested, not masked, and no level as urgent is in service, the lowest first;
an end of interrupt takes it out of service. Left out are rotating priorities,
the poll and read commands, and requests that are withdrawn.
-/

namespace LimeOS

/-- One controller: its mask, the levels requested and in service, the initialisation words, and the one expected next. -/
structure Pic where
  imr : Byte
  irr : Byte
  isr : Byte
  icw2 : Byte
  icw3 : Byte
  icw4 : Byte
  /-- The number of the word that the second port takes, or none for the mask. -/
  next : Option Nat
  /-- Of word 1: another controller is there, and word 4 follows. -/
  cascaded : Bool
  needs4 : Bool
  deriving DecidableEq

def setBit (v : Byte) (n : Nat) : Byte := v ||| (1#8 <<< n)

def clearBit (v : Byte) (n : Nat) : Byte := v &&& ~~~(1#8 <<< n)

theorem getLsbD_shift (n k : Nat) (hk : k < 8) : (1#8 <<< n).getLsbD k = decide (k = n) := by
  rw [BitVec.getLsbD_shiftLeft, BitVec.getLsbD_one, Bool.eq_iff_iff]
  simp only [Bool.and_eq_true, Bool.not_eq_true', decide_eq_true_eq, decide_eq_false_iff_not]
  omega

theorem getLsbD_setBit (v : Byte) (n : Nat) {k : Nat} (hk : k < 8) :
    (setBit v n).getLsbD k = (v.getLsbD k || decide (k = n)) := by
  rw [setBit, BitVec.getLsbD_or, getLsbD_shift n k hk]

theorem getLsbD_clearBit (v : Byte) (n : Nat) {k : Nat} (hk : k < 8) :
    (clearBit v n).getLsbD k = (v.getLsbD k && !decide (k = n)) := by
  rw [clearBit, BitVec.getLsbD_and, BitVec.getLsbD_not, getLsbD_shift n k hk]
  simp [hk]

namespace Pic

variable (c : Pic)

/-- A write to the first port. -/
def command (v : Byte) : Pic :=
  if v.getLsbD 4 then
    { c with imr := 0, irr := 0, isr := 0, next := some 2, cascaded := !v.getLsbD 1, needs4 := v.getLsbD 0 }
  else if v.getLsbD 3 then c
  else if v.extractLsb' 5 3 = 3 then { c with isr := clearBit c.isr (v.extractLsb' 0 3).toNat }
  else if v.extractLsb' 5 3 = 1 then
    { c with isr := (((List.range 8).find? fun n => c.isr.getLsbD n).map (clearBit c.isr)).getD c.isr }
  else c

/-- A write to the second port. -/
def data (v : Byte) : Pic :=
  match c.next with
  | none => { c with imr := v }
  | some 2 => { c with icw2 := v, next := if c.cascaded then some 3 else if c.needs4 then some 4 else none }
  | some 3 => { c with icw3 := v, next := if c.needs4 then some 4 else none }
  | some _ => { c with icw4 := v, next := none }

/-- No level as urgent is in service. -/
def free (n : Nat) : Bool := (List.range (n + 1)).all fun k => !c.isr.getLsbD k

/-- The level that it has to deliver. -/
def pending (requests : Byte) : Option Nat :=
  (List.range 8).find? fun n => requests.getLsbD n && !c.imr.getLsbD n && c.free n

/-- It delivers a level: in service, unless its word 4 has interrupts end by themselves. -/
def accept (n : Nat) : Pic :=
  { c with irr := clearBit c.irr n, isr := if c.icw4.getLsbD 1 then c.isr else setBit c.isr n }

end Pic

structure Pics where
  master : Pic
  slave : Pic
  deriving DecidableEq

namespace Pics

variable (c : Pics)

/-- The slave asks for the master's level 2. -/
def requests : Byte := if (c.slave.pending c.slave.irr).isSome then setBit c.master.irr 2 else clearBit c.master.irr 2

/-- A device raises a line. -/
def request (line : Nat) : Pics :=
  if line < 8 then { c with master := { c.master with irr := setBit c.master.irr line } }
  else { c with slave := { c.slave with irr := setBit c.slave.irr (line - 8) } }

/-- The processor takes the interrupt: its vector. At a level with a slave the vector is the slave's, when the two agree
on the level. -/
def acknowledge : Option (Byte × Pics) :=
  (c.master.pending c.requests).bind fun n =>
    if c.master.icw3.getLsbD n then
      if c.slave.icw3 &&& 7 = BitVec.ofNat 8 n then
        (c.slave.pending c.slave.irr).map fun k => (c.slave.icw2 + BitVec.ofNat 8 k, ⟨c.master.accept n, c.slave.accept k⟩)
      else none
    else some (c.master.icw2 + BitVec.ofNat 8 n, { c with master := c.master.accept n })

end Pics

end LimeOS
