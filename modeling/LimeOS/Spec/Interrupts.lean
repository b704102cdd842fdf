import LimeOS.Impl.Interrupts

/-!
# What the interrupt controllers are for

Sixteen lines, of which line 2 has the lines from 8 on behind it. A line that is
enabled and requested is delivered, the most urgent first, unless one as urgent is
not answered yet.
-/

namespace LimeOS

structure IrqLines where
  enabled : Nat → Bool
  requested : Nat → Bool
  /-- Delivered and not answered by an end of interrupt, the latest first. -/
  outstanding : List Nat

/-- How urgent a line is, the lowest the most: those behind line 2 are all as that one. -/
def urgency (line : Nat) : Nat := if line < 8 then line else 2

/-- The lines of devices, the most urgent first. -/
def deviceLines : List Nat := [0, 1] ++ (List.range 8).map (8 + ·) ++ [3, 4, 5, 6, 7]

namespace IrqLines

variable (l : IrqLines)

def deliverable (line : Nat) : Bool :=
  l.requested line && l.enabled line && (decide (line < 8) || l.enabled 2) &&
    l.outstanding.all (urgency line < urgency ·)

/-- The line that is delivered next. -/
def deliver : Option Nat := deviceLines.find? l.deliverable

end IrqLines

/-- The vector of a line. -/
def vectorOf (line : Nat) : Byte := 0x20 + BitVec.ofNat 8 line

def linesStep (l : IrqLines) : IrqStep → Option IrqLines
  | .enable n => if n < 16 then some { l with enabled := Function.update l.enabled n true } else none
  | .disable n => if n < 16 then some { l with enabled := Function.update l.enabled n false } else none
  | .eoi n => if n < 16 then some { l with outstanding := l.outstanding.filter (· ≠ n) } else none
  | .request n => if n < 16 ∧ n ≠ 2 then some { l with requested := Function.update l.requested n true } else none
  | .acknowledge v => l.deliver.bind fun n =>
    if vectorOf n = v then
      some { l with requested := Function.update l.requested n false, outstanding := n :: l.outstanding }
    else none

/-- The lines of the PIT, the keyboard and the RTC are enabled, and line 2. -/
def entryLines : IrqLines := ⟨fun n => n = 0 ∨ n = 1 ∨ n = 2 ∨ n = 8, fun _ => false, []⟩

/-- An end of interrupt is that of a line in service, or of one that has no other line behind it. -/
def Answered (l : IrqLines) : IrqStep → Prop
  | .eoi n => n < 8 ∧ n ≠ 2 ∨ n ∈ l.outstanding
  | _ => True

instance (l : IrqLines) : (e : IrqStep) → Decidable (Answered l e)
  | .eoi n => inferInstanceAs (Decidable (n < 8 ∧ n ≠ 2 ∨ n ∈ l.outstanding))
  | .enable _ => .isTrue trivial
  | .disable _ => .isTrue trivial
  | .request _ => .isTrue trivial
  | .acknowledge _ => .isTrue trivial

/-! ## The table of gates -/

def exceptionHandlers : List Handler :=
  [.DE, .DB, .NMI, .BP, .OF, .BR, .UD, .NM, .DF, .CSO, .TS, .NP, .SS, .GP, .PF, .Resr, .MF, .AC, .MC, .XF]

/-- The handler that a vector is for. -/
def handlerOf (v : Nat) : Handler :=
  if v = 0x20 then .pHandler
  else if v = 0x21 then .kHandler
  else if v = 0x28 then .rHandler
  else if v = 0x80 then .sysHandler
  else exceptionHandlers.getD v .undefinedInterrupt

end LimeOS
