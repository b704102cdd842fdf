import LimeOS.Framework.Mem

/-!
# Keys held and the characters of a layout

What is held and active after a sequence of scancodes, by the key events alone,
and the character of a key in that state.
-/

namespace LimeOS

/-- The events of the keys that are active while held, or lock. -/
inductive ModifierEvent
  | pressLeftShift
  | pressRightShift
  | releaseLeftShift
  | releaseRightShift
  | pressCapslock
  | releaseCapslock
  | other
  deriving DecidableEq

structure KeysHeld where
  leftShift : Bool
  rightShift : Bool
  /-- Caps lock has been pressed and not released since. -/
  capslock : Bool
  /-- The presses of caps lock that are not repeats. -/
  capslockPresses : Nat

namespace KeysHeld

/-- Nothing is held. -/
def none : KeysHeld := ⟨false, false, false, 0⟩

def step (k : KeysHeld) : ModifierEvent → KeysHeld
  | .pressLeftShift => { k with leftShift := true }
  | .pressRightShift => { k with rightShift := true }
  | .releaseLeftShift => { k with leftShift := false }
  | .releaseRightShift => { k with rightShift := false }
  | .pressCapslock =>
    { k with
      capslock := true
      capslockPresses := if k.capslock then k.capslockPresses else k.capslockPresses + 1 }
  | .releaseCapslock => { k with capslock := false }
  | .other => k

def shift (k : KeysHeld) : Bool := k.leftShift || k.rightShift

def caps (k : KeysHeld) : Bool := decide (k.capslockPresses % 2 = 1)

end KeysHeld

/-- The character of a key from those without and with shift: caps lock and
shift cancel out for a letter, and caps lock does nothing for another key. -/
def keyChar (plain shifted : Byte) (caps shift : Bool) : Byte :=
  if 0x61#8 ≤ plain ∧ plain ≤ 0x7a#8 then if caps != shift then plain - 0x20#8 else plain
  else if shift then shifted else plain

end LimeOS
