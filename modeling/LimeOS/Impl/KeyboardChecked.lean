import LimeOS.Impl.Keyboard

/-!
# `keyboard.c` with its arrays' bounds

The handler once more, with a check at every index into `char_buf`,
`command_buf`, `scancodeTable` and `buf_index`: `none` where an index is not
within its array.
-/

namespace LimeOS

/-- An index into an array of `n` elements. -/
def inArray (i : Int) (n : Nat) : Option Unit := if 0 ≤ i ∧ i < n then some () else none

/-- `scancodeTable[index][c]`. -/
def scancodeTableChecked (index : Nat) (c : Byte) : Option Byte := do
  inArray index 4
  inArray c.toNat (TABLE_SIZE + 1)
  return scancodeTable index c

def pushCharChecked (s : State) (b : Byte) : Option State := do
  inArray s.terminalNum TERMINAL_COUNT
  inArray (s.bufIndex s.terminalNum + 1) CHARACTER_BUFFER_SIZE
  return pushChar s b

/-- Both arrays of the loop have the same bound. -/
def commitLineChecked (charBuf : Nat → Byte) : Nat → Nat → Mem → Option (Mem × Bool)
  | 0, _, m => some (m, false)
  | n + 1, i, m => do
    inArray i CHARACTER_BUFFER_SIZE
    let m := m.store i (charBuf i)
    if charBuf i = 0x0a#8 then return (m, true) else commitLineChecked charBuf n (i + 1) m

def enterPressedChecked (s : State) : Option State := do
  let s ← pushCharChecked { s with enterFlag := true } 0x0a#8
  let t := s.terminalNum
  inArray t TERMINAL_COUNT
  let s ←
    if (s.commandBuf t).byte 0 = 0#8 then do
      let r ← commitLineChecked s.charBuf.byte CHARACTER_BUFFER_SIZE 0 (s.commandBuf t)
      let s := { s with commandBuf := Function.update s.commandBuf t r.1 }
      pure (if r.2 then setTEnterFlag s else s)
    else pure s
  return { s with isAdd := true }

def defaultKeyPressedChecked (s : State) (c : Byte) : Option State :=
  if s.altFlag ∧ KEY_F1 ≤ c ∧ c ≤ KEY_F3 then some (terminalSwitch s (c - KEY_F1).toNat)
  else if c.toNat > TABLE_SIZE then some s
  else do
    let b ← scancodeTableChecked (tableIndex s) c
    if s.ctrlFlag ∧ (b = 0x6c#8 ∨ b = 0x4c#8) then
      let s := resetScreen (clear s)
      inArray s.terminalNum TERMINAL_COUNT
      return { s with bufIndex := Function.update s.bufIndex s.terminalNum (-1) }
    else if b ≠ 0#8 then
      inArray s.terminalNum TERMINAL_COUNT
      if s.bufIndex s.terminalNum < CHARACTER_BUFFER_SIZE - 2 then pushCharChecked { s with isAdd := true } b
      else return s
    else return { s with isAdd := false }

def keyboardOutputDealerChecked (s : State) (c : Byte) : Option State :=
  if c = PRESS_ENTER then enterPressedChecked s
  else if c = PRESS_LEFT_SHIFT ∨ c = PRESS_RIGHT_SHIFT then some { s with shiftFlag := true }
  else if c = RELEASE_LEFT_SHIFT ∨ c = RELEASE_RIGHT_SHIFT then some { s with shiftFlag := false }
  else if c = PRESS_LEFT_CTRL then some { s with ctrlFlag := true }
  else if c = RELEASE_LEFT_CTRL then some { s with ctrlFlag := false }
  else if c = PRESS_ALT then some { s with altFlag := true }
  else if c = RELEASE_ALT then some { s with altFlag := false }
  else if c = PRESS_BACKSPACE then do
    inArray s.terminalNum TERMINAL_COUNT
    if s.bufIndex s.terminalNum > -1 then
      return backspacePressed { s with
        bufIndex := Function.update s.bufIndex s.terminalNum (s.bufIndex s.terminalNum - 1) }
    else return s
  else if c = PRESS_CAPSLOCK then
    some (if s.releaseCaps then { s with capslockFlag := !s.capslockFlag, releaseCaps := false } else s)
  else if c = RELEASE_CAPSLOCK then some { s with releaseCaps := true }
  else defaultKeyPressedChecked s c

def keyboardHandlerChecked (s : State) (c : Byte) : Option State := do
  let s ← keyboardOutputDealerChecked s c
  let s ←
    if s.isAdd then do
      inArray s.terminalNum TERMINAL_COUNT
      inArray (s.bufIndex s.terminalNum) CHARACTER_BUFFER_SIZE
      pure { (terminalWrite s (fun i => s.charBuf.byte (s.bufIndex s.terminalNum + i).toNat) 1).2 with
        isAdd := false }
    else pure s
  if s.enterFlag then
    inArray s.terminalNum TERMINAL_COUNT
    return { s with bufIndex := Function.update s.bufIndex s.terminalNum (-1), enterFlag := false }
  else return s

/-- A keyboard interrupt, or a statement with which `terminal_read` prepares a read of terminal `t`. -/
inductive KeyboardEvent
  | key (c : Byte)
  /-- `t_enter_flag[t] = 0`. -/
  | clearFlag (t : Nat)
  /-- The NUL to `command_buf[t][0]`. -/
  | clearByte (t : Nat)

def keyboardStep (s : State) : KeyboardEvent → Option State
  | .key c => some (keyboardHandler s c)
  | .clearFlag t => some { s with tEnterFlag := Function.update s.tEnterFlag t false }
  | .clearByte t => some { s with commandBuf := Function.update s.commandBuf t ((s.commandBuf t).store 0 0#8) }

end LimeOS
