import LimeOS.Impl.Terminal

/-!
# `keyboard.c`
-/

namespace LimeOS

abbrev TABLE_SIZE : Nat := 0x3A
abbrev PRESS_ENTER : Byte := 0x1C
abbrev PRESS_BACKSPACE : Byte := 0x0E
abbrev PRESS_LEFT_CTRL : Byte := 0x1D
abbrev RELEASE_LEFT_CTRL : Byte := 0x9D
abbrev PRESS_LEFT_SHIFT : Byte := 0x2A
abbrev PRESS_RIGHT_SHIFT : Byte := 0x36
abbrev RELEASE_LEFT_SHIFT : Byte := 0xAA
abbrev RELEASE_RIGHT_SHIFT : Byte := 0xB6
abbrev PRESS_CAPSLOCK : Byte := 0x3A
abbrev RELEASE_CAPSLOCK : Byte := 0xBA
abbrev PRESS_ALT : Byte := 0x38
abbrev RELEASE_ALT : Byte := 0xB8
abbrev KEY_F1 : Byte := 0x3B
abbrev KEY_F3 : Byte := 0x3D

/-- The rows of `scancodeTable`. -/
def scancodeRow : Nat → List Byte
  | 0 =>
    bytes [
      '\x00', '\x00', '1', '2', '3', '4', '5', '6', '7', '8', '9', '0', '-', '=', '\x00', '\x00',
      'q', 'w', 'e', 'r', 't', 'y', 'u', 'i', 'o', 'p', '[', ']', '\x00', '\x00', 'a', 's',
      'd', 'f', 'g', 'h', 'j', 'k', 'l', ';', '\x27', '\x60', '\x00', '\x5c', 'z', 'x', 'c', 'v',
      'b', 'n', 'm', ',', '.', '/', '\x00', '*', '\x00', ' ', '\x00']
  | 1 =>
    bytes [
      '\x00', '\x00', '!', '@', '#', '$', '%', '^', '&', '*', '(', ')', '_', '+', '\x00', '\x00',
      'Q', 'W', 'E', 'R', 'T', 'Y', 'U', 'I', 'O', 'P', '\x7b', '\x7d', '\x00', '\x00', 'A', 'S',
      'D', 'F', 'G', 'H', 'J', 'K', 'L', ':', '\x22', '~', '\x00', '|', 'Z', 'X', 'C', 'V',
      'B', 'N', 'M', '<', '>', '?', '\x00', '*', '\x00', ' ', '\x00']
  | 2 =>
    bytes [
      '\x00', '\x00', '1', '2', '3', '4', '5', '6', '7', '8', '9', '0', '-', '=', '\x00', '\x00',
      'Q', 'W', 'E', 'R', 'T', 'Y', 'U', 'I', 'O', 'P', '[', ']', '\x00', '\x00', 'A', 'S',
      'D', 'F', 'G', 'H', 'J', 'K', 'L', ';', '\x27', '\x60', '\x00', '\x5c', 'Z', 'X', 'C', 'V',
      'B', 'N', 'M', ',', '.', '/', '\x00', '*', '\x00', ' ', '\x00']
  | _ =>
    bytes [
      '\x00', '\x00', '!', '@', '#', '$', '%', '^', '&', '*', '(', ')', '_', '+', '\x00', '\x00',
      'q', 'w', 'e', 'r', 't', 'y', 'u', 'i', 'o', 'p', '\x7b', '\x7d', '\x00', '\x00', 'a', 's',
      'd', 'f', 'g', 'h', 'j', 'k', 'l', ':', '\x22', '~', '\x00', '\x5c', 'z', 'x', 'c', 'v',
      'b', 'n', 'm', '<', '>', '?', '\x00', '*', '\x00', ' ', '\x00']

/-- `scancodeTable`. -/
def scancodeTable (index : Nat) (c : Byte) : Byte := (scancodeRow index).getD c.toNat 0#8

/-- The row the modifiers select. -/
def tableIndex (s : State) : Nat := 2 * s.capslockFlag.toNat + 1 * s.shiftFlag.toNat

/-- `char_buf[++buf_index[terminal_num]] = b`. -/
def pushChar (s : State) (b : Byte) : State :=
  let i := s.bufIndex s.terminalNum + 1
  { s with
    bufIndex := Function.update s.bufIndex s.terminalNum i
    charBuf := s.charBuf.store i.toNat b }

/-- The loop that copies `char_buf` to `command_buf` on Enter, from index `i`
with `n` bytes to go; whether it met a newline. -/
def commitLine (charBuf : Nat → Byte) : Nat → Nat → Mem → Mem × Bool
  | 0, _, m => (m, false)
  | n + 1, i, m =>
    let m := m.store i (charBuf i)
    if charBuf i = 0x0a#8 then (m, true) else commitLine charBuf n (i + 1) m

/-- `case PRESS_ENTER`. -/
def enterPressed (s : State) : State :=
  let s := pushChar { s with enterFlag := true } 0x0a#8
  let t := s.terminalNum
  let s :=
    if (s.commandBuf t).byte 0 = 0#8 then
      let r := commitLine s.charBuf.byte CHARACTER_BUFFER_SIZE 0 (s.commandBuf t)
      let s := { s with commandBuf := Function.update s.commandBuf t r.1 }
      if r.2 then setTEnterFlag s else s
    else s
  { s with isAdd := true }

/-- `defaultKeyPressed`. -/
def defaultKeyPressed (s : State) (c : Byte) : State :=
  let b := scancodeTable (tableIndex s) c
  if s.altFlag ∧ KEY_F1 ≤ c ∧ c ≤ KEY_F3 then terminalSwitch s (c - KEY_F1).toNat
  else if c.toNat > TABLE_SIZE then s
  else if s.ctrlFlag ∧ (b = 0x6c#8 ∨ b = 0x4c#8) then
    let s := resetScreen (clear s)
    { s with bufIndex := Function.update s.bufIndex s.terminalNum (-1) }
  else if b ≠ 0#8 then
    if s.bufIndex s.terminalNum < CHARACTER_BUFFER_SIZE - 2 then pushChar { s with isAdd := true } b else s
  else { s with isAdd := false }

/-- `keyboard_output_dealer`. -/
def keyboardOutputDealer (s : State) (c : Byte) : State :=
  if c = PRESS_ENTER then enterPressed s
  else if c = PRESS_LEFT_SHIFT ∨ c = PRESS_RIGHT_SHIFT then { s with shiftFlag := true }
  else if c = RELEASE_LEFT_SHIFT ∨ c = RELEASE_RIGHT_SHIFT then { s with shiftFlag := false }
  else if c = PRESS_LEFT_CTRL then { s with ctrlFlag := true }
  else if c = RELEASE_LEFT_CTRL then { s with ctrlFlag := false }
  else if c = PRESS_ALT then { s with altFlag := true }
  else if c = RELEASE_ALT then { s with altFlag := false }
  else if c = PRESS_BACKSPACE then
    if s.bufIndex s.terminalNum > -1 then
      backspacePressed { s with
        bufIndex := Function.update s.bufIndex s.terminalNum (s.bufIndex s.terminalNum - 1) }
    else s
  else if c = PRESS_CAPSLOCK then
    if s.releaseCaps then { s with capslockFlag := !s.capslockFlag, releaseCaps := false } else s
  else if c = RELEASE_CAPSLOCK then { s with releaseCaps := true }
  else defaultKeyPressed s c

/-- `keyboard_handler`, with the scancode at the data port. -/
def keyboardHandler (s : State) (c : Byte) : State :=
  let s := keyboardOutputDealer s c
  let s :=
    if s.isAdd then
      { (terminalWrite s (fun i => s.charBuf.byte (s.bufIndex s.terminalNum + i).toNat) 1).2 with isAdd := false }
    else s
  if s.enterFlag then
    { s with bufIndex := Function.update s.bufIndex s.terminalNum (-1), enterFlag := false }
  else s

end LimeOS
