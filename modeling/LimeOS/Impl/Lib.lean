import LimeOS.Impl.State

/-!
# `lib.c`: the screen, strings and memory

The screen functions work on the terminal `terminalNum`: its cursor
`screenX`, `screenY` and the page `videoMem` points to, two bytes a cell. The
routines in assembly are kept register by register.
-/

namespace LimeOS

/-- `get_tty`. -/
def getTty (s : State) : Nat := s.curPcb.tty

/-- `update_cursor`: the VGA's cursor, if the caller's terminal is on the screen. -/
def updateCursor (s : State) (x y : Int) : State :=
  if s.terminalNum ≠ getTty s then s else { s with cursor := (y * NUM_COLS + x) % 2 ^ 16 }

/-! ## The screen -/

/-- The address of the character of cell `i`; that of its attribute is the next one. -/
def charAddr (s : State) (i : Int) : Nat := (s.videoMem s.terminalNum + 2 * i).toNat

/-- `clear`. -/
def clear (s : State) : State :=
  { s with
    mem := (List.range 2000).foldl (fun m (i : Nat) =>
      (m.store (charAddr s i) 0x20#8).store (charAddr s i + 1) (screenColor s.terminalNum)) s.mem }

/-- `putc`. -/
def putc (s : State) (c : Byte) : State :=
  let t := s.terminalNum
  if c = 0x0a#8 ∨ c = 0x0d#8 then
    { s with
      screenY := Function.update s.screenY t (s.screenY t + 1)
      screenX := Function.update s.screenX t 0 }
  else
    let i := NUM_COLS * s.screenY t + s.screenX t
    let x := s.screenX t + 1
    { s with
      mem := ((s.mem.store (charAddr s i) c).store (charAddr s i + 1) (screenColor t)).store
        (charAddr s (i + 1) + 1) (screenColor t)
      screenY := Function.update s.screenY t ((s.screenY t + x.tdiv NUM_COLS).tmod NUM_ROWS)
      screenX := Function.update s.screenX t (x.tmod NUM_COLS) }

/-- `reset_screen`. -/
def resetScreen (s : State) : State :=
  let s := { s with
    screenX := Function.update s.screenX s.terminalNum 0
    screenY := Function.update s.screenY s.terminalNum 0 }
  updateCursor s (s.screenX s.terminalNum) (s.screenY s.terminalNum)

/-- Where `backspace_pressed` moves a cursor: one cell back, at the start of a
row to the end of the row above, and nowhere from the first cell. -/
def backspaceCursor (x y : Int) : Int × Int :=
  if x - 1 < 0 ∧ y = 0 then (x - 1 + 1, y)
  else if x - 1 < 0 ∧ y > 0 then (x - 1 + NUM_COLS, y - 1)
  else (x - 1, y)

/-- `backspace_pressed`. -/
def backspacePressed (s : State) : State :=
  let t := s.terminalNum
  let p := backspaceCursor (s.screenX t) (s.screenY t)
  let i := NUM_COLS * p.2 + p.1
  updateCursor { s with
    mem := (s.mem.store (charAddr s i) 0x20#8).store (charAddr s i + 1) ATTRIB
    screenX := Function.update s.screenX t p.1
    screenY := Function.update s.screenY t p.2 } p.1 p.2

abbrev SCROLL_ENTER_PRESSED : Nat := 1
abbrev SCROLL_LAST_LETTER : Nat := 2

/-- `check_out_of_bound`. -/
def checkOutOfBound (s : State) : Nat :=
  if s.screenY s.terminalNum = NUM_ROWS - 1 then
    if s.screenX s.terminalNum = NUM_COLS - 1 then SCROLL_LAST_LETTER else SCROLL_ENTER_PRESSED
  else 0

/-- The body of `scroll_screen`'s loops: cell `(x, y)` one row up, and blank on the last row. -/
def scrollCell (s : State) (y x : Nat) (m : Mem) : Mem :=
  let m := m.store (charAddr s (80 * (y - 1) + x)) (m.byte (charAddr s (80 * y + x)))
  if y = 24 then m.store (charAddr s (80 * y + x)) 0x20#8 else m

def scrollRow (s : State) (y : Nat) (m : Mem) : Mem :=
  (List.range 80).foldl (fun m x => scrollCell s y x m) m

/-- `scroll_screen`. -/
def scrollScreen (s : State) : State :=
  { s with
    mem := (List.range' 1 24).foldl (fun m y => scrollRow s y m) s.mem
    screenY := Function.update s.screenY s.terminalNum (s.screenY s.terminalNum - 1) }

/-- `printf` of a format without conversions. -/
def printfMessage (s : State) (format : List Byte) : State :=
  format.foldl putc (if checkOutOfBound s ≠ 0 then scrollScreen s else s)

/-! ## Strings -/

/-- `strncmp`, from index `i` on with `n` bytes to go. -/
def strncmpFrom (s₁ s₂ : Nat → Byte) : Nat → Nat → Int
  | 0, _ => 0
  | n + 1, i =>
    if s₁ i ≠ s₂ i ∨ s₁ i = 0#8 then toI8 (s₁ i) - toI8 (s₂ i) else strncmpFrom s₁ s₂ n (i + 1)

/-- `strncmp`. -/
def strncmp (s₁ s₂ : Nat → Byte) (n : Nat) : Int := strncmpFrom s₁ s₂ n 0

/-- `strcpy`'s loop, the rest of the source string going to `dest[i]` on. -/
def strcpyFrom (dest : Mem) (i : Nat) : List Byte → Mem
  | [] => dest.store i 0#8
  | b :: src => strcpyFrom (dest.store i b) (i + 1) src

/-- `strcpy` of a string to an array. -/
def strcpy (dest : Mem) (src : CString) : Mem := strcpyFrom dest 0 src.1

/-- `strncpy`'s second loop. -/
def strncpyPad (dest : Mem) : Nat → Nat → Mem
  | 0, _ => dest
  | n + 1, i => strncpyPad (dest.store i 0#8) n (i + 1)

/-- `strncpy`'s loops, from index `i` on with `n` bytes to go. -/
def strncpyFrom (dest : Mem) (src : Nat → Byte) : Nat → Nat → Mem
  | 0, _ => dest
  | n + 1, i =>
    if src i = 0#8 then strncpyPad dest (n + 1) i
    else strncpyFrom (dest.store i (src i)) src n (i + 1)

/-- `strncpy`. -/
def strncpy (dest : Mem) (src : Nat → Byte) (n : Nat) : Mem := strncpyFrom dest src n 0

/-! ## `memcpy` -/

/-- `memcpy`'s registers: the count, the two pointers and the memory. -/
structure Copy where
  ecx : Nat
  esi : Nat
  edi : Nat
  mem : Mem

/-- `movb (%esi), %al; movb %al, (%edi)` and the two additions. -/
def Copy.movb (c : Copy) : Copy :=
  { c with mem := c.mem.store c.edi (c.mem.byte c.esi)
           esi := (c.esi + 1) % 2 ^ 32
           edi := (c.edi + 1) % 2 ^ 32 }

/-- One iteration of `rep movsl`: the four bytes are read before any is stored. -/
def Copy.movsl (c : Copy) : Copy :=
  let b (k : Nat) := c.mem.byte ((c.esi + k) % 2 ^ 32)
  let a (k : Nat) := (c.edi + k) % 2 ^ 32
  { c with mem := (((c.mem.store (a 0) (b 0)).store (a 1) (b 1)).store (a 2) (b 2)).store (a 3) (b 3)
           esi := (c.esi + 4) % 2 ^ 32
           edi := (c.edi + 4) % 2 ^ 32 }

/-- `.memcpy_top`: bytes until the count is zero or the destination aligned. -/
def Copy.top : Nat → Copy → Copy
  | 0, c => { c with ecx := 0 }
  | n + 1, c => if c.edi % 4 = 0 then { c with ecx := n + 1 } else Copy.top n c.movb

/-- `rep movsl`. -/
def Copy.repMovsl : Nat → Copy → Copy
  | 0, c => c
  | n + 1, c => Copy.repMovsl n c.movsl

/-- `.memcpy_bottom`. -/
def Copy.bottom : Nat → Copy → Copy
  | 0, c => c
  | n + 1, c => Copy.bottom n c.movb

/-- `memcpy`. -/
def memcpy (m : Mem) (dest src n : Nat) : Mem :=
  let c := Copy.top n ⟨n, src, dest, m⟩
  (Copy.bottom (c.ecx % 4) (Copy.repMovsl (c.ecx / 4) c)).mem

end LimeOS
