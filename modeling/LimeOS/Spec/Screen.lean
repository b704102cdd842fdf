import LimeOS.Framework.Mem

/-!
# A scrolling terminal

An 80 by 25 screen of its own: the characters, by cell in row-major order, and
the cursor. A byte is shown at the cursor, which moves on; a newline moves the
cursor to the start of the next row; and when the cursor leaves the last row
the rows move up by one. What the kernel's screen functions do to a terminal
is stated against this screen.
-/

namespace LimeOS

structure Screen where
  chars : Nat → Byte
  x : Nat
  y : Nat

namespace Screen

/-- The cell under the cursor. -/
def cursorCell (scr : Screen) : Nat := 80 * scr.y + scr.x

/-- All rows up by one, the last one blank; the cursor moves with its row. -/
def scroll (scr : Screen) : Screen :=
  ⟨fun i => if i < 1920 then scr.chars (i + 80) else 0x20#8, scr.x, scr.y - 1⟩

def newline (scr : Screen) : Screen := ⟨scr.chars, 0, scr.y + 1⟩

/-- A character at the cursor, which moves one column on, past the last to the next row. -/
def advance (scr : Screen) (c : Byte) : Screen :=
  let chars := Function.update scr.chars scr.cursorCell c
  if scr.x + 1 = 80 then ⟨chars, 0, scr.y + 1⟩ else ⟨chars, scr.x + 1, scr.y⟩

/-- One byte of output. -/
def put (scr : Screen) (c : Byte) : Screen :=
  let scr := if c = 0x0a#8 then scr.newline else scr.advance c
  if scr.y = 25 then scr.scroll else scr

/-- The column and row one cell back, not before the first. -/
def back (x y : Nat) : Nat × Nat :=
  if x = 0 ∧ y = 0 then (0, 0) else if x = 0 then (79, y - 1) else (x - 1, y)

/-- The cursor one cell back, and a blank there. -/
def backspace (scr : Screen) : Screen :=
  let p := back scr.x scr.y
  ⟨Function.update scr.chars (80 * p.2 + p.1) 0x20#8, p.1, p.2⟩

/-- A blank screen. -/
def blank : Screen := ⟨fun _ => 0x20#8, 0, 0⟩

end Screen

end LimeOS
