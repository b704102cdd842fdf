import LimeOS.Framework.Mem

/-!
# A line being typed

What a key press means, and what it does to the line typed so far on its
terminal: a line of its own, of at most 127 bytes.
-/

namespace LimeOS

/-- The meaning of a key press. -/
inductive KeyOp
  /-- A character. -/
  | type (b : Byte)
  | enter
  | backspace
  /-- Ctrl+L. -/
  | clear
  /-- Alt+F1 to Alt+F3. -/
  | switch (newTty : Nat)
  /-- Anything else: modifiers, releases, keys without a meaning. -/
  | other
  deriving DecidableEq

/-- The longest line, its newline not counted. -/
abbrev LINE_MAX : Nat := 127

/-- The line after a key press. -/
def KeyOp.edit (line : List Byte) : KeyOp → List Byte
  | .type b => if line.length < LINE_MAX then line ++ [b] else line
  | .enter => []
  | .backspace => line.dropLast
  | .clear => []
  | .switch _ => line
  | .other => line

end LimeOS
