import LimeOS.Impl.Keyboard

/-!
# `terminal_read` statement by statement

A process that reads the terminal runs with interrupts on, so the keyboard's
handler may run between any two statements of `terminal_read`. The reader is the
process with one call after another on terminal `t`; keys are those pressed while
`t` stays displayed.
-/

namespace LimeOS

/-- The next statement of `terminal_read`, of a call whose buffer is not `NULL`. -/
inductive ReadPc
  /-- No call is under way. -/
  | idle
  /-- `t_enter_flag[get_tty()] = 0`. -/
  | clearFlag
  /-- The NUL to `command_buf[get_tty()][0]`. -/
  | clearByte
  /-- `while(!t_enter_flag[get_tty()])`. -/
  | poll
  /-- `buf[i] = command_buf[get_tty()][i]`. -/
  | copy (i : Nat)
  /-- The test of `command_buf[get_tty()][i]` for the newline. -/
  | test (i : Nat)
  deriving DecidableEq

/-- The kernel, where the reader is, and the buffer of its call. -/
structure Reader where
  kernel : State
  pc : ReadPc
  buf : Mem

inductive ReaderEvent
  /-- A keyboard interrupt. -/
  | key (c : Byte)
  /-- The reader calls `terminal_read` with a buffer. -/
  | call (buf : Nat → Byte)
  /-- The reader's next statement. -/
  | next

section

variable (t : Nat)

/-- A statement of `terminal_read`; past the end of `command_buf[t]` there is none. -/
def readerNext (q : Reader) : Option Reader :=
  match q.pc with
  | .idle => none
  | .clearFlag =>
    some { q with
      kernel := { q.kernel with tEnterFlag := Function.update q.kernel.tEnterFlag t false }
      pc := .clearByte }
  | .clearByte =>
    some { q with
      kernel := { q.kernel with
        commandBuf := Function.update q.kernel.commandBuf t ((q.kernel.commandBuf t).store 0 0#8) }
      pc := .poll }
  | .poll => some { q with pc := if q.kernel.tEnterFlag t then .copy 0 else .poll }
  | .copy i =>
    if i < CHARACTER_BUFFER_SIZE then
      some { q with buf := q.buf.store i ((q.kernel.commandBuf t).byte i), pc := .test i }
    else none
  -- the call returns `i + 1`
  | .test i => some { q with pc := if (q.kernel.commandBuf t).byte i = 0x0a#8 then .idle else .copy (i + 1) }

/-- One step of the reader and the keyboard. -/
def readerStep (q : Reader) : ReaderEvent → Option Reader
  | .key c =>
    if (keyboardHandler q.kernel c).terminalNum = t then some { q with kernel := keyboardHandler q.kernel c } else none
  | .call buf => if q.pc = .idle then some { q with pc := .clearFlag, buf := .fresh buf } else none
  | .next => readerNext t q

end

end LimeOS
