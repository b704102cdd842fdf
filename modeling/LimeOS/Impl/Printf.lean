import LimeOS.Framework.Cpu
import LimeOS.Framework.While
import LimeOS.Impl.Lib

/-!
# `lib.c`: `printf`

The format and the strings of `%s` are in memory that is read, the arguments are
the words above `format` on the stack, and a local array starts as what the stack
holds there. Every loop is given up after `n` tests. The bytes that the scan
reads and the characters passed to `putc` are kept.
-/

namespace LimeOS

/-- A character of the source. -/
abbrev chr (c : Char) : Byte := BitVec.ofNat 8 c.toNat

/-! ## Numbers -/

/-- `strlen`. -/
def strlen (n : Nat) (s : Nat → Byte) : Option Nat :=
  whileLoop (fun len => s len ≠ 0#8) (fun len => some (len + 1)) n 0

/-- The variables of `strrev`'s loop and the memory of its string. -/
structure Strrev where
  beg : Nat
  end_ : Nat
  mem : Mem

/-- The loop's body, for a string at `s`. -/
def Strrev.swap (s : Nat) (r : Strrev) : Strrev :=
  let tmp := r.mem.byte (s + r.end_)
  let m := r.mem.store (s + r.end_) (r.mem.byte (s + r.beg))
  ⟨r.beg + 1, r.end_ - 1, m.store (s + r.beg) tmp⟩

/-- `strrev` of the string at `s`. -/
def strrev (n : Nat) (m : Mem) (s : Nat) : Option Mem := do
  let len ← strlen n fun i => m.byte (s + i)
  -- `end` is -1 for an empty string, which has no iteration either
  let r ← whileLoop (fun r : Strrev => r.beg < r.end_) (fun r => some (r.swap s)) n ⟨0, len - 1, m⟩
  return r.mem

/-- `lookup`. -/
def lookup : List Byte := str "0123456789ABCDEFGHIJKLMNOPQRSTUVWXYZ"

/-- The variables of `itoa`'s loop and the memory of its buffer. -/
structure Itoa where
  newval : Word
  newbuf : Nat
  mem : Mem

/-- The loop's body; a division by zero has no result. -/
def Itoa.digit (radix : Word) (d : Itoa) : Option Itoa :=
  if radix = 0 then none
  else
    let i := (d.newval % radix).toNat
    some ⟨d.newval / radix, d.newbuf + 1, d.mem.store d.newbuf (lookup.getD i 0#8)⟩

/-- `itoa` to the buffer at `buf`. -/
def itoa (n : Nat) (value : Word) (m : Mem) (buf : Nat) (radix : Word) : Option Mem :=
  if value = 0 then some ((m.store buf (chr '0')).store (buf + 1) 0#8)
  else do
    let d ← whileLoop (fun d : Itoa => d.newval > 0) (Itoa.digit radix) n ⟨value, buf, m⟩
    strrev n (d.mem.store d.newbuf 0#8) buf

/-! ## Output -/

/-- The characters passed to `putc`, in order, and the kernel's state. -/
structure Console where
  out : List Byte
  state : State

def Console.putc (c : Console) (b : Byte) : Console := ⟨c.out ++ [b], LimeOS.putc c.state b⟩

/-- `puts`. -/
def puts (n : Nat) (s : Nat → Byte) (c : Console) : Option (Nat × Console) :=
  whileLoop (fun p => s p.1 ≠ 0#8) (fun p => some (p.1 + 1, p.2.putc (s p.1))) n (0, c)

/-! ## Conversions, with `conv` in `conv_buf` -/

/-- `%x`, and `%#x` if `alternate`. -/
def printfX (n : Nat) (conv : Nat → Byte) (alternate : Bool) (arg : Word) (c : Console) : Option Console :=
  if alternate = false then do
    let m ← itoa n arg (.fresh conv) 0 16
    let r ← puts n m.byte c
    return r.2
  else do
    let m ← itoa n arg (.fresh conv) 8 16
    let startingIndex ← strlen n fun i => m.byte (8 + i)
    let p ← whileLoop (fun p : Nat × Mem => p.1 < 8) (fun p => some (p.1 + 1, p.2.store p.1 (chr '0'))) n
      (startingIndex, m)
    let r ← puts n (fun i => p.2.byte (startingIndex + i)) c
    return r.2

/-- `%u`. -/
def printfU (n : Nat) (conv : Nat → Byte) (arg : Word) (c : Console) : Option Console := do
  let m ← itoa n arg (.fresh conv) 0 10
  let r ← puts n m.byte c
  return r.2

/-- `%d`. -/
def printfD (n : Nat) (conv : Nat → Byte) (arg : Word) (c : Console) : Option Console := do
  let m ← if arg.toInt < 0 then itoa n (-arg) ((Mem.fresh conv).store 0 (chr '-')) 1 10
    else itoa n arg (.fresh conv) 0 10
  let r ← puts n m.byte c
  return r.2

/-! ## The scan -/

/-- What a call finds: memory, the words above `format` on the stack, and what is in
`conv_buf` when argument `k` is converted. -/
structure PrintfFrame where
  mem : Nat → Byte
  args : Nat → Word
  conv : Nat → Nat → Byte

/-- Where `printf` is: at the test of its loop, or at the label in the loop. -/
inductive PrintfAt
  | test
  | formatCharSwitch (alternate : Bool)
  | returned
  deriving DecidableEq

structure Printf where
  pc : PrintfAt
  buf : Nat
  /-- The number of arguments taken. -/
  esp : Nat
  console : Console
  /-- The addresses read through `buf`, the latest first. -/
  reads : List Nat

/-- `*buf`. -/
def Printf.read (p : Printf) : Printf := { p with reads := p.buf :: p.reads }

/-- The conversion switch but for `#`: how many arguments are taken, and what is printed. -/
def printfConvert (n : Nat) (f : PrintfFrame) (alternate : Bool) (p : Printf) : Option (Nat × Console) :=
  let c := f.mem p.buf
  let arg := f.args p.esp
  if c = chr '%' then some (0, p.console.putc (chr '%'))
  else if c = chr 'x' then (printfX n (f.conv p.esp) alternate arg p.console).map fun c => (1, c)
  else if c = chr 'u' then (printfU n (f.conv p.esp) arg p.console).map fun c => (1, c)
  else if c = chr 'd' then (printfD n (f.conv p.esp) arg p.console).map fun c => (1, c)
  else if c = chr 'c' then some (1, p.console.putc (arg.setWidth 8))
  else if c = chr 's' then (puts n (fun i => f.mem (arg.toNat + i)) p.console).map fun r => (1, r.2)
  else some (0, p.console)

/-- From `format_char_switch` to the next time there, or past the conversion. -/
def formatCharSwitch (n : Nat) (f : PrintfFrame) (alternate : Bool) (p : Printf) : Option Printf :=
  if f.mem p.buf = chr '#' then some { p with pc := .formatCharSwitch true, buf := p.buf + 1 }
  else (printfConvert n f alternate p).map fun r =>
    { p with pc := .test, buf := p.buf + 1, esp := p.esp + r.1, console := r.2 }

/-- From one test or label to the next. -/
def Printf.step (n : Nat) (f : PrintfFrame) (p : Printf) : Option Printf :=
  match p.pc with
  | .returned => none
  | .test =>
    let c := f.mem p.buf
    if c = 0#8 then some { p.read with pc := .returned }
    else if c = chr '%' then some { p.read with pc := .formatCharSwitch false, buf := p.buf + 1 }
    else some { p.read with console := p.console.putc c, buf := p.buf + 1 }
  | .formatCharSwitch alternate => formatCharSwitch n f alternate p.read

/-- The loop, given up after `j` steps. -/
def Printf.run (n : Nat) (f : PrintfFrame) (j : Nat) (p : Printf) : Option Printf :=
  whileLoop (fun p => p.pc ≠ .returned) (Printf.step n f) j p

/-- `printf`: its result, and the scan at its end. -/
def printf (n : Nat) (f : PrintfFrame) (s : State) (format : Nat) : Option (Int × Printf) := do
  let s := if checkOutOfBound s ≠ 0 then scrollScreen s else s
  let p ← Printf.run n f n ⟨.test, format, 0, ⟨[], s⟩, []⟩
  return (toI32 (p.buf - format), p)

end LimeOS
