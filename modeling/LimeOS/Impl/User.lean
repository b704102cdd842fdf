import LimeOS.Framework.Prog
import LimeOS.Impl.Sched

/-!
# User programs

`ece391support.c` and programs of `syscalls/`, as programs that call the kernel:
`cat`, `ls` and `grep`. Their arrays are memories of their own, not written to
at the start; a loop is given up after a number of rounds, where the program has no
result. The host is the kernel while the program is that of process `p`
(`userHost`): between two calls there may be any interrupts, and any steps of other
processes while one of them runs.
-/

namespace LimeOS

/-! ## Calls -/

/-- The system calls that the programs make. -/
inductive UserCall
  | getargs (buf : Nat → Byte) (nbytes : Int)
  | open (filename : CString)
  | read (fd : Int) (buf : Nat → Byte) (nbytes : Int)
  | write (fd : Int) (buf : Nat → Byte) (nbytes : Int)
  | close (fd : Int)

/-- What a call returns: its value, and the bytes stored through its pointer. -/
abbrev UserResult : UserCall → Type
  | .getargs _ _ => Int × Mem
  | .open _ => Int
  | .read _ _ _ => Int × Mem
  | .write _ _ _ => Int
  | .close _ => Int

abbrev UserProg := Prog UserCall UserResult

def ece391Getargs (buf : Nat → Byte) (nbytes : Int) : UserProg (Int × Mem) :=
  Prog.ask (UserCall.getargs buf nbytes)

def ece391Open (filename : CString) : UserProg Int := Prog.ask (UserCall.open filename)

def ece391Read (fd : Int) (buf : Nat → Byte) (nbytes : Int) : UserProg (Int × Mem) :=
  Prog.ask (UserCall.read fd buf nbytes)

def ece391Write (fd : Int) (buf : Nat → Byte) (nbytes : Int) : UserProg Int :=
  Prog.ask (UserCall.write fd buf nbytes)

def ece391Close (fd : Int) : UserProg Int := Prog.ask (UserCall.close fd)

/-- The kernel, and what the process has written to its standard output. -/
structure World where
  kernel : State
  output : List Byte

section

variable (img : Image)

/-- The answer of the kernel to a call of the current process; `line` is what is read of the keyboard. -/
def userAnswer (w : World) (line : Nat → Byte) : (c : UserCall) → Option (UserResult c × World)
  | .getargs buf nbytes =>
    (getargsThrough w.kernel (some (.own buf)) nbytes).toOption.map fun r =>
      ((r.1, r.2.1.getD (.fresh buf)), { w with kernel := r.2.2 })
  | .open filename => (sysOpen img w.kernel (some filename)).toOption.map fun r => (r.1, { w with kernel := r.2 })
  | .read fd buf nbytes =>
    (readThrough img w.kernel fd (some (.own buf)) nbytes line).toOption.map fun r =>
      ((r.1, r.2.1.getD (.fresh buf)), { w with kernel := r.2.2 })
  | .write fd buf nbytes =>
    (sysWrite w.kernel fd (some (.own buf)) nbytes).toOption.map fun r =>
      (r.1, ⟨r.2, if fd = STDOUT then w.output ++ (List.range r.1.toNat).map buf else w.output⟩)
  | .close fd => (sysClose w.kernel fd).toOption.map fun r => (r.1, { w with kernel := r.2 })

/-- The kernel, for the program of process `p`. -/
def userHost (p : Int) : Host UserCall UserResult World where
  idle w w₁ := w₁.output = w.output ∧ w₁.kernel.currentPid = p ∧
    ∃ es, Guarded (step img) (Step.Other p) w.kernel es ∧ run (step img) w.kernel es = some w₁.kernel
  answer w c o := ∃ line, o = userAnswer img w line c

end

/-! ## `ece391support.c` -/

/-- What was stored through a pointer to `data[off]`. -/
def Mem.paste (data : Mem) (off : Nat) (m : Mem) : Mem where
  byte x := if off ≤ x ∧ x - off ∈ m.stored then m.byte (x - off) else data.byte x
  stored := m.stored.map (off + ·) ++ data.stored

/-- `ece391_fdputs`, of a string. -/
def ece391Fdputs (fd : Int) (s : List Byte) : UserProg Unit := do
  let _ ← ece391Write fd (s.getD · 0#8) s.length

/-- `ece391_strncmp` from index `i` on, with `n` bytes to go. -/
def ece391StrncmpFrom (s₁ s₂ : Nat → Byte) : Nat → Nat → Int
  | 0, _ => 0
  | n + 1, i =>
    if s₁ i = s₂ i then if s₁ i = 0#8 ∨ n = 0 then 0 else ece391StrncmpFrom s₁ s₂ n (i + 1)
    else (s₁ i).toNat - (s₂ i).toNat

/-- `ece391_strncmp`. -/
def ece391Strncmp (s₁ s₂ : Nat → Byte) (n : Nat) : Int := ece391StrncmpFrom s₁ s₂ n 0

/-- `ece391_strcpy` within an array of which `n` bytes are left from `src` on; none where it runs out of them. -/
def ece391Strcpy (dst src : Nat) : Nat → Mem → Option Mem
  | 0, _ => none
  | n + 1, m =>
    let b := m.byte src
    let m := m.store dst b
    if b = 0#8 then some m else ece391Strcpy (dst + 1) (src + 1) n m

/-! ## `ece391cat.c` -/

/-- The loop of `cat`, with the buffer. -/
def catRound (fd : Int) (buf : Mem) : UserProg (Mem ⊕ Int) := do
  let r ← ece391Read fd buf.byte 1024
  let cnt := r.1
  let buf := buf.paste 0 r.2
  if cnt = 0 then return .inr 0
  if cnt = -1 then
    ece391Fdputs 1 (str "file read failed\n")
    return .inr 3
  let v ← ece391Write 1 buf.byte cnt
  if v = -1 then return .inr 3
  return .inl buf

/-- `main` of `cat` from its `ece391_open` on, with at most `n` reads. -/
def catFile (n : Nat) (filename : CString) (buf : Mem) : UserProg (Option Int) := do
  let fd ← ece391Open filename
  if fd = -1 then
    ece391Fdputs 1 (str "file not found\n")
    return some 2
  Prog.loop (catRound fd) n buf

/-- `main` of `cat`. -/
def cat (n : Nat) (buf : Nat → Byte) : UserProg (Option Int) := do
  let r ← ece391Getargs buf 1024
  let buf := (Mem.fresh buf).paste 0 r.2
  if r.1 ≠ 0 then
    ece391Fdputs 1 (str "could not read arguments\n")
    return some 3
  catFile n (Mem.cstr buf.byte 1024) buf

/-! ## `ece391ls.c` -/

abbrev SBUFSIZE : Nat := 33

def lsRound (fd : Int) (buf : Mem) : UserProg (Mem ⊕ Int) := do
  let r ← ece391Read fd buf.byte (SBUFSIZE - 1)
  let cnt := r.1
  let buf := buf.paste 0 r.2
  if cnt = 0 then return .inr 0
  if cnt = -1 then
    ece391Fdputs 1 (str "directory entry read failed\n")
    return .inr 3
  let buf := buf.store cnt.toNat 0x0a#8
  let v ← ece391Write 1 buf.byte (cnt + 1)
  if v = -1 then return .inr 3
  return .inl buf

/-- The name of the directory. -/
def dot : CString := ⟨str ".", by decide⟩

/-- `main` of `ls`. -/
def ls (n : Nat) (buf : Nat → Byte) : UserProg (Option Int) := do
  let fd ← ece391Open dot
  if fd = -1 then
    ece391Fdputs 1 (str "directory open failed\n")
    return some 2
  Prog.loop (lsRound fd) n (.fresh buf)

/-! ## `ece391grep.c` -/

abbrev BUFSIZE : Nat := 1024

/-- The loop that looks for the end of a line, with `n` bytes to go. -/
def lineEndFrom (data : Nat → Byte) : Nat → Nat → Nat
  | 0, lineEnd => lineEnd
  | n + 1, lineEnd => if data lineEnd ≠ 0x0a#8 then lineEndFrom data n (lineEnd + 1) else lineEnd

/-- The loop that looks for `s` in a line, with `n` bytes to go. -/
def searchFrom (data s : Nat → Byte) (sLen : Nat) : Nat → Nat → Bool
  | 0, _ => false
  | n + 1, check =>
    if s 0 = data check ∧ ece391Strncmp (fun i => data (check + i)) s sLen = 0 then true
    else searchFrom data s sLen n (check + 1)

/-- The search of a line, and what is written for it. -/
def searchLine (s fname : CString) (data : Nat → Byte) (lineStart lineEnd : Nat) : UserProg Unit := do
  if searchFrom data (s.1.getD · 0#8) s.1.length (lineEnd - lineStart) lineStart then
    ece391Fdputs 1 fname.1
    ece391Fdputs 1 (str ":")
    ece391Fdputs 1 (Mem.cstr (fun i => data (lineStart + i)) (BUFSIZE + 1 - lineStart)).1
    ece391Fdputs 1 (str "\n")

/-- `do_one_file`'s inner loop, with the data and `line_start`; it ends with the data and `last`, or
with nothing where `ece391_strcpy` leaves the data. -/
def grepLine (s fname : CString) (cnt : Int) (last : Nat) (v : Mem × Nat) :
    UserProg ((Mem × Nat) ⊕ Option (Mem × Nat)) := do
  let data := v.1
  let lineStart := v.2
  let lineEnd := lineEndFrom data.byte (last - lineStart) lineStart
  let line := data.store lineEnd 0#8
  if data.byte lineEnd ≠ 0x0a#8 ∧ cnt ≠ 0 ∧ lineStart ≠ 0 then
    return .inr ((ece391Strcpy 0 lineStart (BUFSIZE + 1 - lineStart) line).map fun data => (data, last - lineStart))
  searchLine s fname line.byte lineStart lineEnd
  if lineEnd + 1 ≥ last then return .inr (some (line, 0))
  return .inl (line, lineEnd + 1)

/-- Its outer loop, with the data and `last`. -/
def grepRound (n : Nat) (s fname : CString) (fd : Int) (v : Mem × Nat) : UserProg ((Mem × Nat) ⊕ Option Int) := do
  let r ← ece391Read fd (fun i => v.1.byte (v.2 + i)) (BUFSIZE - v.2 : Nat)
  let cnt := r.1
  if cnt = -1 then
    ece391Fdputs 1 (str "file read failed\n")
    return .inr (some (-1))
  match ← Prog.loop (grepLine s fname cnt (v.2 + cnt.toNat)) n (v.1.paste v.2 r.2, 0) with
  | some (some v) => return if cnt = 0 then .inr (some 0) else .inl v
  | _ => return .inr none

/-- `do_one_file`, with what its array holds at the start. -/
def doOneFile (n : Nat) (s fname : CString) (data : Nat → Byte) : UserProg (Option Int) := do
  let fd ← ece391Open fname
  if fd = -1 then
    ece391Fdputs 1 (str "file open failed\n")
    return some (-1)
  match ← Prog.loop (grepRound n s fname fd) n (.fresh data, 0) with
  | some (some 0) =>
    let v ← ece391Close fd
    if v = -1 then
      ece391Fdputs 1 (str "file close failed\n")
      return some (-1)
    return some 0
  | some r => return r
  | none => return none

/-- `main`'s loop, with the buffer and the number of files so far; `data k` is what the array of
`do_one_file` holds in its call for file `k`. -/
def grepFile (n : Nat) (s : CString) (data : Nat → Nat → Byte) (fd : Int) (v : Mem × Nat) :
    UserProg ((Mem × Nat) ⊕ Option Int) := do
  let r ← ece391Read fd v.1.byte (SBUFSIZE - 1)
  let cnt := r.1
  let buf := v.1.paste 0 r.2
  if cnt = 0 then return .inr (some 0)
  if cnt = -1 then
    ece391Fdputs 1 (str "directory entry read failed\n")
    return .inr (some 3)
  if buf.byte 0 = 0x2e#8 then return .inl (buf, v.2)
  let buf := buf.store cnt.toNat 0#8
  match ← doOneFile n s (Mem.cstr buf.byte SBUFSIZE) (data v.2) with
  | some 0 => return .inl (buf, v.2 + 1)
  | some _ => return .inr (some 3)
  | none => return .inr none

/-- `main` of `grep`. -/
def grep (n : Nat) (buf search : Nat → Byte) (data : Nat → Nat → Byte) : UserProg (Option Int) := do
  let r ← ece391Getargs search BUFSIZE
  let search := (Mem.fresh search).paste 0 r.2
  if r.1 ≠ 0 then
    ece391Fdputs 1 (str "could not read argument\n")
    return some 3
  let fd ← ece391Open dot
  if fd = -1 then
    ece391Fdputs 1 (str "directory open failed\n")
    return some 2
  return (← Prog.loop (grepFile n (Mem.cstr search.byte BUFSIZE) data fd) n (.fresh buf, 0)).join

end LimeOS
