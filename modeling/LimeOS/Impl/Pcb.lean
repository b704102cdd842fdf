import LimeOS.Impl.Sched

/-!
# Stores over a control block

`read` does not look at the address that it is given, and its drivers store there
with the kernel's rights. The control blocks lie in the kernel's 4 MB, so a buffer
may be in the caller's own one: its descriptors are then what the stored bytes make
of them. Where the kernel's functions are in memory is not known, so of a
function's pointer it is known what it is if no byte of it is stored to, or if all
of them become zero.
-/

namespace LimeOS

/-- The address of a pid's control block, which begins with the descriptors. -/
def pcbAddr (pid : Int) : Int := KERNEL_BOT_ADDR - (pid + 1) * EIGHT_KB

/-- The size of an `fd_entry_t`: four pointers and three words. -/
abbrev FD_ENTRY_SIZE : Nat := 28

/-- The bytes that have been stored to, by their place. -/
abbrev Poke := Nat → Option Byte

/-- The stored bytes from place `i` on. -/
def Poke.drop (w : Poke) (i : Nat) : Poke := fun j => w (i + j)

/-- A function's pointer after the stores, `none` where it may point anywhere. -/
def pokePointer {α : Type} (p : Option α) (w : Poke) : Option (Option α) :=
  if (List.range 4).all fun j => w j = none then some p
  else if (List.range 4).all fun j => w j = some 0#8 ∨ w j = none ∧ p.isNone then some none
  else none

/-- A word after the stores, its low byte first. -/
def pokeInt (x : Int) (w : Poke) : Int :=
  let byte (j : Nat) : Nat := ((w j).getD (BitVec.ofNat 8 (toU32 x / 2 ^ (8 * j)))).toNat
  toI32 (byte 0 + 2 ^ 8 * byte 1 + 2 ^ 16 * byte 2 + 2 ^ 24 * byte 3 : Nat)

/-- `enum pidStatus` as a word. -/
def PidStatus.word : PidStatus → Int
  | .FREE => 0
  | .IN_USE => 1

def PidStatus.ofWord (x : Int) : Option PidStatus :=
  if x = 0 then some .FREE else if x = 1 then some .IN_USE else none

/-- A descriptor after the stores. -/
def pokeEntry (e : FdEntry) (w : Poke) : Option FdEntry := do
  let OPEN ← pokePointer e.operationsPointer.OPEN w
  let READ ← pokePointer e.operationsPointer.READ (w.drop 4)
  let WRITE ← pokePointer e.operationsPointer.WRITE (w.drop 8)
  let CLOSE ← pokePointer e.operationsPointer.CLOSE (w.drop 12)
  let flags ← PidStatus.ofWord (pokeInt e.flags.word (w.drop 24))
  return ⟨⟨OPEN, READ, WRITE, CLOSE⟩, pokeInt e.inodeIndex (w.drop 16), pokeInt e.filePosition (w.drop 20), flags⟩

/-- The descriptors of a control block after the stores. -/
def pokeTable (t : Nat → FdEntry) (w : Poke) : Option (Nat → FdEntry) :=
  let entry (i : Nat) := pokeEntry (t i) (w.drop (FD_ENTRY_SIZE * i))
  if (List.range MAX_FD_NUM).all fun i => (entry i).isSome then
    some fun i => if i < MAX_FD_NUM then (entry i).getD (t i) else t i
  else none

/-- Where a store of byte `i` of the buffer is among the descriptors of a pid's control block. -/
def Buffer.inPcb (b : Buffer) (pid : Int) (i : Nat) : Option Nat :=
  match b.region i with
  | .kernel a =>
    if pcbAddr pid ≤ a ∧ (a : Int) < pcbAddr pid + FD_ENTRY_SIZE * MAX_FD_NUM then some ((a : Int) - pcbAddr pid).toNat
    else none
  | _ => none

/-- The bytes that a driver has stored among the descriptors, if it has stored nowhere else but in the program's page. -/
def pcbStores (b : Buffer) (pid : Int) (m : Mem) : Option Poke :=
  if m.stored.all fun i => decide (b.region i = .program) || (b.inPcb pid i).isSome then
    some fun j => (m.stored.find? fun i => b.inPcb pid i = some j).map m.byte
  else none

/-- What a driver does to its descriptor after it has stored `ret` bytes. -/
def advance (f : Option ReadFn) (ret : Int) (e : FdEntry) : FdEntry :=
  match f with
  | some .readFile => { e with filePosition := toI32 (e.filePosition + ret) }
  | some .readDirectory => { e with filePosition := toI32 (e.filePosition + 1) }
  | _ => e

section

variable (img : Image)

/-- A `read` whose buffer is in the caller's control block. -/
def readOver (s : State) (fd : Int) (b : Buffer) (nbytes : Int) (line : Nat → Byte) : Option State :=
  match sysRead img s fd (some b.mem) nbytes line with
  | .ok (ret, some m, s') =>
    let e := s.curPcb.fdEntry fd.toNat
    -- the driver stores first, and moves the position of what is there then
    (pcbStores b s.currentPid m).bind fun w =>
      (pokeTable s.curPcb.fdEntry w).map fun t =>
        s'.setPcb s'.currentPid { s'.curPcb with
          fdEntry := Function.update t fd.toNat (advance e.operationsPointer.READ ret (t fd.toNat)) }
  | _ => none

/-- A call of a process on its descriptors, wherever its buffer is in its control block. A call that faults ends
the process. -/
def pcbStep (s : State) (c : FdCall) : Option State :=
  match fdCall img s c, c with
  | .ok r, _ => some r.2.2
  | .error .kernelStore, .read fd (some b) nbytes line => readOver img s fd b nbytes line
  | .error _, _ => none

end

end LimeOS
