import LimeOS.Framework.PageTables
import LimeOS.Impl.Sched

/-!
# `paging.c`, and the stores of a program

`init_paging` fills the page directory and the two page tables. After it the
kernel changes one entry of the directory, the program's, and the entries of
`PT1`, which the state has. A program's store goes where the tables send it: to
its own frame, or to a video page. The addresses at which the tables lie are the
linker's.
-/

namespace LimeOS

abbrev PAGE_SIZE : Nat := 1024
abbrev VID_MEM_INDEX : Nat := 184
abbrev KERNEL_ENTRY : Nat := 0x400083
abbrev VID_MEM_ENTRY : Nat := 0xB8117
abbrev T_ZERO_MASK : Nat := 0x17
abbrev UVM_MASK : Nat := 0x7
abbrev PROGRAM_PDT_INDEX : Nat := 32

/-- `KERNEL_VID_MEM_BACKUP`. -/
def kernelVidMemBackup : Nat → Nat
  | 0 => 0xB9003
  | 1 => 0xBA003
  | _ => 0xBB003

/-- `PDT`, `PT0` and `PT1`. -/
structure Paging where
  pdt : Nat → Nat
  pt0 : Nat → Nat
  pt1 : Nat → Nat

/-- Where the linker puts the tables: pages of their own in the kernel's 4 MB. -/
structure TableAddrs where
  pt0 : Nat
  pt1 : Nat
  aligned : pt0 % FOUR_KB = 0 ∧ pt1 % FOUR_KB = 0
  kernel : (FOUR_MB ≤ pt0 ∧ pt0 < KERNEL_BOT_ADDR) ∧ FOUR_MB ≤ pt1 ∧ pt1 < KERNEL_BOT_ADDR
  apart : pt0 ≠ pt1

/-- The body of `init_paging`'s first loop. -/
def Paging.zero (p : Paging) (i : Nat) : Paging where
  pdt := Function.update p.pdt i 0
  pt0 := Function.update p.pt0 i 0
  pt1 := Function.update p.pt1 i 0

/-- The body of its second loop. -/
def Paging.video (p : Paging) (i : Nat) : Paging :=
  { p with
    pt0 := Function.update p.pt0 (VID_MEM_INDEX + i) (kernelVidMemBackup (i - 1))
    pt1 := Function.update p.pt1 (i - 1) (if i = 1 then USER_VID_MEM_ENTRY else vidMemBackup (i - 1)) }

/-- `init_paging`, in tables with any content. -/
def initPaging (addrs : TableAddrs) (p : Paging) : Paging :=
  let p := (List.range PAGE_SIZE).foldl Paging.zero p
  let p := { p with pdt := Function.update p.pdt 1 KERNEL_ENTRY }
  let p := { p with pdt := Function.update p.pdt 0 (addrs.pt0 ||| T_ZERO_MASK) }
  let p := { p with pdt := Function.update p.pdt USER_VID_INDEX (addrs.pt1 ||| UVM_MASK) }
  let p := { p with pt0 := Function.update p.pt0 VID_MEM_INDEX VID_MEM_ENTRY }
  (List.range' 1 3).foldl Paging.video p

/-- The tables in a state: those that `init_paging` has filled, with what the state has of them. -/
def State.paging (s : State) (addrs : TableAddrs) (p : Paging) : Paging :=
  let p := initPaging addrs p
  { p with pdt := Function.update p.pdt PROGRAM_PDT_INDEX s.programPde, pt1 := s.pt1 }

/-- The tables as the processor finds them, in physical memory with the words `word` elsewhere. -/
def Paging.tables (p : Paging) (addrs : TableAddrs) (word : Nat → Nat → Nat) : PageTables where
  directory := p.pdt
  word a := if a = addrs.pt0 then p.pt0 else if a = addrs.pt1 then p.pt1 else word a

/-! ## Stores of a program -/

/-- What physical memory holds at an address, of what the state has. -/
inductive Place
  /-- A byte of the video page or of a backup. -/
  | video (a : Nat)
  /-- The byte of a pid's frame with the virtual address `a`. -/
  | program (pid : Nat) (a : Nat)
  deriving DecidableEq

/-- The place of a physical address; none where the kernel itself is, or nothing. -/
def place (pa : Nat) : Option Place :=
  if VIDEO_MEMORY ≤ pa ∧ pa < VIDEO_MEMORY + 4 * FOUR_KB then some (.video pa)
  else if KERNEL_BOT_ADDR ≤ pa ∧ pa < KERNEL_BOT_ADDR + MAX_PID * FOUR_MB then
    some (.program ((pa - KERNEL_BOT_ADDR) / FOUR_MB) (VIRTUAL_BLOCK_TOP + (pa - KERNEL_BOT_ADDR) % FOUR_MB))
  else none

def State.setPlace (s : State) (b : Byte) : Place → State
  | .video a => { s with mem := s.mem.store a b }
  | .program pid a =>
    { s with frame := Function.update s.frame pid (Function.update (s.frame pid) a b) }

section

variable (img : Image) (addrs : TableAddrs) (p : Paging) (word : Nat → Nat → Nat)

/-- Where an access of a program goes; none for a page fault. -/
def userAccess (s : State) (write : Bool) (a : Nat) : Option Nat :=
  ((s.paging addrs p).tables addrs word).walk true write a

/-- Where an access of the kernel goes, while the current program's page is in place. -/
def kernelAccess (s : State) (write : Bool) (a : Nat) : Option Nat :=
  ((s.paging addrs p).tables addrs word).walk false write a

/-- A store of the current program; none for a page fault, and where it is not to a place of the state. -/
def userStore (s : State) (a : Nat) (b : Byte) : Option State :=
  ((userAccess addrs p word s true a).bind place).map (s.setPlace b)

inductive MachineStep
  /-- A step of the kernel. -/
  | kernel (e : Step)
  /-- A store of the current program. -/
  | store (a : BitVec 32) (b : Byte)

/-- The kernel and the stores of its programs. -/
def machineStep (s : State) : MachineStep → Option State
  | .kernel e => step img s e
  | .store a b => userStore addrs p word s a.toNat b

end

end LimeOS
