import LimeOS.Framework.Mem

/-!
# The kernel's state

The globals of the kernel, the process control blocks and what the kernel
keeps in the processor and on devices, one record. A process control block
lies at a fixed address for each pid, `8 KB` apart, so the blocks are a
function of the pid. The image of the file system is not part of the state:
nothing writes it.
-/

namespace LimeOS

/-! ## Machine words -/

/-- An `int32_t` as a `uint32_t`. -/
def toU32 (x : Int) : Nat := (x % 2 ^ 32).toNat

/-- The low word of `x` as an `int32_t`. -/
def toI32 (x : Int) : Int := if toU32 x < 2 ^ 31 then toU32 x else toU32 x - 2 ^ 32

/-- A byte as an `int8_t` (`char` is signed). -/
def toI8 (b : Byte) : Int := b.toInt

/-- The bytes of characters of the source. -/
def bytes (l : List Char) : List Byte := l.map fun c => BitVec.ofNat 8 c.toNat

/-- The bytes of a string of the source. -/
def str (s : String) : List Byte := bytes s.toList

/-! ## Constants -/

abbrev KERNEL_BOT_ADDR : Nat := 0x800000
abbrev FOUR_MB : Nat := 0x400000
abbrev EIGHT_KB : Nat := 0x2000
abbrev FOUR_KB : Nat := 4096
abbrev MAX_FD_NUM : Nat := 8
abbrev MAX_LENGTH_ARG : Nat := 128
abbrev MAX_NAME_LENGTH : Nat := 32
abbrev MAX_PID : Nat := 6
abbrev PROGRAM_PROPERTIES : Nat := 0x97
abbrev TERMINAL_COUNT : Nat := 3
abbrev CHARACTER_BUFFER_SIZE : Nat := 128
abbrev NUM_COLS : Int := 80
abbrev NUM_ROWS : Int := 25
abbrev ATTRIB : Byte := 0x7
abbrev VIDEO_MEMORY : Nat := 0xB8000
abbrev USER_VID_MEM_ENTRY : Nat := 0xB8007
abbrev USER_VID_INDEX : Nat := 25

/-- `SCREEN_COLOR`. -/
def screenColor : Nat → Byte
  | 0 => 0x9
  | 1 => 0xA
  | _ => 0xC

/-- `backup_mem_addr`. -/
def backupMemAddr : Nat → Nat
  | 0 => 0xB9000
  | 1 => 0xBA000
  | _ => 0xBB000

/-- `VID_MEM_BACKUP`. -/
def vidMemBackup : Nat → Nat
  | 0 => 0xB9007
  | 1 => 0xBA007
  | _ => 0xBB007

/-! ## Descriptors -/

/-- `enum pidStatus`, of a pid and of a descriptor. -/
inductive PidStatus
  | FREE
  | IN_USE
  deriving DecidableEq

/-- What an `OPEN` slot of a jump table points to. -/
inductive OpenFn
  | nullFunc
  | openRTC
  | openFile
  | openDirectory
  deriving DecidableEq

/-- What a `READ` slot points to. -/
inductive ReadFn
  | nullFunc
  | terminalRead
  | readRTC
  | readFile
  | readDirectory
  deriving DecidableEq

/-- What a `WRITE` slot points to. -/
inductive WriteFn
  | nullFunc
  | terminalWrite
  | writeRTC
  | writeFile
  | writeDirectory
  deriving DecidableEq

/-- What a `CLOSE` slot points to. -/
inductive CloseFn
  | nullFunc
  | closeRTC
  | closeFile
  | closeDirectory
  deriving DecidableEq

/-- `operations_pointer`: its four slots, `none` where one is `NULL`. -/
structure Operations where
  OPEN : Option OpenFn
  READ : Option ReadFn
  WRITE : Option WriteFn
  CLOSE : Option CloseFn
  deriving DecidableEq

def nullTable : Operations := ⟨none, none, none, none⟩
def stdinTable : Operations := ⟨some .nullFunc, some .terminalRead, some .nullFunc, some .nullFunc⟩
def stdoutTable : Operations := ⟨some .nullFunc, some .nullFunc, some .terminalWrite, some .nullFunc⟩
def rtcTable : Operations := ⟨some .openRTC, some .readRTC, some .writeRTC, some .closeRTC⟩
def fileTable : Operations := ⟨some .openFile, some .readFile, some .writeFile, some .closeFile⟩
def directoryTable : Operations :=
  ⟨some .openDirectory, some .readDirectory, some .writeDirectory, some .closeDirectory⟩

/-- `fd_entry_t`. -/
structure FdEntry where
  operationsPointer : Operations
  inodeIndex : Int
  filePosition : Int
  flags : PidStatus
  deriving DecidableEq

/-- A free descriptor, as `setup_PCB` and `close` leave it. -/
def freeEntry : FdEntry := ⟨nullTable, -1, -1, .FREE⟩

abbrev STDIN : Nat := 0
abbrev STDOUT : Nat := 1

/-! ## Processes -/

/-- `pcb_t`. -/
structure Pcb where
  fdEntry : Nat → FdEntry
  processId : Int
  parentId : Int
  parentEsp : Nat
  parentEbp : Nat
  parentEsp0 : Int
  returnValue : Nat
  args : Nat → Byte
  schedEbp : Nat
  schedEsp : Nat
  schedEsp0 : Int
  tty : Nat

structure State where
  -- lib.c
  terminalNum : Nat
  currentPid : Int
  executePid : Nat → Int
  screenX : Nat → Int
  screenY : Nat → Int
  videoMem : Nat → Nat
  /-- The video page and its backups, by address. -/
  mem : Mem
  /-- The position in the VGA's cursor registers. -/
  cursor : Int
  -- system_call.c
  pidFlags : Int → PidStatus
  pcb : Int → Pcb
  -- paging.c: `PDT.entries[PROGRAM_PDT_INDEX]` and `PT1.entries`
  programPde : Nat
  pt1 : Nat → Nat
  /-- The bytes of each pid's 4 MB frame, by their virtual address. -/
  frame : Int → Nat → Byte
  tssEsp0 : Int
  -- terminal.c
  tEnterFlag : Nat → Bool
  commandBuf : Nat → Mem
  -- keyboard.c
  shiftFlag : Bool
  ctrlFlag : Bool
  capslockFlag : Bool
  releaseCaps : Bool
  enterFlag : Bool
  altFlag : Bool
  isAdd : Bool
  bufIndex : Nat → Int
  charBuf : Mem
  -- rtc.c: the flags and the low bits of the chip's register A
  rtcInterruptOccured : Nat → Bool
  rtcRegA : Byte
  -- sched.c
  terminalsInitialized : Bool
  pitTerminalNum : Nat

/-- Replacing the control block of one pid. -/
def State.setPcb (s : State) (p : Int) (b : Pcb) : State := { s with pcb := Function.update s.pcb p b }

/-- The current process's control block. -/
def State.curPcb (s : State) : Pcb := s.pcb s.currentPid

/-- Replacing one descriptor of the current process. -/
def State.setFd (s : State) (fd : Nat) (e : FdEntry) : State :=
  s.setPcb s.currentPid { s.curPcb with fdEntry := Function.update s.curPcb.fdEntry fd e }

/-- The program's page-directory entry for a pid: its 4 MB frame. -/
def programFrame (pid : Int) : Nat := (KERNEL_BOT_ADDR + FOUR_MB * pid).toNat ||| PROGRAM_PROPERTIES

/-- The top of a pid's kernel stack. -/
def kernelStackTop (pid : Int) : Int := (KERNEL_BOT_ADDR - pid * EIGHT_KB) - 1

/-- The state in which interrupts are first enabled: the globals as the source
and `init_paging` initialise them, in memory that is zero. -/
def boot : State where
  terminalNum := 0
  currentPid := 0
  executePid := fun _ => -1
  screenX := fun _ => 0
  screenY := fun _ => 0
  videoMem := fun t => if t = 0 then VIDEO_MEMORY else backupMemAddr t
  mem := .fresh fun _ => 0#8
  cursor := 0
  pidFlags := fun _ => .FREE
  pcb := fun _ => ⟨fun _ => freeEntry, 0, 0, 0, 0, 0, 0, fun _ => 0#8, 0, 0, 0, 0⟩
  programPde := 0
  pt1 := fun t => if t = 0 then USER_VID_MEM_ENTRY else if t < 3 then vidMemBackup t else 0
  frame := fun _ _ => 0#8
  tssEsp0 := 0x800000
  tEnterFlag := fun _ => false
  commandBuf := fun _ => .fresh fun _ => 0#8
  shiftFlag := false
  ctrlFlag := false
  capslockFlag := false
  releaseCaps := true
  enterFlag := false
  altFlag := false
  isAdd := false
  bufIndex := fun _ => -1
  charBuf := .fresh fun _ => 0#8
  rtcInterruptOccured := fun _ => true
  rtcRegA := 0x26
  terminalsInitialized := false
  pitTerminalNum := 0

/-- How a call into the kernel can end before it returns. -/
inductive Fault
  /-- A call through a `NULL` pointer. -/
  | nullCall
  /-- A store past the end of a local array. -/
  | overrun
  /-- A store over the kernel's own memory. -/
  | kernelStore
  /-- An access to a page that is not present, in the state `s`. -/
  | pageFault (s : State)

end LimeOS
