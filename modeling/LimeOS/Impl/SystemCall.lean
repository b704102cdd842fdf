import LimeOS.Impl.Terminal
import LimeOS.Impl.Filesystem

/-!
# `system_call.c`

A call returns its result with the next state, and `read` the caller's
buffer as well; a pointer is `none` for `NULL`. `execute` and `halt` hand the
processor over: `execute` either returns to its caller or starts a program
(`iret`), and `halt` resumes the parent at `execute_return` or starts a shell.
What the arrays on the kernel stack hold before they are written, and the
stack and base pointers, are arguments. A page fault on the way (`Fault.pageFault`)
has the state that the handler finds.
-/

namespace LimeOS

abbrev VIRTUAL_BLOCK_TOP : Nat := 0x08000000
abbrev VIRTUAL_BLOCK_BOTTOM : Nat := 0x08400000

/-- `user_vid_mem_addr`. -/
def userVidMemAddr : Nat → Nat
  | 0 => 0x06400000
  | 1 => 0x06400000 + 0x1000
  | _ => 0x06400000 + 2 * 0x1000

/-! ## Buffers -/

/-- Where a byte of a caller's buffer is. -/
inductive Region
  /-- In the program's page, or on a screen. -/
  | program
  /-- At this address of the kernel's own 4 MB. -/
  | kernel (a : Nat)
  /-- On a page that is not present. -/
  | absent
  deriving DecidableEq

/-- Where an address is for the kernel, which the pages of the programs do not stop. -/
def region (a : Nat) : Region :=
  if FOUR_MB ≤ a ∧ a < KERNEL_BOT_ADDR then .kernel a
  else if VIRTUAL_BLOCK_TOP ≤ a ∧ a < VIRTUAL_BLOCK_BOTTOM ∨
      VIDEO_MEMORY ≤ a ∧ a < VIDEO_MEMORY + 4 * FOUR_KB ∨
      userVidMemAddr 0 ≤ a ∧ a < userVidMemAddr 2 + FOUR_KB then .program
  else .absent

/-- The buffer behind a pointer that is not `NULL`: its bytes, and where each is. What a call stores in
the program's page is in its result. -/
structure Buffer where
  byte : Nat → Byte
  region : Nat → Region

namespace Buffer

/-- A buffer in the program's page, as long as the call needs it. -/
def own (byte : Nat → Byte) : Buffer := ⟨byte, fun _ => .program⟩

/-- The buffer at an address. -/
def ofAddr (addr : Nat) (byte : Nat → Byte) : Buffer := ⟨byte, fun i => LimeOS.region ((addr + i) % 2 ^ 32)⟩

/-- The bytes, not stored to yet. -/
def mem (b : Buffer) : Mem := .fresh b.byte

/-- The first of `n` bytes whose reading faults. -/
def fault (b : Buffer) (n : Nat) : Option Nat := (List.range n).find? fun i => b.region i = .absent

end Buffer

/-- A call has stored through its buffer, if no store was outside the program's page. The first one that is ends it;
a driver that stores has not been to the control block yet. -/
def storedThrough (s : State) (buf : Option Buffer) (r : Int × Option Mem × State) :
    Except Fault (Int × Option Mem × State) :=
  match buf, r.2.1 with
  | some b, some m =>
    match m.stored.reverse.find? fun i => b.region i ≠ .program with
    | none => .ok r
    | some i =>
      if b.region i = .absent then .error (.pageFault { r.2.2 with pcb := s.pcb }) else .error .kernelStore
  | _, _ => .ok r

section

variable (img : Image)

/-! ## Descriptors -/

/-- `setup_PCB`, `none` for a pid out of range. -/
def setupPCB (s : State) (newPid : Int) : Option State :=
  if newPid < 0 ∨ newPid > MAX_PID then none
  else
    let free : Nat → FdEntry := fun i => if i < MAX_FD_NUM then freeEntry else (s.pcb newPid).fdEntry i
    some (s.setPcb newPid { s.pcb newPid with
      fdEntry := Function.update
        (Function.update free STDIN { freeEntry with operationsPointer := stdinTable, flags := .IN_USE })
        STDOUT { freeEntry with operationsPointer := stdoutTable, flags := .IN_USE }
      processId := newPid
      parentId := s.currentPid
      parentEsp := 0
      parentEbp := 0
      returnValue := 0
      tty := s.terminalNum })

/-- A call through a `READ` slot. -/
def callRead (f : ReadFn) (s : State) (fd : Nat) (buf : Option Mem) (nbytes : Int) (line : Nat → Byte) :
    Except Fault (Int × Option Mem × State) :=
  match f with
  | .nullFunc => .ok (0, buf, s)
  | .terminalRead => terminalRead s buf line
  | .readRTC => .ok ((readRTC s).1, buf, (readRTC s).2)
  | .readFile => store s buf fun m => readFile img s fd m nbytes
  | .readDirectory => store s buf fun m => readDirectory img s fd m nbytes
where
  /-- These drivers store through the pointer they get: through `NULL` the first store faults. -/
  store (s : State) (buf : Option Mem) (f : Mem → Int × Mem × State) : Except Fault (Int × Option Mem × State) :=
    match buf with
    | some m => .ok ((f m).1, some (f m).2.1, (f m).2.2)
    | none =>
      let r := f (Mem.fresh fun _ => 0#8)
      if r.2.1.stored = [] then .ok (r.1, none, r.2.2) else .error (.pageFault s)

/-- `read`, with its stores by their place in the buffer: where they go is `readThrough`'s. -/
def sysRead (s : State) (fd : Int) (buf : Option Mem) (nbytes : Int) (line : Nat → Byte) :
    Except Fault (Int × Option Mem × State) :=
  if fd ≥ MAX_FD_NUM ∨ fd < 0 ∨ fd = 1 then .ok (-1, buf, s)
  else
    let e := s.curPcb.fdEntry fd.toNat
    if e.flags = .FREE then .ok (-1, buf, s)
    else
      match e.operationsPointer.READ with
      | none => .error .nullCall
      | some f => callRead img f s fd.toNat buf nbytes line

/-- `read` into the buffer at the caller's pointer, whose address nothing checks. -/
def readThrough (s : State) (fd : Int) (buf : Option Buffer) (nbytes : Int) (line : Nat → Byte) :
    Except Fault (Int × Option Mem × State) :=
  (sysRead img s fd (buf.map Buffer.mem) nbytes line).bind (storedThrough s buf)

/-- A call through a `WRITE` slot. -/
def callWrite (f : WriteFn) (s : State) (buf : Nat → Byte) (nbytes : Int) : Int × State :=
  match f with
  | .nullFunc => (0, s)
  | .terminalWrite => terminalWrite s buf nbytes
  | .writeRTC => writeRTC s buf nbytes
  | .writeFile => (-1, s)
  | .writeDirectory => (-1, s)

/-- How many bytes of its buffer a `WRITE` slot reads. -/
def writeLength (f : WriteFn) (nbytes : Int) : Nat :=
  match f with
  | .terminalWrite => nbytes.toNat
  | .writeRTC => if nbytes = NBYTE_DEFAULT_VAL then 4 else 0
  | _ => 0

/-- Where a `WRITE` slot is when byte `i` of its buffer faults. -/
def writeFault (f : WriteFn) (s : State) (buf : Nat → Byte) (i : Nat) : State :=
  match f with
  | .terminalWrite => terminalWriteFault s buf i
  | _ => s

/-- `write`: a fault of its driver leaves the caller's terminal in `terminal_num`. -/
def sysWrite (s : State) (fd : Int) (buf : Option Buffer) (nbytes : Int) : Except Fault (Int × State) :=
  match buf with
  | none => .ok (-1, s)
  | some buf =>
    if fd ≥ MAX_FD_NUM ∨ fd < 0 ∨ fd = 0 then .ok (-1, s)
    else
      let e := s.curPcb.fdEntry fd.toNat
      if e.flags = .FREE then .ok (-1, s)
      else
        let ttySave := s.terminalNum
        let s := { s with terminalNum := getTty s }
        match e.operationsPointer.WRITE with
        | none => .error .nullCall
        | some f =>
          match buf.fault (writeLength f nbytes) with
          | some i => .error (.pageFault (writeFault f s buf.byte i))
          | none =>
            let r := callWrite f s buf.byte nbytes
            let s := { r.2 with terminalNum := ttySave }
            .ok (r.1, updateCursor s (s.screenX s.terminalNum) (s.screenY s.terminalNum))

abbrev STDIN_LEN : Nat := 5
abbrev STDOUT_LEN : Nat := 6

/-- The jump table of a file type. -/
def typeTable (fileType : Int) : Option Operations :=
  if fileType = 0 then some rtcTable
  else if fileType = 1 then some directoryTable
  else if fileType = 2 then some fileTable
  else none

/-- A call through an `OPEN` slot. -/
def callOpen (f : OpenFn) (s : State) : Int × State :=
  match f with
  | .nullFunc => (0, s)
  | .openRTC => openRTC s
  | .openFile => (1, s)
  | .openDirectory => (0, s)

/-- The lowest free descriptor from 2 on. -/
def vacantFd (s : State) : Option Nat :=
  (List.range' 2 (MAX_FD_NUM - 2)).find? fun i => (s.curPcb.fdEntry i).flags = .FREE

/-- `open`. -/
def sysOpen (s : State) (filename : Option CString) : Except Fault (Int × State) :=
  match filename with
  | none => .ok (-1, s)
  | some filename =>
    let e := s.curPcb.fdEntry
    if strncmp (filename.1.getD · 0#8) ((str "stdin").getD · 0#8) STDIN_LEN = 0 then
      .ok (STDIN, s.setFd STDIN { e STDIN with operationsPointer := stdinTable, flags := .IN_USE })
    else if strncmp (filename.1.getD · 0#8) ((str "stdout").getD · 0#8) STDOUT_LEN = 0 then
      .ok (STDOUT, s.setFd STDOUT { e STDOUT with operationsPointer := stdoutTable, flags := .IN_USE })
    else
      match readDentryByName img filename with
      | none => .ok (-1, s)
      | some dentry =>
        match vacantFd s with
        | none => .ok (-1, s)
        | some i =>
          match typeTable dentry.fileType with
          | none => .ok (-1, s)
          | some table =>
            let s := s.setFd i ⟨table, dentry.inodeNumber, 0, .IN_USE⟩
            match table.OPEN with
            | none => .error .nullCall
            | some f =>
              let r := callOpen f s
              if r.1 < 0 then .ok (-1, r.2) else .ok (i, r.2)

/-- A call through a `CLOSE` slot: every driver returns 0. -/
def callClose (_f : CloseFn) : Int := 0

/-- `close`. -/
def sysClose (s : State) (fd : Int) : Except Fault (Int × State) :=
  if fd < 2 ∨ fd ≥ MAX_FD_NUM then .ok (-1, s)
  else
    let e := s.curPcb.fdEntry fd.toNat
    if e.flags = .FREE then .ok (-1, s)
    else
      match e.operationsPointer.CLOSE with
      | none => .error .nullCall
      | some f => if callClose f < 0 then .ok (-1, s) else .ok (0, s.setFd fd.toNat freeEntry)

/-- `getargs`: the result, the buffer and the state. -/
def getargs (s : State) (buf : Option Mem) (nbytes : Int) : Int × Option Mem × State :=
  match buf with
  | none => (-1, none, s)
  | some m =>
    let pcb := s.curPcb
    if (Mem.cstr pcb.args MAX_LENGTH_ARG).1.length = 0 then (-1, some m, s)
    else
      (0, some (strncpy m pcb.args (toU32 nbytes)),
        s.setPcb s.currentPid { pcb with args := Function.update pcb.args 0 0#8 })

end

/-- `getargs` into the buffer at the caller's pointer. -/
def getargsThrough (s : State) (buf : Option Buffer) (nbytes : Int) : Except Fault (Int × Option Mem × State) :=
  storedThrough s buf (getargs s (buf.map Buffer.mem) nbytes)

/-- `vidmap`: the address goes to the four bytes at `screenStart` of the caller's page. -/
def vidmap (s : State) (screenStart : Nat) : Except Fault (Int × State) :=
  if screenStart < VIRTUAL_BLOCK_TOP ∨ screenStart > VIRTUAL_BLOCK_BOTTOM then .ok (-1, s)
  else if screenStart + 4 > VIRTUAL_BLOCK_BOTTOM then .error (.pageFault s)
  else
    let destinationMem := userVidMemAddr s.terminalNum
    let page := s.frame s.currentPid
    .ok (0, { s with
      frame := Function.update s.frame s.currentPid fun a =>
        if screenStart ≤ a ∧ a < screenStart + 4 then
          BitVec.ofNat 8 (destinationMem / 2 ^ (8 * (a - screenStart)))
        else page a })

/-! ## `execute` -/

/-- What `execute`'s arrays hold before they are written, and its stack and base pointers. -/
structure ExecuteFrame where
  localArg : Nat → Byte
  fileName : Nat → Byte
  buffer : Nat → Byte
  entryPoint : Nat → Byte
  esp : Nat
  ebp : Nat

/-- The variables of `execute`'s parsing loop. -/
structure Parse where
  localArg : Mem
  fileName : Mem
  fileLength : Nat
  spaces : Nat
  i : Nat
  endOfFileName : Nat
  localArgStartFlag : Bool

/-- `i - (file_length + spaces)`, in 32 bits. -/
def Parse.argIndex (p : Parse) : Nat := toU32 (p.i - (p.fileLength + p.spaces))

/-- The body of the parsing loop. -/
def Parse.step (p : Parse) (c : Byte) : Parse :=
  if c ≠ 0x20#8 ∧ p.spaces = 0 then { p with fileName := p.fileName.store p.i c, i := p.i + 1 }
  else
    let p : Parse := { p with endOfFileName := p.endOfFileName + 1 }
    let p : Parse := if c = 0x20#8 ∧ p.localArgStartFlag = false then { p with spaces := p.spaces + 1 } else p
    let p : Parse :=
      if p.endOfFileName = 1 then
        { p with fileLength := p.i, fileName := p.fileName.store p.i 0#8, endOfFileName := p.endOfFileName + 1 }
      else p
    let p : Parse :=
      if c ≠ 0x20#8 ∨ p.localArgStartFlag = true then
        { p with localArgStartFlag := true, localArg := p.localArg.store p.argIndex c }
      else p
    { p with i := p.i + 1 }

/-- The parsing of the command, with the two terminators. -/
def Parse.command (k : ExecuteFrame) (command : CString) : Parse :=
  let p := command.1.foldl Parse.step ⟨Mem.fresh k.localArg, Mem.fresh k.fileName, 0, 0, 0, 0, false⟩
  let p := { p with localArg := p.localArg.store p.argIndex 0#8 }
  if p.spaces = 0 then { p with fileName := p.fileName.store p.i 0#8 } else p

/-- Whether the parsing stored past the end of one of its arrays. -/
def Parse.overruns (p : Parse) : Bool :=
  p.fileName.stored.any (· ≥ MAX_NAME_LENGTH) || p.localArg.stored.any (· ≥ MAX_LENGTH_ARG)

abbrev BUF_SIZE : Nat := 4
abbrev ENTRY_POINT_LOCATION : Nat := 24
abbrev LOAD_ADDR : Nat := 0x08048000

def magicNumber (i : Nat) : Byte := [0x7f#8, 0x45#8, 0x4c#8, 0x46#8].getD i 0#8

section

variable (img : Image)

/-- The inner loop of the loading: `c` bytes of the buffer to `addr` on. -/
def storeChunk (buffer : Nat → Byte) (addr : Nat) (c : Nat) (m : Mem) : Mem :=
  (List.range c).foldl (fun m j => m.store (addr + j) (buffer j)) m

/-- The loading loop from its `i`-th iteration. It stores to the new process's
4 MB page and faults at the page's end, so it has an end of its own: the error is the page by then. -/
def loadProgram (inode : Nat) (buffer : Mem) : Nat → Nat → Mem → Except Mem Mem
  | 0, _, m => .error m
  | n + 1, i, m =>
    let r := readData img inode (i * BUF_SIZE % 2 ^ 32) buffer BUF_SIZE
    let c := toU32 r.1
    if c > 0 then
      if LOAD_ADDR + i * BUF_SIZE + c > VIRTUAL_BLOCK_BOTTOM then .error m
      else loadProgram inode r.2 n (i + 1) (storeChunk r.2.byte (LOAD_ADDR + i * BUF_SIZE) c m)
    else .ok m

/-- One more than the number of words from `LOAD_ADDR` to the end of the page. -/
abbrev LOAD_STEPS : Nat := (VIRTUAL_BLOCK_BOTTOM - LOAD_ADDR) / BUF_SIZE + 2

/-- The lowest free pid. -/
def freePid (s : State) : Option Nat := (List.range MAX_PID).find? fun i => s.pidFlags i = .FREE

/-- What a call of `execute` comes to. -/
inductive ExecuteResult
  /-- It returns to its caller. -/
  | returns (value : Int) (s : State)
  /-- A new process runs, from `target`. -/
  | starts (s : State) (target : Nat)

/-- The part of `execute` after the checks: the process in slot `newPid` is set up and entered. -/
def startProcess (s : State) (k : ExecuteFrame) (p : Parse) (program : Dentry) (buffer : Mem) (newPid : Nat) :
    Except Fault ExecuteResult :=
  let inode := toU32 program.inodeNumber
  let s := { s with
    pidFlags := Function.update s.pidFlags newPid .IN_USE
    programPde := programFrame newPid }
  let entryPoint := (readData img inode ENTRY_POINT_LOCATION (Mem.fresh k.entryPoint) BUF_SIZE).2.byte
  match loadProgram img inode buffer LOAD_STEPS 0 (Mem.fresh (s.frame newPid)) with
  -- the pid is taken by then, and the page is in place
  | .error m => .error (.pageFault { s with frame := Function.update s.frame newPid m.byte })
  | .ok m =>
    match setupPCB { s with frame := Function.update s.frame newPid m.byte } newPid with
    | none => .error (.pageFault { s with frame := Function.update s.frame newPid m.byte, currentPid := newPid })
    | some s =>
      let new := s.pcb newPid
      let args :=
        if p.localArgStartFlag then
          (strcpy (Mem.fresh new.args) (Mem.cstr p.localArg.byte MAX_LENGTH_ARG)).byte
        else new.args
      let s := s.setPcb newPid { new with
        parentEsp := k.esp
        parentEbp := k.ebp
        parentEsp0 := s.tssEsp0
        args := args }
      .ok (.starts
        { s with
          currentPid := newPid
          tssEsp0 := kernelStackTop newPid
          executePid := Function.update s.executePid s.terminalNum newPid }
        ((entryPoint 0).toNat + 2 ^ 8 * (entryPoint 1).toNat + 2 ^ 16 * (entryPoint 2).toNat +
          2 ^ 24 * (entryPoint 3).toNat))

/-- The command the kernel itself executes. -/
def shellCommand : CString := ⟨str "shell", by decide⟩

/-- `execute`. -/
def execute (s : State) (command : Option CString) (k : ExecuteFrame) : Except Fault ExecuteResult :=
  match command with
  | none => .ok (.returns (-1) s)
  | some command =>
    let p := Parse.command k command
    if p.overruns then .error .overrun
    else
      match readDentryByName img (Mem.cstr p.fileName.byte MAX_NAME_LENGTH) with
      | none => .ok (.returns (-1) s)
      | some program =>
        let r := readData img (toU32 program.inodeNumber) 0 (Mem.fresh k.buffer) BUF_SIZE
        if r.1 = -1 then .ok (.returns (-1) s)
        else if strncmp r.2.byte magicNumber BUF_SIZE ≠ 0 then .ok (.returns (-1) s)
        else
          match freePid s with
          | none =>
            .ok (.returns 0
              (printfMessage s (str "Maximum number of processes reached. Please exit shell. \n")))
          | some newPid => startProcess img s k p program r.2 newPid

/-! ## `halt` -/

/-- What a call of `halt` comes to. -/
inductive HaltResult
  /-- The parent runs from `execute_return` with these pointers, and its `execute` returns the value. -/
  | resumes (value : Int) (esp ebp : Nat) (s : State)
  /-- A new shell runs. -/
  | starts (s : State) (target : Nat)

/-- `halt_256`'s loop over the descriptors. -/
def closeAll (s : State) : Except Fault State :=
  (List.range MAX_FD_NUM).foldlM (fun s (i : Nat) => (sysClose s i).map Prod.snd) s

/-- The part of `halt_256` that goes back to the parent of `halted`. -/
def resumeParent (s : State) (halted : Int) : HaltResult :=
  let parent := (s.pcb halted).parentId
  let s := { s with currentPid := parent }
  let s := { s with
    executePid := Function.update s.executePid (getTty s) parent
    programPde := programFrame parent
    tssEsp0 := (s.pcb halted).parentEsp0 }
  .resumes (toI32 s.curPcb.returnValue) (s.pcb halted).parentEsp (s.pcb halted).parentEbp s

/-- `halt_256`. -/
def halt256 (s : State) (status : Nat) (k : ExecuteFrame) : Except Fault HaltResult :=
  let halted := s.currentPid
  let parent := s.curPcb.parentId
  let s := s.setPcb parent { s.pcb parent with returnValue := status }
  match closeAll s with
  | .error f => .error f
  | .ok s =>
    let s := { s with pidFlags := Function.update s.pidFlags halted .FREE }
    if halted = (s.pcb halted).parentId then
      match execute img s (some shellCommand) k with
      | .error f => .error f
      | .ok (.starts s target) => .ok (.starts s target)
      | .ok (.returns _ s) => .ok (resumeParent s halted)
    else .ok (resumeParent s halted)

/-- `halt`. -/
def halt (s : State) (status : Byte) (k : ExecuteFrame) : Except Fault HaltResult := halt256 img s status.toNat k

/-- The message of an exception's handler. -/
def exceptionMessage : Fin 20 → String := fun v =>
  [" Divide Error!!!\n", "RESERVED!!!\n", "Nonmaskable Interrupt Exception!!!\n",
    "Breakpoint Exception!!!\n", "Overflow Exception!!!\n", "BOUND Range Exceeded Exception!!!\n",
    "Invalid Opcode Exception!!!\n", "Device Not Available Exception!!!\n",
    "Double Fault Exception!!!\n", "Coprocessor Segment Overrun Exception!!!\n",
    "Invalid TSS Exception!!!\n", "Segment Not Present!!!\n", "Stack-Segment Fault Exception!!!\n",
    "General Protection Exception!!!\n", "Page Fault Exception!!!\n", "Reserved!!!\n",
    "Floating Point Error Exception!!!\n", "Alignment Check Exception!!!\n",
    "Machine Check Exception!!!\n", "SIMD Floating Point Exception!!!\n"].getD v ""

/-- The number of a page fault. -/
abbrev PF : Fin 20 := 14

/-- The handler of exception `v`. -/
def exceptionHandler (s : State) (v : Fin 20) (k : ExecuteFrame) : Except Fault HaltResult :=
  halt256 img (printfMessage s (str (exceptionMessage v))) 256 k

end

end LimeOS
