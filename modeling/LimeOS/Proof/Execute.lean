import LimeOS.Proof.Parse
import LimeOS.Proof.ReadData
import LimeOS.Proof.Quiet

/-!
# What `execute` comes to

`execute` either returns to its caller with nothing but the screen changed, or
it starts a process in the lowest free pid and the next state is one record
(`started`, `execute_eq_ok`). It starts exactly the commands that name a program
(`Startable`) while a pid is free, but for a file that its page has no room for:
its loading faults with the pid taken (`loading`, `execute_eq_fault`). An image
with a shell (`HasShell`) always starts one (`execute_shell`).
-/

namespace LimeOS

/-! ## The lowest free pid -/

theorem freePid_eq_some {s : State} {n : Nat} (h : freePid s = some n) :
    n < MAX_PID ∧ s.pidFlags n = .FREE ∧ ∀ m < n, s.pidFlags (m : Nat) = .IN_USE := by
  obtain ⟨h₁, h₂, h₃⟩ := List.find?_range_eq_some.mp h
  refine ⟨List.mem_range.mp h₂, by simpa using h₁, fun m hm => ?_⟩
  have := h₃ m hm
  exact PidStatus.ne_FREE.mp (by simpa using this)

theorem freePid_eq_none {s : State} (h : freePid s = none) : ∀ m < MAX_PID, s.pidFlags (m : Nat) = .IN_USE := by
  intro m hm
  have := List.find?_range_eq_none.mp h m hm
  exact PidStatus.ne_FREE.mp (by simpa using this)

/-! ## The new process -/

/-- The descriptors `setup_PCB` gives a process. -/
def standardFds (old : Nat → FdEntry) : Nat → FdEntry :=
  Function.update
    (Function.update (fun i => if i < MAX_FD_NUM then freeEntry else old i) STDIN
      { freeEntry with operationsPointer := stdinTable, flags := .IN_USE })
    STDOUT { freeEntry with operationsPointer := stdoutTable, flags := .IN_USE }

/-- The arguments `execute` leaves in a control block. -/
def newArgs (p : Parse) (old : Nat → Byte) : Nat → Byte :=
  if p.localArgStartFlag then (strcpy (Mem.fresh old) (Mem.cstr p.localArg.byte MAX_LENGTH_ARG)).byte else old

/-- The control block of a process that is started in slot `newPid`. -/
def newPcb (s : State) (k : ExecuteFrame) (newPid : Nat) (args : Nat → Byte) : Pcb where
  fdEntry := standardFds (s.pcb newPid).fdEntry
  processId := newPid
  parentId := s.currentPid
  parentEsp := k.esp
  parentEbp := k.ebp
  parentEsp0 := s.tssEsp0
  returnValue := 0
  args := args
  schedEbp := (s.pcb newPid).schedEbp
  schedEsp := (s.pcb newPid).schedEsp
  schedEsp0 := (s.pcb newPid).schedEsp0
  tty := s.terminalNum

/-- The state in which a process runs that was started in slot `newPid`. -/
def started (s : State) (k : ExecuteFrame) (newPid : Nat) (page args : Nat → Byte) : State :=
  { s with
    pidFlags := Function.update s.pidFlags newPid .IN_USE
    programPde := programFrame newPid
    frame := Function.update s.frame newPid page
    pcb := Function.update s.pcb newPid (newPcb s k newPid args)
    currentPid := newPid
    tssEsp0 := kernelStackTop newPid
    executePid := Function.update s.executePid s.terminalNum newPid }

/-- The state that a page fault in the loading of slot `newPid` finds: the pid is taken, and its page is in place. -/
def loading (s : State) (newPid : Nat) (page : Nat → Byte) : State :=
  { s with
    pidFlags := Function.update s.pidFlags newPid .IN_USE
    programPde := programFrame newPid
    frame := Function.update s.frame newPid page }

section

variable {img : Image}

/-! ## The loading -/

theorem storeChunk_eq {f : Nat → Byte} {l : List Byte} (h : ∀ j (hj : j < l.length), f j = l[j]) (addr : Nat) (m : Mem) :
    storeChunk f addr l.length m = m.storeList addr l := by
  have hfold : ∀ n j (m : Mem), (List.range' j n).foldl (fun m j => m.store (addr + j) (f j)) m =
      m.storeList (addr + j) ((List.range' j n).map f) := by
    intro n
    induction n with
    | zero => exact fun _ _ => rfl
    | succ n ih =>
      intro j m
      rw [List.range'_succ, List.foldl_cons, ih, List.map_cons, Mem.storeList, Nat.add_assoc]
  have hmap : (List.range l.length).map f = l :=
    List.ext_getElem (by simp) fun j h₁ h₂ => by rw [List.getElem_map, List.getElem_range, h j h₂]
  rw [storeChunk, List.range_eq_range', hfold, ← List.range_eq_range', hmap, Nat.add_zero]

/-- One iteration of the loading. -/
theorem loadProgram_succ (inode : Nat) (buffer : Mem) (n : Nat) {i : Nat} (m : Mem) (hi : i * 4 < 2 ^ 32) :
    let k := min 4 (inodeLength img inode - i * 4)
    let buffer' := buffer.storeList 0 (fileSlice img inode (i * 4) k)
    loadProgram img inode buffer (n + 1) i m =
      if k > 0 then
        if LOAD_ADDR + i * 4 + k > VIRTUAL_BLOCK_BOTTOM then .error m
        else loadProgram img inode buffer' n (i + 1) (m.storeList (LOAD_ADDR + i * 4) (fileSlice img inode (i * 4) k))
      else .ok m := by
  intro k buffer'
  have hk : k ≤ 4 := Nat.min_le_left _ _
  have hchunk : storeChunk buffer'.byte (LOAD_ADDR + i * 4) k m =
      m.storeList (LOAD_ADDR + i * 4) (fileSlice img inode (i * 4) k) := by
    have := storeChunk_eq (f := buffer'.byte) (l := fileSlice img inode (i * 4) k) (fun j hj => by
      have hb := Mem.storeList_byte _ buffer 0 hj
      rwa [Nat.zero_add] at hb) (LOAD_ADDR + i * 4) m
    rwa [length_fileSlice] at this
  rw [loadProgram]
  simp only [BUF_SIZE]
  rw [Nat.mod_eq_of_lt hi, readData_eq, toI32_natCast (by omega), toU32_natCast (by omega)]
  simp only [← hchunk]
  rfl

/-- A file that fits the page is loaded, in as many steps as it has words. -/
theorem loadProgram_eq {inode : Nat} (hlen : inodeLength img inode ≤ VIRTUAL_BLOCK_BOTTOM - LOAD_ADDR) :
    ∀ (n i : Nat) (buffer m : Mem), 4 * i ≤ inodeLength img inode + 3 → inodeLength img inode + 4 ≤ 4 * (n + i) →
    loadProgram img inode buffer n i m =
      .ok (m.storeList (LOAD_ADDR + i * 4) (fileSlice img inode (i * 4) (inodeLength img inode - i * 4)))
  | 0, i, buffer, m, hi, hn => by omega
  | n + 1, i, buffer, m, hi, hn => by
    have hroom := hlen
    simp only [VIRTUAL_BLOCK_BOTTOM, LOAD_ADDR] at hroom
    rw [loadProgram_succ inode buffer n m (by omega)]
    split
    · rw [if_neg (by simp only [LOAD_ADDR, VIRTUAL_BLOCK_BOTTOM]; omega),
        loadProgram_eq hlen n (i + 1) _ _ (by omega) (by omega), Nat.succ_mul]
      by_cases h₄ : i * 4 + 4 ≤ inodeLength img inode
      · have happ := Mem.storeList_append (fileSlice img inode (i * 4) 4)
          (fileSlice img inode (i * 4 + 4) (inodeLength img inode - (i * 4 + 4))) m (LOAD_ADDR + i * 4)
        rw [length_fileSlice, fileSlice_append, Nat.add_assoc,
          show 4 + (inodeLength img inode - (i * 4 + 4)) = inodeLength img inode - i * 4 by omega] at happ
        rw [Nat.min_eq_left (by omega), happ]
      · rw [show inodeLength img inode - (i * 4 + 4) = 0 by omega, Nat.min_eq_right (by omega)]
        rfl
    · rw [show inodeLength img inode - i * 4 = 0 by omega]
      rfl

/-- A longer file is not: its loading stores past the page. -/
theorem loadProgram_fault {inode : Nat} (hlen : VIRTUAL_BLOCK_BOTTOM - LOAD_ADDR < inodeLength img inode) :
    ∀ (n i : Nat) (buffer m : Mem), i * 4 ≤ VIRTUAL_BLOCK_BOTTOM - LOAD_ADDR →
    ∃ m', loadProgram img inode buffer n i m = .error m'
  | 0, _, _, m, _ => ⟨m, rfl⟩
  | n + 1, i, buffer, m, hi => by
    have hroom := hlen
    simp only [VIRTUAL_BLOCK_BOTTOM, LOAD_ADDR] at hroom hi
    rw [loadProgram_succ inode buffer n m (by omega), if_pos (by omega)]
    split
    · exact ⟨m, rfl⟩
    · rename_i hle
      simp only [VIRTUAL_BLOCK_BOTTOM, LOAD_ADDR] at hle
      exact loadProgram_fault hlen n (i + 1) _ _ (by simp only [VIRTUAL_BLOCK_BOTTOM, LOAD_ADDR]; omega)

/-- The word `execute` reads as the entry point. -/
def entryTarget (img : Image) (k : ExecuteFrame) (inode : Nat) : Nat :=
  let entryPoint := (readData img inode ENTRY_POINT_LOCATION (Mem.fresh k.entryPoint) BUF_SIZE).2.byte
  (entryPoint 0).toNat + 2 ^ 8 * (entryPoint 1).toNat + 2 ^ 16 * (entryPoint 2).toNat + 2 ^ 24 * (entryPoint 3).toNat

theorem startProcess_eq {s : State} {k : ExecuteFrame} {p : Parse} {program : Dentry} {buffer : Mem}
    {newPid : Nat} (hn : newPid < MAX_PID) :
    startProcess img s k p program buffer newPid =
      match loadProgram img (toU32 program.inodeNumber) buffer LOAD_STEPS 0 (Mem.fresh (s.frame newPid)) with
      | .error m => .error (.pageFault (loading s newPid m.byte))
      | .ok m => .ok (.starts (started s k newPid m.byte (newArgs p (s.pcb newPid).args))
          (entryTarget img k (toU32 program.inodeNumber))) := by
  have hpid : ¬ ((newPid : Int) < 0 ∨ (newPid : Int) > MAX_PID) := by simp only [MAX_PID] at *; omega
  simp only [startProcess]
  generalize loadProgram img (toU32 program.inodeNumber) buffer LOAD_STEPS 0 (Mem.fresh (s.frame newPid)) = o
  cases o with
  | error m => rfl
  | ok m =>
    simp only [setupPCB, hpid, if_false, State.setPcb, Function.update_self, Function.update_idem]
    rfl

theorem startProcess_eq_ok {s : State} {k : ExecuteFrame} {p : Parse} {program : Dentry} {buffer : Mem}
    {newPid : Nat} {r : ExecuteResult} (hn : newPid < MAX_PID)
    (h : startProcess img s k p program buffer newPid = .ok r) :
    ∃ page target, r = .starts (started s k newPid page (newArgs p (s.pcb newPid).args)) target := by
  rw [startProcess_eq hn] at h
  split at h
  · cases h
  · cases h
    exact ⟨_, _, rfl⟩

/-- A program that fits its page is started. -/
theorem startProcess_ok {s : State} {k : ExecuteFrame} {p : Parse} {program : Dentry} {buffer : Mem} {newPid : Nat}
    (hn : newPid < MAX_PID)
    (hlen : inodeLength img (toU32 program.inodeNumber) ≤ VIRTUAL_BLOCK_BOTTOM - LOAD_ADDR) :
    startProcess img s k p program buffer newPid =
      .ok (.starts
        (started s k newPid
          ((Mem.fresh (s.frame newPid)).storeList LOAD_ADDR
            (fileSlice img (toU32 program.inodeNumber) 0 (inodeLength img (toU32 program.inodeNumber)))).byte
          (newArgs p (s.pcb newPid).args))
        (entryTarget img k (toU32 program.inodeNumber))) := by
  rw [startProcess_eq hn, loadProgram_eq hlen LOAD_STEPS 0 _ _ (by omega)
    (by simp only [LOAD_STEPS, VIRTUAL_BLOCK_BOTTOM, LOAD_ADDR, BUF_SIZE] at *; omega)]
  simp only [Nat.zero_mul, Nat.add_zero, Nat.sub_zero]

/-- One that does not is not. -/
theorem startProcess_fault (s : State) (k : ExecuteFrame) (p : Parse) {program : Dentry} (buffer : Mem) {newPid : Nat}
    (hn : newPid < MAX_PID)
    (hlen : VIRTUAL_BLOCK_BOTTOM - LOAD_ADDR < inodeLength img (toU32 program.inodeNumber)) :
    ∃ page, startProcess img s k p program buffer newPid = .error (.pageFault (loading s newPid page)) := by
  obtain ⟨m, hm⟩ := loadProgram_fault hlen LOAD_STEPS 0 buffer (Mem.fresh (s.frame newPid)) (by omega)
  exact ⟨m.byte, by rw [startProcess_eq hn, hm]⟩

/-- A command that names a program: its parsing stays inside its arrays, the
name is in the directory and the file starts with the magic number. -/
def Startable (img : Image) (command : Option CString) (k : ExecuteFrame) : Prop :=
  ∃ c program, command = some c ∧ (Parse.command k c).overruns = false ∧
    readDentryByName img (Mem.cstr (Parse.command k c).fileName.byte MAX_NAME_LENGTH) = some program ∧
    (readData img (toU32 program.inodeNumber) 0 (Mem.fresh k.buffer) BUF_SIZE).1 ≠ -1 ∧
    strncmp (readData img (toU32 program.inodeNumber) 0 (Mem.fresh k.buffer) BUF_SIZE).2.byte magicNumber BUF_SIZE = 0

/-- The program a command names passes the checks, if a process can be started. -/
theorem Startable.program {c : CString} {k : ExecuteFrame} (h : Startable img (some c) k) {program : Dentry}
    (hd : readDentryByName img (Mem.cstr (Parse.command k c).fileName.byte MAX_NAME_LENGTH) = some program) :
    (readData img (toU32 program.inodeNumber) 0 (Mem.fresh k.buffer) BUF_SIZE).1 ≠ -1 ∧
      strncmp (readData img (toU32 program.inodeNumber) 0 (Mem.fresh k.buffer) BUF_SIZE).2.byte magicNumber
        BUF_SIZE = 0 := by
  obtain ⟨c', program', hc, -, hd', h₁, h₂⟩ := h
  cases hc
  rw [hd] at hd'
  cases hd'
  exact ⟨h₁, h₂⟩

/-- What `execute` comes to: it returns, its parsing leaves its arrays, or it goes on with the lowest free pid. -/
theorem execute_cases (img : Image) (s : State) (command : Option CString) (k : ExecuteFrame) :
    (∃ v s', execute img s command k = .ok (.returns v s') ∧ ScreenFrame s s' ∧
      ¬ (Startable img command k ∧ (freePid s).isSome)) ∨
    (execute img s command k = .error .overrun ∧ ¬ Startable img command k) ∨
    ∃ c program n, command = some c ∧ Startable img command k ∧ (Parse.command k c).overruns = false ∧
      readDentryByName img (Mem.cstr (Parse.command k c).fileName.byte MAX_NAME_LENGTH) = some program ∧
      freePid s = some n ∧ execute img s command k = startProcess img s k (Parse.command k c) program
        (readData img (toU32 program.inodeNumber) 0 (Mem.fresh k.buffer) BUF_SIZE).2 n := by
  cases command with
  | none =>
    refine .inl ⟨-1, s, rfl, .refl s, ?_⟩
    rintro ⟨⟨c, -, hc, -⟩, -⟩
    cases hc
  | some c =>
    simp only [execute]
    by_cases ho : (Parse.command k c).overruns = true
    · rw [if_pos ho]
      refine .inr (.inl ⟨rfl, ?_⟩)
      rintro ⟨c', program, hc, ho', -⟩
      cases hc
      rw [ho] at ho'
      cases ho'
    rw [if_neg ho]
    rw [Bool.not_eq_true] at ho
    cases hd : readDentryByName img (Mem.cstr (Parse.command k c).fileName.byte MAX_NAME_LENGTH) with
    | none =>
      refine .inl ⟨-1, s, rfl, .refl s, ?_⟩
      rintro ⟨⟨c', program, hc, -, hd', -⟩, -⟩
      cases hc
      rw [hd] at hd'
      cases hd'
    | some program =>
      simp only
      by_cases h₁ : (readData img (toU32 program.inodeNumber) 0 (Mem.fresh k.buffer) BUF_SIZE).1 = -1
      · rw [if_pos h₁]
        exact .inl ⟨-1, s, rfl, .refl s, fun hst => (hst.1.program hd).1 h₁⟩
      rw [if_neg h₁]
      by_cases h₂ : strncmp (readData img (toU32 program.inodeNumber) 0 (Mem.fresh k.buffer) BUF_SIZE).2.byte
          magicNumber BUF_SIZE ≠ 0
      · rw [if_pos h₂]
        exact .inl ⟨-1, s, rfl, .refl s, fun hst => h₂ (hst.1.program hd).2⟩
      rw [if_neg h₂]
      rw [not_not] at h₂
      cases hf : freePid s with
      | none =>
        refine .inl ⟨0, _, rfl, printfMessage_frame s _, ?_⟩
        rintro ⟨-, h⟩
        cases h
      | some n => exact .inr (.inr ⟨c, program, n, rfl, ⟨c, program, rfl, ho, hd, h₁, h₂⟩, ho, hd, rfl, rfl⟩)

/-- What `execute` comes to, by whether it starts a process. -/
theorem execute_eq_ok {s : State} {command : Option CString} {k : ExecuteFrame} {r : ExecuteResult}
    (h : execute img s command k = .ok r) :
    (∃ v s', r = .returns v s' ∧ ScreenFrame s s' ∧ ¬ (Startable img command k ∧ (freePid s).isSome)) ∨
    ∃ c newPid page target, command = some c ∧ Startable img command k ∧
      (Parse.command k c).overruns = false ∧ freePid s = some newPid ∧
      r = .starts (started s k newPid page (newArgs (Parse.command k c) (s.pcb newPid).args)) target := by
  rcases execute_cases img s command k with ⟨v, s', hx, hf, hns⟩ | ⟨hx, -⟩ | ⟨c, program, n, hc, hst, ho, -, hn, hx⟩
  · rw [h] at hx
    exact .inl ⟨v, s', Except.ok.inj hx, hf, hns⟩
  · rw [h] at hx
    cases hx
  · rw [h] at hx
    obtain ⟨page, target, hr⟩ := startProcess_eq_ok (freePid_eq_some hn).1 hx.symm
    exact .inr ⟨c, n, page, target, hc, hst, ho, hn, hr⟩

/-- The file that a command names is longer than its page has room for. -/
def TooLong (img : Image) (command : Option CString) (k : ExecuteFrame) : Prop :=
  ∃ c program, command = some c ∧
    readDentryByName img (Mem.cstr (Parse.command k c).fileName.byte MAX_NAME_LENGTH) = some program ∧
    VIRTUAL_BLOCK_BOTTOM - LOAD_ADDR < inodeLength img (toU32 program.inodeNumber)

/-- An `execute` that faults has a file to load that is too long, and has taken a pid for it. -/
theorem execute_eq_fault {s s₁ : State} {command : Option CString} {k : ExecuteFrame}
    (h : execute img s command k = .error (.pageFault s₁)) :
    Startable img command k ∧ TooLong img command k ∧ ∃ n page, freePid s = some n ∧ s₁ = loading s n page := by
  rcases execute_cases img s command k with ⟨v, s', hx, -⟩ | ⟨hx, -⟩ | ⟨c, program, n, hc, hst, -, hd, hn, hx⟩
  · rw [h] at hx
    cases hx
  · rw [h] at hx
    cases hx
  · have hn₆ := (freePid_eq_some hn).1
    rw [h] at hx
    by_cases hlen : inodeLength img (toU32 program.inodeNumber) ≤ VIRTUAL_BLOCK_BOTTOM - LOAD_ADDR
    · rw [startProcess_ok hn₆ hlen] at hx
      cases hx
    · rw [Nat.not_le] at hlen
      obtain ⟨page, hp⟩ := startProcess_fault s k (Parse.command k c)
        (readData img (toU32 program.inodeNumber) 0 (Mem.fresh k.buffer) BUF_SIZE).2 hn₆ hlen
      rw [hp] at hx
      cases hx
      exact ⟨hst, ⟨c, program, hc, hd, hlen⟩, n, page, hn, rfl⟩

/-- So does every command that names such a file, while a pid is free. -/
theorem execute_fault {s : State} {command : Option CString} {k : ExecuteFrame} (hst : Startable img command k)
    (hlong : TooLong img command k) {n : Nat} (hn : freePid s = some n) :
    ∃ page, execute img s command k = .error (.pageFault (loading s n page)) := by
  rcases execute_cases img s command k with ⟨v, s', -, -, hns⟩ | ⟨-, hns⟩ | ⟨c, program, n', hc, -, -, hd, hn', hx⟩
  · exact absurd ⟨hst, by rw [hn]; rfl⟩ hns
  · exact absurd hst hns
  · obtain ⟨c', program', hc', hd', hlen⟩ := hlong
    cases hc
    cases hc'
    rw [hd] at hd'
    cases hd'
    rw [hn] at hn'
    cases hn'
    obtain ⟨page, hp⟩ := startProcess_fault s k (Parse.command k c) _ (freePid_eq_some hn).1 hlen
    exact ⟨page, by rw [hx, hp]⟩

/-! ## A shell -/

/-- The image has an executable named `shell` that fits its page. -/
def HasShell (img : Image) : Prop :=
  ∃ program, readDentryByName img shellCommand = some program ∧
    4 ≤ inodeLength img (toU32 program.inodeNumber) ∧
    inodeLength img (toU32 program.inodeNumber) ≤ VIRTUAL_BLOCK_BOTTOM - LOAD_ADDR ∧
    fileSlice img (toU32 program.inodeNumber) 0 4 = [0x7f#8, 0x45#8, 0x4c#8, 0x46#8]

theorem shellCommand_name : commandName shellCommand.1 = shellCommand.1 := by decide +kernel

theorem shellCommand_args : commandArgs shellCommand.1 = [] := by decide +kernel

theorem shellCommand_overruns (k : ExecuteFrame) : (Parse.command k shellCommand).overruns = false := by
  refine Parse.overruns_eq_false k ?_ ?_
  · rw [shellCommand_name]
    decide +kernel
  · rw [shellCommand_args]
    decide

/-- The name that the kernel looks its own command up by. -/
theorem shellCommand_fileName (k : ExecuteFrame) :
    Mem.cstr (Parse.command k shellCommand).fileName.byte MAX_NAME_LENGTH = shellCommand :=
  Subtype.ext ((Parse.command_fileName (shellCommand_overruns k)).trans shellCommand_name)

theorem shellCommand_startable (h : HasShell img) (k : ExecuteFrame) : Startable img (some shellCommand) k := by
  obtain ⟨program, hd, h₄, -, hb⟩ := h
  have hk : min BUF_SIZE (inodeLength img (toU32 program.inodeNumber) - 0) = 4 := by simp only [BUF_SIZE]; omega
  refine ⟨shellCommand, program, rfl, shellCommand_overruns k, by rw [shellCommand_fileName, hd], ?_, ?_⟩
  · rw [readData_eq, hk, toI32_natCast (by decide)]
    simp
  · rw [readData_eq, hk, hb]
    simp [strncmp, strncmpFrom, Mem.storeList, Mem.store_byte, magicNumber]

/-- With a pid free, the kernel's own `execute` starts a shell in it, which leaves the arguments there. -/
theorem execute_shell (h : HasShell img) (s : State) (k : ExecuteFrame) {n : Nat} (hf : freePid s = some n) :
    ∃ page target, execute img s (some shellCommand) k =
      .ok (.starts (started s k n page (s.pcb n).args) target) := by
  have ho := shellCommand_overruns k
  have hr : ∃ r, execute img s (some shellCommand) k = .ok r := by
    rcases execute_cases img s (some shellCommand) k with ⟨v, s', hx, -⟩ | ⟨-, hns⟩ | ⟨c, program, n, hc, -, -, hd, hn, hx⟩
    · exact ⟨_, hx⟩
    · exact absurd (shellCommand_startable h k) hns
    · cases hc
      obtain ⟨program', hd', -, hlen, -⟩ := h
      rw [shellCommand_fileName, hd'] at hd
      cases hd
      exact ⟨_, hx.trans (startProcess_ok (freePid_eq_some hn).1 hlen)⟩
  obtain ⟨r, hr⟩ := hr
  rcases execute_eq_ok hr with ⟨v, s', -, -, hs⟩ | ⟨c, n', page, target, hc, -, -, hf', rfl⟩
  · exact absurd ⟨shellCommand_startable h k, by rw [hf]; rfl⟩ hs
  · cases hc
    rw [hf] at hf'
    cases hf'
    rw [newArgs, Parse.command_no_localArg ho shellCommand_args] at hr
    exact ⟨page, target, hr⟩

/-- No fault comes of it. -/
theorem execute_shell_ne_fault (h : HasShell img) (s s₁ : State) (k : ExecuteFrame) :
    execute img s (some shellCommand) k ≠ .error (.pageFault s₁) := by
  intro hx
  obtain ⟨-, -, n, page, hn, -⟩ := execute_eq_fault hx
  obtain ⟨page', target, hx'⟩ := execute_shell h s k hn
  rw [hx] at hx'
  cases hx'

end

/-- An image with one file, an executable `shell` of 28 bytes. -/
def shellImage : Image := fun a =>
  if a = 0 ∨ a = 4 ∨ a = 8 then 1#8
  else if 64 ≤ a ∧ a < 69 then shellCommand.1.getD (a - 64) 0#8
  else if a = 96 then 2#8
  else if a = 4096 then 28#8
  else if 8192 ≤ a ∧ a < 8196 then magicNumber (a - 8192)
  else 0#8

theorem shellImage_hasShell : HasShell shellImage :=
  ⟨dentryAt shellImage 0, by decide +kernel, by decide +kernel, by decide +kernel, by decide +kernel⟩

/-- What the arrays and pointers may be on an empty stack. -/
def emptyFrame : ExecuteFrame := ⟨fun _ => 0#8, fun _ => 0#8, fun _ => 0#8, fun _ => 0#8, 0, 0⟩

end LimeOS
