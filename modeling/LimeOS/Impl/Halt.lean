import LimeOS.Impl.Sched

/-!
# `halt_256` statement by statement

The system-call gate is a trap gate, and the handlers of the exceptions call
`sti`, so interrupts are on while `halt_256` runs, up to the `cli` of its
`execute`. A tick there saves where the process is (`Context`) in its control
block and another process runs. A saved context is good for one resumption, and
for none once another process has been started in its slot, whose stack lies
over it.
-/

namespace LimeOS

/-- The next statement of `halt_256`. -/
inductive HaltPc
  /-- `pcb_parent->return_value = status`. -/
  | status (value : Nat)
  /-- The loop over the descriptors, at `close(i)`. -/
  | close (i : Nat)
  /-- `pid_flags[current_pid] = 0`. -/
  | free
  /-- The test for a root shell. -/
  | test
  /-- `execute((uint8_t*)"shell")`. -/
  | shell
  /-- `current_pid = pcb_halt->parent_id`. -/
  | current
  /-- `execute_pid[get_tty()] = current_pid`. -/
  | executePid
  /-- The page directory's entry. -/
  | paging
  /-- `tss.esp0 = pcb_halt->parent_esp0`. -/
  | tss
  /-- The jump to `execute_return`. -/
  | jump
  deriving DecidableEq

/-- Where a process is: in its program, or in `halt_256` with `pcb_halt` the block of `halted`. -/
inductive Context
  | user
  | halting (halted : Int) (pc : HaltPc)
  deriving DecidableEq

/-- The kernel with the context of the current process and those that ticks have saved. -/
structure System where
  kernel : State
  running : Context
  saved : Int → Option Context

namespace System

variable (q : System)

/-- A new process runs: the context saved in its slot is lost. -/
def start (s : State) : System := ⟨s, .user, Function.update q.saved s.currentPid none⟩

/-- The context of the current process is saved. -/
def save : System := { q with saved := Function.update q.saved q.kernel.currentPid (some q.running) }

/-- The current process of `s` goes on where its saved context is. -/
def resume (s : State) : Option System :=
  (q.saved s.currentPid).map fun c => ⟨s, c, Function.update q.saved s.currentPid none⟩

/-- The current process of `s` is in the handler of exception `v`, at its call of `halt_256`. -/
def except (s : State) (v : Fin 20) : System :=
  ⟨printfMessage s (str (exceptionMessage v)), .halting s.currentPid (.status 256), q.saved⟩

end System

/-- What a call comes to, by what its result does to the system. -/
def System.after {α : Type} (q : System) (r : Except Fault α) (f : α → Option System) : Option System :=
  match r with
  | .ok a => f a
  | .error (.pageFault s) => some (q.except s PF)
  | .error _ => none

inductive SystemEvent
  /-- An interrupt, an exception, or a call other than `halt` by the current process. -/
  | step (e : Step)
  /-- The current process calls `halt`. -/
  | halt (status : Byte)
  /-- The next statement of the current process's `halt_256`. -/
  | next (k : ExecuteFrame)

section

variable (img : Image)

/-- A statement of `halt_256`. -/
def haltNext (q : System) (halted : Int) (k : ExecuteFrame) : HaltPc → Option System
  | .status value =>
    let parent := (q.kernel.pcb halted).parentId
    goto (q.kernel.setPcb parent { q.kernel.pcb parent with returnValue := value }) (.close 0)
  | .close i =>
    if i < MAX_FD_NUM then q.after (sysClose q.kernel i) fun r => goto r.2 (.close (i + 1))
    else goto q.kernel .free
  | .free => goto { q.kernel with pidFlags := Function.update q.kernel.pidFlags q.kernel.currentPid .FREE } .test
  | .test =>
    goto q.kernel (if q.kernel.currentPid = (q.kernel.pcb halted).parentId then .shell else .current)
  | .shell =>
    q.after (execute img q.kernel (some shellCommand) k) fun r =>
      match r with
      | .starts s _ => some (q.start s)
      | .returns _ s => goto s .current
  | .current => goto { q.kernel with currentPid := (q.kernel.pcb halted).parentId } .executePid
  | .executePid =>
    goto { q.kernel with
      executePid := Function.update q.kernel.executePid (getTty q.kernel) q.kernel.currentPid } .paging
  | .paging => goto { q.kernel with programPde := programFrame q.kernel.currentPid } .tss
  | .tss => goto { q.kernel with tssEsp0 := (q.kernel.pcb halted).parentEsp0 } .jump
  | .jump => some { q with running := .user }
where
  /-- The process is at another statement. -/
  goto (s : State) (pc : HaltPc) : Option System := some { q with kernel := s, running := .halting halted pc }

/-- A PIT interrupt. -/
def systemTick (q : System) (esp ebp : Nat) (k : ExecuteFrame) : Option System :=
  q.save.after (taskSwitch img q.kernel esp ebp k) fun r =>
    match r with
    | .starts s _ => some (q.save.start s)
    | .dispatches _ _ s => q.save.resume s

/-- A call, other than `halt`, of the current process, or an exception in its program. -/
def systemCall (q : System) : Step → Option System
  | .execute command k =>
    q.after (execute img q.kernel command k) fun r =>
      match r with
      | .returns _ s => some { q with kernel := s }
      | .starts s _ => some (q.start s)
  | .exception v _ => some (q.except q.kernel v)
  | .fd c _ => q.after (fdCall img q.kernel c) fun r => some { q with kernel := r.2.2 }
  | .getargs buf nbytes _ => q.after (getargsThrough q.kernel buf nbytes) fun r => some { q with kernel := r.2.2 }
  | .vidmap screenStart _ => q.after (vidmap q.kernel screenStart) fun r => some { q with kernel := r.2 }
  | _ => none

/-- One step of the system. -/
def systemStep (q : System) : SystemEvent → Option System
  | .step (.tick esp ebp k) => systemTick img q esp ebp k
  | .step (.key c) => some { q with kernel := keyboardHandler q.kernel c }
  | .step .rtc => some { q with kernel := rtcHandler q.kernel }
  | .step e => if q.running = .user then systemCall img q e else none
  | .halt status =>
    if q.running = .user then
      some { q with running := .halting q.kernel.currentPid (.status status.toNat) }
    else none
  | .next k =>
    match q.running with
    | .user => none
    | .halting halted pc => haltNext img q halted k pc

end

end LimeOS
