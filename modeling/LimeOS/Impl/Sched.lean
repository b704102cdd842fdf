import LimeOS.Impl.SystemCall
import LimeOS.Impl.Keyboard
import LimeOS.Framework.Run

/-!
# `sched.c`, and the kernel as a system

`task_switch` either starts a missing root shell or dispatches the process of
the next terminal. The kernel's steps are interrupts and the calls of the
current process; a call that waits is one step, taken when it is done. A step in
which a page fault falls goes on with the fault's handler from the state that the
call had come to (`handled`), and one that fails in another way (`Fault`) has no next
state. A pointer at which a call faults before it has changed anything is one of the
steps `exception`.
-/

namespace LimeOS

section

variable (img : Image)

/-- What a call of `task_switch` comes to. -/
inductive TickResult
  /-- A root shell runs. -/
  | starts (s : State) (target : Nat)
  /-- The process of the next terminal runs, with these pointers. -/
  | dispatches (esp ebp : Nat) (s : State)

/-- `task_switch`'s loop over the terminals: it ends at the first shell that
starts, and goes on after one that does not. -/
def startShells (k : ExecuteFrame) : List Nat → State → Except Fault (State × Option Nat)
  | [], s => .ok (s, none)
  | i :: is, s =>
    if s.pidFlags i = .FREE then
      let s := { s with
        currentPid := i
        terminalNum := i
        terminalsInitialized := if i = TERMINAL_COUNT - 1 then true else s.terminalsInitialized }
      match execute img s (some shellCommand) k with
      | .error f => .error f
      | .ok (.starts s target) => .ok (s, some target)
      | .ok (.returns _ s) => startShells k is s
    else startShells k is s

/-- The part of `task_switch` that switches to the next terminal's process. -/
def dispatch (s : State) : TickResult :=
  let s := if s.terminalsInitialized then { s with terminalNum := 0, terminalsInitialized := false } else s
  let next := (s.pitTerminalNum + 1) % TERMINAL_COUNT
  let pid := s.executePid next
  let s := { s with
    pitTerminalNum := next
    currentPid := pid
    programPde := programFrame pid
    tssEsp0 := (s.pcb pid).schedEsp0 }
  .dispatches (s.pcb pid).schedEsp (s.pcb pid).schedEbp
    (updateCursor s (s.screenX s.terminalNum) (s.screenY s.terminalNum))

/-- The part of `task_switch` that saves the context of the process it interrupts. -/
def saveContext (s : State) (esp ebp : Nat) : State :=
  s.setPcb s.currentPid { s.curPcb with schedEbp := ebp, schedEsp := esp, schedEsp0 := s.tssEsp0 }

/-- `task_switch`, entered with the pointers `esp` and `ebp`. -/
def taskSwitch (s : State) (esp ebp : Nat) (k : ExecuteFrame) : Except Fault TickResult :=
  match startShells img k (List.range TERMINAL_COUNT) (saveContext s esp ebp) with
  | .error f => .error f
  | .ok (s, some target) => .ok (.starts s target)
  | .ok (s, none) => .ok (dispatch s)

/-! ## Steps -/

/-- A call on descriptors. -/
inductive FdCall
  | open (filename : Option CString)
  | close (fd : Int)
  | read (fd : Int) (buf : Option Buffer) (nbytes : Int) (line : Nat → Byte)
  | write (fd : Int) (buf : Option Buffer) (nbytes : Int)

/-- The result of a call on descriptors, the bytes it stored and the next state. -/
def fdCall (s : State) : FdCall → Except Fault (Int × Option Mem × State)
  | .open filename => (sysOpen img s filename).map fun r => (r.1, none, r.2)
  | .close fd => (sysClose s fd).map fun r => (r.1, none, r.2)
  | .read fd buf nbytes line => readThrough img s fd buf nbytes line
  | .write fd buf nbytes => (sysWrite s fd buf nbytes).map fun r => (r.1, none, r.2)

inductive Step
  /-- A PIT interrupt, taken with these pointers. -/
  | tick (esp ebp : Nat) (k : ExecuteFrame)
  /-- A keyboard interrupt; Alt+F1 to Alt+F3 switch terminals. -/
  | key (c : Byte)
  /-- An RTC interrupt. -/
  | rtc
  | execute (command : Option CString) (k : ExecuteFrame)
  | halt (status : Byte) (k : ExecuteFrame)
  | exception (v : Fin 20) (k : ExecuteFrame)
  | fd (c : FdCall) (k : ExecuteFrame)
  | getargs (buf : Option Buffer) (nbytes : Int) (k : ExecuteFrame)
  | vidmap (screenStart : Nat) (k : ExecuteFrame)

/-- The steps of devices: no process makes them. -/
def Step.Interrupt : Step → Prop
  | .tick _ _ _ => True
  | .key _ => True
  | .rtc => True
  | _ => False

/-- The step is an interrupt, or one of a process other than `p`. -/
def Step.Other (p : Int) (s : State) (e : Step) : Prop := e.Interrupt ∨ s.currentPid ≠ p

def ExecuteResult.state : ExecuteResult → State
  | .returns _ s => s
  | .starts s _ => s

def HaltResult.state : HaltResult → State
  | .resumes _ _ _ s => s
  | .starts s _ => s

def TickResult.state : TickResult → State
  | .starts s _ => s
  | .dispatches _ _ s => s

/-- The state that the handler of a page fault leaves. A handler that faults itself, as the loading of a shell that
is longer than its page does, faults again without end. -/
def afterFault (s : State) (k : ExecuteFrame) : Option State :=
  (exceptionHandler img s PF k).toOption.map HaltResult.state

/-- The state after a call, or after the handler of its page fault. An `execute` that faults has left nothing of its
arrays, so that `k` is the frame of the last one. -/
def handled (k : ExecuteFrame) : Except Fault State → Option State
  | .ok s => some s
  | .error (.pageFault s) => afterFault img s k
  | .error _ => none

/-- One step of the kernel. -/
def step (s : State) : Step → Option State
  | .tick esp ebp k => handled img k ((taskSwitch img s esp ebp k).map TickResult.state)
  | .key c => some (keyboardHandler s c)
  | .rtc => some (rtcHandler s)
  | .execute command k => handled img k ((execute img s command k).map ExecuteResult.state)
  | .halt status k => handled img k ((halt img s status k).map HaltResult.state)
  | .exception v k => handled img k ((exceptionHandler img s v k).map HaltResult.state)
  | .fd c k => handled img k ((fdCall img s c).map (·.2.2))
  | .getargs buf nbytes k => handled img k ((getargsThrough s buf nbytes).map (·.2.2))
  | .vidmap screenStart k => handled img k ((vidmap s screenStart).map Prod.snd)

end

end LimeOS
