import LimeOS.Proof.ScreenFrame
import LimeOS.Impl.Sched

/-!
# Steps that leave the processes alone

Interrupts of the devices change no field of the kernel that processes are
switched by and no control block (`Still`). The calls on descriptors change of
the control blocks only the descriptors of the current process (`Quiet`) and
leave the displayed terminal (`Steady`); `getargs` also clears its arguments
(`Aside`). A page fault in a call on descriptors finds the control blocks as they
were, and the caller's terminal as the displayed one if the call was a `write`
(`Caught`).
-/

namespace LimeOS

/-- What processes are switched by. -/
def State.procs (s : State) :=
  (s.currentPid, s.executePid, s.pidFlags, s.programPde, s.tssEsp0, s.terminalsInitialized, s.pitTerminalNum, s.pcb)

/-- From `s` to `s'` nothing changed that processes are switched by, and of the
control blocks only the current process's descriptors and arguments. -/
structure Aside (s s' : State) : Prop where
  currentPid : s'.currentPid = s.currentPid
  executePid : s'.executePid = s.executePid
  pidFlags : s'.pidFlags = s.pidFlags
  programPde : s'.programPde = s.programPde
  tssEsp0 : s'.tssEsp0 = s.tssEsp0
  terminalsInitialized : s'.terminalsInitialized = s.terminalsInitialized
  pitTerminalNum : s'.pitTerminalNum = s.pitTerminalNum
  pcb : ∀ p, s'.pcb p = { s.pcb p with fdEntry := (s'.pcb p).fdEntry, args := (s'.pcb p).args }
  other : ∀ p ≠ s.currentPid, s'.pcb p = s.pcb p

/-- The arguments did not change either. -/
structure Quiet (s s' : State) : Prop extends Aside s s' where
  args : ∀ p, (s'.pcb p).args = (s.pcb p).args

/-- The displayed terminal did not change either. -/
structure Steady (s s' : State) : Prop extends Quiet s s' where
  terminalNum : s'.terminalNum = s.terminalNum

/-- No control block changed either. -/
def Still (s s' : State) : Prop := s'.procs = s.procs

namespace Aside

variable {s s₁ s₂ : State}

theorem trans (h₁ : Aside s s₁) (h₂ : Aside s₁ s₂) : Aside s s₂ where
  currentPid := h₂.currentPid.trans h₁.currentPid
  executePid := h₂.executePid.trans h₁.executePid
  pidFlags := h₂.pidFlags.trans h₁.pidFlags
  programPde := h₂.programPde.trans h₁.programPde
  tssEsp0 := h₂.tssEsp0.trans h₁.tssEsp0
  terminalsInitialized := h₂.terminalsInitialized.trans h₁.terminalsInitialized
  pitTerminalNum := h₂.pitTerminalNum.trans h₁.pitTerminalNum
  pcb := fun p => by rw [h₂.pcb p, h₁.pcb p]
  other := fun p hp => (h₂.other p (by rwa [h₁.currentPid])).trans (h₁.other p hp)

theorem parentId (h : Aside s s₁) (p : Int) : (s₁.pcb p).parentId = (s.pcb p).parentId := by rw [h.pcb]
theorem parentEsp0 (h : Aside s s₁) (p : Int) : (s₁.pcb p).parentEsp0 = (s.pcb p).parentEsp0 := by rw [h.pcb]
theorem tty (h : Aside s s₁) (p : Int) : (s₁.pcb p).tty = (s.pcb p).tty := by rw [h.pcb]

end Aside

namespace Quiet

variable {s s₁ s₂ : State}

theorem trans (h₁ : Quiet s s₁) (h₂ : Quiet s₁ s₂) : Quiet s s₂ :=
  ⟨h₁.toAside.trans h₂.toAside, fun p => (h₂.args p).trans (h₁.args p)⟩

theorem refl (s : State) : Quiet s s :=
  ⟨⟨rfl, rfl, rfl, rfl, rfl, rfl, rfl, fun _ => rfl, fun _ _ => rfl⟩, fun _ => rfl⟩

end Quiet

namespace Steady

variable {s s₁ s₂ : State}

theorem refl (s : State) : Steady s s := ⟨.refl s, rfl⟩

theorem trans (h₁ : Steady s s₁) (h₂ : Steady s₁ s₂) : Steady s s₂ :=
  ⟨h₁.toQuiet.trans h₂.toQuiet, h₂.terminalNum.trans h₁.terminalNum⟩

end Steady

namespace Still

variable {s s₁ s₂ : State}

theorem refl (s : State) : Still s s := rfl

theorem trans (h₁ : Still s s₁) (h₂ : Still s₁ s₂) : Still s s₂ := Eq.trans h₂ h₁

theorem ite {p : Prop} [Decidable p] (h₁ : Still s s₁) (h₂ : Still s s₂) : Still s (if p then s₁ else s₂) := by
  split
  · exact h₁
  · exact h₂

theorem quiet (h : Still s s₁) : Quiet s s₁ := by
  simp only [Still, State.procs, Prod.mk.injEq] at h
  obtain ⟨h₁, h₂, h₃, h₄, h₅, h₆, h₇, h₈⟩ := h
  exact ⟨⟨h₁, h₂, h₃, h₄, h₅, h₆, h₇, fun p => by rw [h₈], fun p _ => by rw [h₈]⟩, fun p => by rw [h₈]⟩

theorem pcb (h : Still s s₁) : s₁.pcb = s.pcb := by
  simp only [Still, State.procs, Prod.mk.injEq] at h
  exact h.2.2.2.2.2.2.2

theorem curPcb (h : Still s s₁) : s₁.curPcb = s.curPcb := by
  rw [State.curPcb, h.pcb, h.quiet.currentPid, State.curPcb]

end Still

theorem ScreenFrame.still {s s' : State} (h : ScreenFrame s s') : Still s s' := by
  rw [h]
  rfl

theorem ScreenFrame.quiet {s s' : State} (h : ScreenFrame s s') : Quiet s s' := h.still.quiet

/-! ## The devices -/

theorem terminalSwitch_still (s : State) (newTty : Nat) : Still s (terminalSwitch s newTty) := by
  simp only [terminalSwitch]
  rw [updateCursor_frame]
  exact rfl

theorem KeyFrame.still {s s' : State} (h : KeyFrame s s') : Still s s' := by
  rw [h]
  rfl

theorem keyboardHandler_still (s : State) (c : Byte) : Still s (keyboardHandler s c) := by
  rcases keyboardHandler_frame s c with ⟨-, b, f, h⟩ | ⟨-, ⟨n, -, h⟩ | h⟩
  · have hs : Still s { s with commandBuf := b, tEnterFlag := f } := rfl
    exact hs.trans h.still
  · exact (terminalSwitch_still s n).trans h.still
  · exact h.still

theorem rtcHandler_still (s : State) : Still s (rtcHandler s) := rfl

/-! ## Descriptors -/

theorem PidStatus.ne_FREE {f : PidStatus} : f ≠ .FREE ↔ f = .IN_USE := by
  cases f <;> simp

theorem setFd_steady (s : State) (fd : Nat) (e : FdEntry) : Steady s (s.setFd fd e) := by
  have hp : ∀ p ≠ s.currentPid, (s.setFd fd e).pcb p = s.pcb p := fun p hp => Function.update_of_ne hp _ _
  have hc : (s.setFd fd e).pcb s.currentPid =
      { s.curPcb with fdEntry := Function.update s.curPcb.fdEntry fd e } := Function.update_self _ _ _
  refine ⟨⟨⟨rfl, rfl, rfl, rfl, rfl, rfl, rfl, fun p => ?_, hp⟩, fun p => ?_⟩, rfl⟩
  · by_cases h : p = s.currentPid
    · rw [h, hc]
      rfl
    · rw [hp p h]
  · by_cases h : p = s.currentPid
    · rw [h, hc]
      rfl
    · rw [hp p h]

@[simp] theorem setFd_fdEntry (s : State) (fd : Nat) (e : FdEntry) :
    (s.setFd fd e).curPcb.fdEntry = Function.update s.curPcb.fdEntry fd e := by
  show (Function.update s.pcb s.currentPid _ s.currentPid).fdEntry = _
  rw [Function.update_self]

/-- `close` fails, or frees a descriptor in use. -/
theorem sysClose_eq_ok {s : State} {fd : Int} {r : Int × State} (h : sysClose s fd = .ok r) :
    r = (-1, s) ∨ ∃ n f, fd = (n : Nat) ∧ 2 ≤ n ∧ n < MAX_FD_NUM ∧ (s.curPcb.fdEntry n).flags = .IN_USE ∧
      (s.curPcb.fdEntry n).operationsPointer.CLOSE = some f ∧ r = (0, s.setFd n freeEntry) := by
  unfold sysClose at h
  split at h
  · cases h
    exact .inl rfl
  · rename_i hfd
    simp only at h
    split at h
    · cases h
      exact .inl rfl
    · rename_i hu
      split at h
      · cases h
      · rename_i f hf
        rw [if_neg (show ¬ callClose f < 0 from Int.lt_irrefl 0)] at h
        refine .inr ⟨fd.toNat, f, ?_, ?_, ?_, ?_, hf, (Except.ok.inj h).symm⟩
        · omega
        · omega
        · simp only [MAX_FD_NUM] at *
          omega
        · exact PidStatus.ne_FREE.mp hu

theorem sysClose_steady {s : State} {fd : Int} {r : Int × State} (h : sysClose s fd = .ok r) : Steady s r.2 := by
  rcases sysClose_eq_ok h with rfl | ⟨n, f, -, -, -, -, -, rfl⟩
  · exact .refl s
  · exact setFd_steady s _ _

theorem changeFreqRTC_still (s : State) (freq : Nat) : Still s (changeFreqRTC s freq) := by
  unfold changeFreqRTC
  refine .ite (.refl s) ?_
  split
  · exact .refl s
  · exact rfl

theorem changeFreqRTC_terminalNum (s : State) (freq : Nat) : (changeFreqRTC s freq).terminalNum = s.terminalNum := by
  unfold changeFreqRTC
  split
  · rfl
  · split <;> rfl

theorem callOpen_still (f : OpenFn) (s : State) : Still s (callOpen f s).2 := by
  cases f with
  | openRTC =>
    simp only [callOpen, openRTC]
    exact changeFreqRTC_still s _
  | _ => exact .refl s

theorem callOpen_terminalNum (f : OpenFn) (s : State) : (callOpen f s).2.terminalNum = s.terminalNum := by
  cases f with
  | openRTC => exact changeFreqRTC_terminalNum s _
  | _ => rfl

section

variable {img : Image}

/-- `open` fails, opens one of the standard descriptors again, or takes the lowest free one. -/
theorem sysOpen_eq_ok {s : State} {filename : Option CString} {r : Int × State}
    (h : sysOpen img s filename = .ok r) :
    r = (-1, s) ∨
    r = ((STDIN : Int), s.setFd STDIN { s.curPcb.fdEntry STDIN with operationsPointer := stdinTable, flags := .IN_USE }) ∨
    r = ((STDOUT : Int), s.setFd STDOUT { s.curPcb.fdEntry STDOUT with operationsPointer := stdoutTable, flags := .IN_USE }) ∨
    ∃ name d i table f, readDentryByName img name = some d ∧ vacantFd s = some i ∧
      typeTable d.fileType = some table ∧ table.OPEN = some f ∧
      r = ((i : Int), (callOpen f (s.setFd i ⟨table, d.inodeNumber, 0, .IN_USE⟩)).2) := by
  cases filename with
  | none =>
    cases h
    exact .inl rfl
  | some name =>
    simp only [sysOpen] at h
    generalize strncmp _ _ STDIN_LEN = c₁ at h
    generalize strncmp _ _ STDOUT_LEN = c₂ at h
    by_cases h₁ : c₁ = 0
    · rw [if_pos h₁] at h
      cases h
      exact .inr (.inl rfl)
    rw [if_neg h₁] at h
    by_cases h₂ : c₂ = 0
    · rw [if_pos h₂] at h
      cases h
      exact .inr (.inr (.inl rfl))
    rw [if_neg h₂] at h
    cases hd : readDentryByName img name with
    | none =>
      rw [hd] at h
      cases h
      exact .inl rfl
    | some d =>
      cases hi : vacantFd s with
      | none =>
        simp only [hd, hi] at h
        cases h
        exact .inl rfl
      | some i =>
        cases ht : typeTable d.fileType with
        | none =>
          simp only [hd, hi, ht] at h
          cases h
          exact .inl rfl
        | some table =>
          cases hf : table.OPEN with
          | none =>
            simp only [hd, hi, ht, hf] at h
            cases h
          | some f =>
            have hn : ¬ (callOpen f (s.setFd i ⟨table, d.inodeNumber, 0, .IN_USE⟩)).1 < 0 := by
              cases f <;> simp [callOpen, openRTC]
            simp only [hd, hi, ht, hf, hn, if_false] at h
            exact .inr (.inr (.inr ⟨name, d, i, table, f, hd, rfl, ht, hf, (Except.ok.inj h).symm⟩))

theorem sysOpen_steady {s : State} {filename : Option CString} {r : Int × State}
    (h : sysOpen img s filename = .ok r) : Steady s r.2 := by
  rcases sysOpen_eq_ok h with rfl | rfl | rfl | ⟨name, d, i, table, f, -, -, -, -, rfl⟩
  · exact .refl s
  · exact setFd_steady s _ _
  · exact setFd_steady s _ _
  · exact (setFd_steady s _ _).trans ⟨(callOpen_still _ _).quiet, callOpen_terminalNum _ _⟩

/-- A read that fails changes nothing, another one only the buffer and the flag of the line. -/
theorem terminalRead_state {s : State} {buf : Option Mem} {line : Nat → Byte} {r : Int × Option Mem × State}
    (h : terminalRead s buf line = .ok r) :
    r.2.2 = s ∨ r.2.2 = lineCommitted (terminalReadBegin s (getTty s)) (getTty s) line := by
  cases buf with
  | none =>
    cases h
    exact .inl rfl
  | some buf =>
    simp only [terminalRead] at h
    split at h
    · cases h
    · cases h
      exact .inr rfl

theorem terminalRead_still {s : State} {buf : Option Mem} {line : Nat → Byte} {r : Int × Option Mem × State}
    (h : terminalRead s buf line = .ok r) : Still s r.2.2 := by
  rcases terminalRead_state h with e | e
  · rw [e]
    rfl
  · rw [e]
    rfl

theorem terminalRead_terminalNum {s : State} {buf : Option Mem} {line : Nat → Byte} {r : Int × Option Mem × State}
    (h : terminalRead s buf line = .ok r) : r.2.2.terminalNum = s.terminalNum := by
  rcases terminalRead_state h with e | e
  · rw [e]
  · rw [e]
    rfl

theorem readFile_steady (s : State) (fd : Nat) (m : Mem) (nbytes : Int) :
    Steady s (readFile img s fd m nbytes).2.2 := setFd_steady s _ _

theorem readDirectory_steady (s : State) (fd : Nat) (m : Mem) (nbytes : Int) :
    Steady s (readDirectory img s fd m nbytes).2.2 := by
  unfold readDirectory
  simp only
  split
  · exact .refl s
  · split
    · exact .refl s
    · exact setFd_steady s _ _

/-- The state after a driver that stores through its pointer. -/
theorem callRead_store_state (P : State → Prop) {s : State} {buf : Option Mem} {f : Mem → Int × Mem × State}
    {r : Int × Option Mem × State} (hf : ∀ m, P (f m).2.2) (h : callRead.store s buf f = .ok r) : P r.2.2 := by
  cases buf with
  | some m =>
    cases h
    exact hf m
  | none =>
    simp only [callRead.store] at h
    split at h
    · cases h
      exact hf _
    · cases h

/-- `read` fails, or calls through the slot of a descriptor in use. -/
theorem sysRead_eq_ok {s : State} {fd : Int} {buf : Option Mem} {nbytes : Int} {line : Nat → Byte}
    {r : Int × Option Mem × State} (h : sysRead img s fd buf nbytes line = .ok r) :
    r = (-1, buf, s) ∨ ∃ n f, fd = (n : Nat) ∧ n < MAX_FD_NUM ∧ n ≠ 1 ∧
      (s.curPcb.fdEntry n).flags = .IN_USE ∧ (s.curPcb.fdEntry n).operationsPointer.READ = some f ∧
      callRead img f s n buf nbytes line = .ok r := by
  unfold sysRead at h
  split at h
  · cases h
    exact .inl rfl
  · rename_i hfd
    simp only at h
    split at h
    · cases h
      exact .inl rfl
    · rename_i hu
      split at h
      · cases h
      · rename_i f hf
        refine .inr ⟨fd.toNat, f, ?_, ?_, ?_, ?_, hf, h⟩
        · omega
        · simp only [MAX_FD_NUM] at *
          omega
        · omega
        · exact PidStatus.ne_FREE.mp hu

theorem callRead_steady {f : ReadFn} {s : State} {fd : Nat} {buf : Option Mem} {nbytes : Int} {line : Nat → Byte}
    {r : Int × Option Mem × State} (h : callRead img f s fd buf nbytes line = .ok r) : Steady s r.2.2 := by
  cases f with
  | nullFunc =>
    cases h
    exact .refl s
  | terminalRead => exact ⟨(terminalRead_still h).quiet, terminalRead_terminalNum h⟩
  | readRTC =>
    cases h
    exact ⟨Still.quiet rfl, rfl⟩
  | readFile => exact callRead_store_state _ (fun m => readFile_steady s _ m nbytes) h
  | readDirectory => exact callRead_store_state _ (fun m => readDirectory_steady s _ m nbytes) h

theorem sysRead_steady {s : State} {fd : Int} {buf : Option Mem} {nbytes : Int} {line : Nat → Byte}
    {r : Int × Option Mem × State} (h : sysRead img s fd buf nbytes line = .ok r) : Steady s r.2.2 := by
  rcases sysRead_eq_ok h with rfl | ⟨n, f, -, -, -, -, -, hc⟩
  · exact .refl s
  · exact callRead_steady hc

/-- The buffer changes nothing of what a call comes to. -/
theorem storedThrough_eq_ok {s : State} {buf : Option Buffer} {r r' : Int × Option Mem × State}
    (h : storedThrough s buf r = .ok r') : r' = r := by
  unfold storedThrough at h
  split at h
  · split at h
    · exact (Except.ok.inj h).symm
    · split at h <;> cases h
  · exact (Except.ok.inj h).symm

/-- A store that faults comes before any change of the control blocks. -/
theorem storedThrough_fault {s s₁ : State} {buf : Option Buffer} {r : Int × Option Mem × State}
    (h : storedThrough s buf r = .error (.pageFault s₁)) : s₁ = { r.2.2 with pcb := s.pcb } := by
  unfold storedThrough at h
  split at h
  · split at h
    · cases h
    · split at h
      · cases h
        rfl
      · cases h
  · cases h

/-- Stores in the program's page go on. -/
@[simp] theorem storedThrough_own (s : State) (f : Nat → Byte) (r : Int × Option Mem × State) :
    storedThrough s (some (.own f)) r = .ok r := by
  unfold storedThrough
  split
  · rename_i b m hb _
    obtain rfl := Option.some.inj hb
    rw [List.find?_eq_none.mpr]
    simp [Buffer.own]
  · rfl

theorem readThrough_eq_ok {s : State} {fd : Int} {buf : Option Buffer} {nbytes : Int} {line : Nat → Byte}
    {r : Int × Option Mem × State} (h : readThrough img s fd buf nbytes line = .ok r) :
    sysRead img s fd (buf.map Buffer.mem) nbytes line = .ok r := by
  rw [readThrough] at h
  cases hr : sysRead img s fd (buf.map Buffer.mem) nbytes line with
  | error f =>
    rw [hr] at h
    cases h
  | ok r' =>
    rw [hr] at h
    rw [storedThrough_eq_ok h]

theorem callWrite_still (f : WriteFn) (s : State) (buf : Nat → Byte) (nbytes : Int) :
    Still s (callWrite f s buf nbytes).2 := by
  cases f with
  | terminalWrite => exact (terminalWrite_frame s buf nbytes).still
  | writeRTC =>
    simp only [callWrite, writeRTC]
    split
    · exact .refl s
    · exact changeFreqRTC_still s _
  | _ => exact .refl s

/-- `write` fails, or calls through its slot on the caller's terminal. -/
theorem sysWrite_eq_ok {s : State} {fd : Int} {buf : Option Buffer} {nbytes : Int} {r : Int × State}
    (h : sysWrite s fd buf nbytes = .ok r) :
    r = (-1, s) ∨ ∃ f b x y, let w := callWrite f { s with terminalNum := getTty s } b nbytes
      r = (w.1, updateCursor { w.2 with terminalNum := s.terminalNum } x y) := by
  cases buf with
  | none =>
    cases h
    exact .inl rfl
  | some buf =>
    simp only [sysWrite] at h
    split at h
    · cases h
      exact .inl rfl
    · split at h
      · cases h
        exact .inl rfl
      · split at h
        · cases h
        · split at h
          · cases h
          · cases h
            exact .inr ⟨_, _, _, _, rfl⟩

theorem sysWrite_still {s : State} {fd : Int} {buf : Option Buffer} {nbytes : Int} {r : Int × State}
    (h : sysWrite s fd buf nbytes = .ok r) : Still s r.2 := by
  rcases sysWrite_eq_ok h with rfl | ⟨f, b, x, y, rfl⟩
  · exact .refl s
  · have h₁ : Still s { s with terminalNum := getTty s } := rfl
    have h₂ := h₁.trans (callWrite_still f _ b nbytes)
    generalize callWrite f { s with terminalNum := getTty s } b nbytes = w at h₂ ⊢
    have h₃ : Still w.2 { w.2 with terminalNum := s.terminalNum } := rfl
    exact (h₂.trans h₃).trans (updateCursor_frame _ x y).still

/-- `write` leaves the displayed terminal as it was. -/
theorem sysWrite_terminalNum {s : State} {fd : Int} {buf : Option Buffer} {nbytes : Int} {r : Int × State}
    (h : sysWrite s fd buf nbytes = .ok r) : r.2.terminalNum = s.terminalNum := by
  rcases sysWrite_eq_ok h with rfl | ⟨f, b, x, y, rfl⟩
  · rfl
  · exact (updateCursor_frame _ _ _).terminalNum

theorem fdCall_steady {s : State} {c : FdCall} {r : Int × Option Mem × State} (h : fdCall img s c = .ok r) :
    Steady s r.2.2 := by
  cases c with
  | «open» filename =>
    obtain ⟨r', h', rfl⟩ := map_eq_ok.mp h
    exact sysOpen_steady h'
  | close fd =>
    obtain ⟨r', h', rfl⟩ := map_eq_ok.mp h
    exact sysClose_steady h'
  | read fd buf nbytes line => exact sysRead_steady (readThrough_eq_ok h)
  | write fd buf nbytes =>
    obtain ⟨r', h', rfl⟩ := map_eq_ok.mp h
    exact ⟨(sysWrite_still h').quiet, sysWrite_terminalNum h'⟩

end

/-! ## `getargs` and `vidmap` -/

theorem getargs_aside (s : State) (buf : Option Mem) (nbytes : Int) : Aside s (getargs s buf nbytes).2.2 := by
  cases buf with
  | none => exact (Quiet.refl s).toAside
  | some m =>
    simp only [getargs]
    split
    · exact (Quiet.refl s).toAside
    · refine ⟨rfl, rfl, rfl, rfl, rfl, rfl, rfl, fun p => ?_, fun p hp => Function.update_of_ne hp _ _⟩
      simp only [State.setPcb, Function.update_apply]
      split
      · rename_i hp
        rw [hp]
        rfl
      · rfl

theorem getargs_fdEntry (s : State) (buf : Option Mem) (nbytes : Int) :
    (getargs s buf nbytes).2.2.curPcb.fdEntry = s.curPcb.fdEntry := by
  cases buf with
  | none => rfl
  | some m =>
    simp only [getargs]
    split
    · rfl
    · simp only [State.setPcb, State.curPcb, Function.update_self]

theorem vidmap_still {s : State} {screenStart : Nat} {r : Int × State} (h : vidmap s screenStart = .ok r) :
    Still s r.2 := by
  unfold vidmap at h
  split at h
  · cases h
    exact .refl s
  · split at h
    · cases h
    · cases h
      exact rfl

/-! ## The displayed terminal -/

/-- The displayed terminal, and where the kernel and the user programs find the screens. -/
def State.display (s : State) := (s.terminalNum, s.videoMem, s.pt1)

theorem ScreenFrame.display {s s' : State} (h : ScreenFrame s s') : s'.display = s.display := by
  rw [h]
  rfl

theorem KeyFrame.display {s s' : State} (h : KeyFrame s s') : s'.display = s.display := by
  rw [h]
  rfl

/-- A key leaves the display or switches to one of the three terminals. -/
theorem keyboardHandler_display (s : State) (c : Byte) :
    (keyboardHandler s c).display = s.display ∨
      ∃ n < 3, (keyboardHandler s c).display = (terminalSwitch s n).display := by
  rcases keyboardHandler_frame s c with ⟨-, b, f, h⟩ | ⟨-, ⟨n, hn, h⟩ | h⟩
  · exact .inl h.display
  · exact .inr ⟨n, hn, h.display⟩
  · exact .inl h.display

/-- A key leaves the displayed terminal or switches to one of the three. -/
theorem keyboardHandler_terminalNum (s : State) (c : Byte) :
    (keyboardHandler s c).terminalNum = s.terminalNum ∨ (keyboardHandler s c).terminalNum < 3 := by
  rcases keyboardHandler_display s c with h | ⟨n, hn, h⟩
  · exact .inl (congrArg Prod.fst h)
  · refine .inr ((congrArg Prod.fst h).trans_lt ?_)
    simp only [State.display, terminalSwitch, (updateCursor_frame _ _ _).terminalNum]
    exact hn

theorem getargs_terminalNum (s : State) (buf : Option Mem) (nbytes : Int) :
    (getargs s buf nbytes).2.2.terminalNum = s.terminalNum := by
  cases buf with
  | none => rfl
  | some m =>
    simp only [getargs]
    split <;> rfl

theorem vidmap_terminalNum {s : State} {screenStart : Nat} {r : Int × State} (h : vidmap s screenStart = .ok r) :
    r.2.terminalNum = s.terminalNum := by
  unfold vidmap at h
  split at h
  · cases h
    rfl
  · split at h
    · cases h
    · cases h
      rfl

end LimeOS
