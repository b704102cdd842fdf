import LimeOS.Proof.Execute

/-!
# Page faults in calls

Of the state a call leaves everything but the screen, the variables of the drivers and
the control blocks (`CallFrame`). One in which a page fault falls has left the
control blocks, too, and only a `write` has another terminal displayed by then,
its caller's (`Caught`).
-/

namespace LimeOS

/-! ## What the calls leave -/

/-- `s'` is `s` but for the screen, the variables of the drivers and the control blocks. -/
def CallFrame (s s' : State) : Prop :=
  s' = { s with
    mem := s'.mem
    screenX := s'.screenX
    screenY := s'.screenY
    cursor := s'.cursor
    pcb := s'.pcb
    tEnterFlag := s'.tEnterFlag
    commandBuf := s'.commandBuf
    rtcInterruptOccured := s'.rtcInterruptOccured
    rtcRegA := s'.rtcRegA }

namespace CallFrame

variable {s s₁ s₂ : State}

theorem refl (s : State) : CallFrame s s := rfl

theorem trans (h₁ : CallFrame s s₁) (h₂ : CallFrame s₁ s₂) : CallFrame s s₂ := by
  unfold CallFrame at *
  rw [h₂, h₁]

theorem setFd (s : State) (fd : Nat) (e : FdEntry) : CallFrame s (s.setFd fd e) := rfl

theorem frame (h : CallFrame s s₁) : s₁.frame = s.frame := by rw [h]

/-- A call that another terminal is displayed for. -/
theorem displayed {t : Nat} (h : CallFrame { s with terminalNum := t } s₁) :
    CallFrame s { s₁ with terminalNum := s.terminalNum } := by
  unfold CallFrame at *
  rw [h]

end CallFrame

theorem ScreenFrame.callFrame {s s' : State} (h : ScreenFrame s s') : CallFrame s s' := by
  rw [CallFrame, h]

theorem changeFreqRTC_callFrame (s : State) (freq : Nat) : CallFrame s (changeFreqRTC s freq) := by
  unfold changeFreqRTC
  split
  · exact .refl s
  · split
    · exact .refl s
    · exact rfl

theorem callOpen_callFrame (f : OpenFn) (s : State) : CallFrame s (callOpen f s).2 := by
  cases f with
  | openRTC =>
    simp only [callOpen, openRTC]
    exact changeFreqRTC_callFrame s _
  | _ => exact .refl s

theorem callWrite_callFrame (f : WriteFn) (s : State) (buf : Nat → Byte) (nbytes : Int) :
    CallFrame s (callWrite f s buf nbytes).2 := by
  cases f with
  | terminalWrite => exact (terminalWrite_frame s buf nbytes).callFrame
  | writeRTC =>
    simp only [callWrite, writeRTC]
    split
    · exact .refl s
    · exact changeFreqRTC_callFrame s _
  | _ => exact .refl s

section

variable {img : Image} {s : State}

theorem sysOpen_callFrame {filename : Option CString} {r : Int × State} (h : sysOpen img s filename = .ok r) :
    CallFrame s r.2 := by
  rcases sysOpen_eq_ok h with rfl | rfl | rfl | ⟨name, d, i, table, f, -, -, -, -, rfl⟩
  · exact .refl s
  · exact .setFd s _ _
  · exact .setFd s _ _
  · exact (CallFrame.setFd s _ _).trans (callOpen_callFrame f _)

theorem sysClose_callFrame {fd : Int} {r : Int × State} (h : sysClose s fd = .ok r) : CallFrame s r.2 := by
  rcases sysClose_eq_ok h with rfl | ⟨n, f, -, -, -, -, -, rfl⟩
  · exact .refl s
  · exact .setFd s _ _

theorem readDirectory_callFrame (s : State) (fd : Nat) (m : Mem) (nbytes : Int) :
    CallFrame s (readDirectory img s fd m nbytes).2.2 := by
  unfold readDirectory
  simp only
  split
  · exact .refl s
  · split
    · exact .refl s
    · exact .setFd s _ _

theorem sysRead_callFrame {fd : Int} {buf : Option Mem} {nbytes : Int} {line : Nat → Byte} {r : Int × Option Mem × State}
    (h : sysRead img s fd buf nbytes line = .ok r) : CallFrame s r.2.2 := by
  rcases sysRead_eq_ok h with rfl | ⟨n, f, -, -, -, -, -, hc⟩
  · exact .refl s
  · cases f with
    | nullFunc =>
      obtain rfl := Except.ok.inj hc
      exact .refl s
    | terminalRead =>
      rcases terminalRead_state hc with e | e
      · rw [e]
        exact .refl s
      · rw [e]
        exact rfl
    | readRTC =>
      obtain rfl := Except.ok.inj hc
      exact rfl
    | readFile => exact callRead_store_state _ (fun _ => CallFrame.setFd s _ _) hc
    | readDirectory => exact callRead_store_state _ (fun m => readDirectory_callFrame s _ m nbytes) hc

theorem sysWrite_callFrame {fd : Int} {buf : Option Buffer} {nbytes : Int} {r : Int × State}
    (h : sysWrite s fd buf nbytes = .ok r) : CallFrame s r.2 := by
  rcases sysWrite_eq_ok h with rfl | ⟨f, b, x, y, rfl⟩
  · exact .refl s
  · have hw := callWrite_callFrame f { s with terminalNum := getTty s } b nbytes
    exact hw.displayed.trans (updateCursor_frame _ x y).callFrame

theorem fdCall_callFrame {c : FdCall} {r : Int × Option Mem × State} (h : fdCall img s c = .ok r) :
    CallFrame s r.2.2 := by
  cases c with
  | «open» filename =>
    obtain ⟨r', h', rfl⟩ := map_eq_ok.mp h
    exact sysOpen_callFrame h'
  | close fd =>
    obtain ⟨r', h', rfl⟩ := map_eq_ok.mp h
    exact sysClose_callFrame h'
  | read fd buf nbytes line => exact sysRead_callFrame (readThrough_eq_ok h)
  | write fd buf nbytes =>
    obtain ⟨r', h', rfl⟩ := map_eq_ok.mp h
    exact sysWrite_callFrame h'

theorem getargs_callFrame (s : State) (buf : Option Mem) (nbytes : Int) : CallFrame s (getargs s buf nbytes).2.2 := by
  cases buf with
  | none => exact .refl s
  | some m =>
    simp only [getargs]
    split
    · exact .refl s
    · exact rfl

/-! ## What a fault finds -/

/-- From `s` the handler of a page fault is entered in `s₁`, out of a call that has changed no control block. -/
structure Caught (s s₁ : State) : Prop where
  frame : CallFrame s { s₁ with terminalNum := s.terminalNum }
  pcb : s₁.pcb = s.pcb
  terminalNum : s₁.terminalNum = s.terminalNum ∨ s₁.terminalNum = getTty s

namespace Caught

variable {s₁ : State}

theorem refl (s : State) : Caught s s := ⟨.refl s, rfl, .inl rfl⟩

/-- A driver that has stored through a pointer of its caller. -/
theorem of_callFrame (h : CallFrame s s₁) : Caught s { s₁ with pcb := s.pcb } := by
  refine ⟨?_, rfl, .inl ?_⟩
  · rw [CallFrame, h]
  · rw [h]

theorem still (h : Caught s s₁) : Still s s₁ := by
  have hf := congrArg (fun s : State => (s.currentPid, s.executePid, s.pidFlags, s.programPde, s.tssEsp0,
    s.terminalsInitialized, s.pitTerminalNum)) h.frame
  simp only [Prod.mk.injEq] at hf
  obtain ⟨h₁, h₂, h₃, h₄, h₅, h₆, h₇⟩ := hf
  simp only [Still, State.procs, h₁, h₂, h₃, h₄, h₅, h₆, h₇, h.pcb]

theorem frame_eq (h : Caught s s₁) : s₁.frame = s.frame := h.frame.frame

end Caught

/-- The bytes that a `write` reads are not all there. -/
def WriteFaults (s : State) (fd : Int) (buf : Option Buffer) (nbytes : Int) : Prop :=
  ∃ b f, buf = some b ∧ 0 < fd ∧ fd < MAX_FD_NUM ∧ (s.curPcb.fdEntry fd.toNat).flags = .IN_USE ∧
    (s.curPcb.fdEntry fd.toNat).operationsPointer.WRITE = some f ∧ (b.fault (writeLength f nbytes)).isSome

theorem Buffer.fault_eq_none {b : Buffer} {n : Nat} : b.fault n = none ↔ ∀ i < n, b.region i ≠ .absent := by
  rw [Buffer.fault, List.find?_eq_none]
  simp only [List.mem_range, decide_eq_true_eq, ne_eq]

theorem Buffer.own_fault (byte : Nat → Byte) (n : Nat) : (Buffer.own byte).fault n = none :=
  Buffer.fault_eq_none.mpr fun _ _ h => by cases h

theorem writeLength_le (f : WriteFn) (nbytes : Int) : writeLength f nbytes ≤ nbytes.toNat := by
  cases f with
  | writeRTC =>
    simp only [writeLength, NBYTE_DEFAULT_VAL]
    split <;> omega
  | _ => simp [writeLength]

/-- A `write` faults for no other reason than its buffer. -/
theorem WriteFaults.fault_ne_none {b : Buffer} {fd nbytes : Int} (h : WriteFaults s fd (some b) nbytes) :
    b.fault nbytes.toNat ≠ none := by
  obtain ⟨_, f, hb, -, -, -, -, hf⟩ := h
  cases hb
  rw [Option.isSome_iff_ne_none] at hf
  refine mt (fun hn => ?_) hf
  rw [Buffer.fault_eq_none] at hn ⊢
  exact fun i hi => hn i (Nat.lt_of_lt_of_le hi (writeLength_le f nbytes))

theorem writeFault_frame (f : WriteFn) (s : State) (buf : Nat → Byte) (i : Nat) :
    ScreenFrame s (writeFault f s buf i) := by
  cases f with
  | terminalWrite => exact terminalWriteFault_frame s buf i
  | _ => exact .refl s

/-- A `write` that faults does so on the screen of its caller, with that terminal selected. -/
theorem sysWrite_eq_fault {fd : Int} {b : Option Buffer} {nbytes : Int} {s₁ : State}
    (h : sysWrite s fd b nbytes = .error (.pageFault s₁)) :
    WriteFaults s fd b nbytes ∧ ScreenFrame { s with terminalNum := getTty s } s₁ := by
  cases b with
  | none => cases h
  | some buf =>
    simp only [sysWrite] at h
    split at h
    · cases h
    · rename_i hfd
      split at h
      · cases h
      · rename_i hu
        split at h
        · cases h
        · rename_i f hf
          split at h
          · rename_i i hi
            cases h
            refine ⟨⟨buf, f, rfl, by omega, by omega, PidStatus.ne_FREE.mp hu, hf, by rw [hi]; rfl⟩, ?_⟩
            exact writeFault_frame f _ _ _
          · cases h

/-- Every `write` whose bytes are not all there faults. -/
theorem WriteFaults.sysWrite {fd : Int} {b : Option Buffer} {nbytes : Int} (h : WriteFaults s fd b nbytes) :
    ∃ s₁, sysWrite s fd b nbytes = .error (.pageFault s₁) := by
  obtain ⟨buf, f, rfl, h₀, h₈, hu, hf, hi⟩ := h
  obtain ⟨i, hi⟩ := Option.isSome_iff_exists.mp hi
  refine ⟨writeFault f { s with terminalNum := getTty s } buf.byte i, ?_⟩
  have hfd : ¬ (fd ≥ MAX_FD_NUM ∨ fd < 0 ∨ fd = 0) := by omega
  simp only [LimeOS.sysWrite, hfd, hu, hf, hi, reduceCtorEq, if_false]

theorem Caught.of_write {fd : Int} {b : Option Buffer} {nbytes : Int} {s₁ : State}
    (h : sysWrite s fd b nbytes = .error (.pageFault s₁)) : Caught s s₁ := by
  have hf := (sysWrite_eq_fault h).2
  refine ⟨?_, hf.pcb, .inr hf.terminalNum⟩
  rw [CallFrame, hf]

theorem sysClose_ne_fault (s s₁ : State) (fd : Int) : sysClose s fd ≠ .error (.pageFault s₁) := by
  unfold sysClose
  split
  · simp
  · simp only
    split
    · simp
    · split
      · simp
      · split <;> simp

theorem sysOpen_ne_fault (filename : Option CString) (s₁ : State) : sysOpen img s filename ≠ .error (.pageFault s₁) := by
  cases filename with
  | none => simp [sysOpen]
  | some name =>
    simp only [sysOpen]
    repeat' split
    all_goals simp

theorem sysRead_eq_fault {fd : Int} {buf : Option Mem} {nbytes : Int} {line : Nat → Byte} {s₁ : State}
    (h : sysRead img s fd buf nbytes line = .error (.pageFault s₁)) : s₁ = s := by
  have hstore : ∀ g : Mem → Int × Mem × State, callRead.store s buf g = .error (.pageFault s₁) → s₁ = s := by
    intro g h
    cases buf with
    | some m => cases h
    | none =>
      simp only [callRead.store] at h
      split at h
      · cases h
      · cases h
        rfl
  unfold sysRead at h
  split at h
  · cases h
  · simp only at h
    split at h
    · cases h
    · split at h
      · cases h
      · rename_i f hf
        cases f with
        | nullFunc => cases h
        | terminalRead =>
          cases buf with
          | none => cases h
          | some m =>
            simp only [callRead, terminalRead] at h
            split at h <;> cases h
        | readRTC => cases h
        | readFile => exact hstore _ h
        | readDirectory => exact hstore _ h

theorem storedThrough_eq_fault {buf : Option Buffer} {r : Int × Option Mem × State} {s₁ : State}
    (hr : CallFrame s r.2.2) (h : storedThrough s buf r = .error (.pageFault s₁)) :
    Caught s s₁ ∧ s₁.terminalNum = s.terminalNum := by
  rw [storedThrough_fault h]
  exact ⟨.of_callFrame hr, by rw [hr]⟩

theorem readThrough_eq_fault {fd : Int} {buf : Option Buffer} {nbytes : Int} {line : Nat → Byte} {s₁ : State}
    (h : readThrough img s fd buf nbytes line = .error (.pageFault s₁)) :
    Caught s s₁ ∧ s₁.terminalNum = s.terminalNum := by
  rw [readThrough] at h
  cases hr : sysRead img s fd (buf.map Buffer.mem) nbytes line with
  | error f =>
    rw [hr] at h
    cases h
    rw [sysRead_eq_fault hr]
    exact ⟨.refl s, rfl⟩
  | ok r =>
    rw [hr] at h
    exact storedThrough_eq_fault (sysRead_callFrame hr) h

/-- Every call on descriptors that faults is caught, and only a `write` with another terminal displayed. -/
theorem fdCall_eq_fault {c : FdCall} {s₁ : State} (h : fdCall img s c = .error (.pageFault s₁)) :
    Caught s s₁ ∧ ((∀ fd buf nbytes, c ≠ .write fd buf nbytes) → s₁.terminalNum = s.terminalNum) := by
  cases c with
  | «open» filename => exact absurd (map_eq_error.mp h) (sysOpen_ne_fault _ _)
  | close fd => exact absurd (map_eq_error.mp h) (sysClose_ne_fault _ _ _)
  | read fd buf nbytes line =>
    obtain ⟨h₁, h₂⟩ := readThrough_eq_fault h
    exact ⟨h₁, fun _ => h₂⟩
  | write fd buf nbytes => exact ⟨.of_write (map_eq_error.mp h), fun hc => absurd rfl (hc fd buf nbytes)⟩

theorem getargsThrough_eq_ok {buf : Option Buffer} {nbytes : Int} {r : Int × Option Mem × State}
    (h : getargsThrough s buf nbytes = .ok r) : r = getargs s (buf.map Buffer.mem) nbytes :=
  storedThrough_eq_ok h

theorem getargsThrough_own (s : State) (f : Nat → Byte) (nbytes : Int) :
    getargsThrough s (some (.own f)) nbytes = .ok (getargs s (some (.fresh f)) nbytes) :=
  storedThrough_own s f _

theorem readThrough_own {fd : Int} {f : Nat → Byte} {nbytes : Int} {line : Nat → Byte} {r : Int × Option Mem × State}
    (h : sysRead img s fd (some (.fresh f)) nbytes line = .ok r) :
    readThrough img s fd (some (.own f)) nbytes line = .ok r := by
  rw [readThrough, Option.map_some, show (Buffer.own f).mem = .fresh f from rfl, h]
  exact storedThrough_own s f r

theorem getargsThrough_eq_fault {buf : Option Buffer} {nbytes : Int} {s₁ : State}
    (h : getargsThrough s buf nbytes = .error (.pageFault s₁)) : Caught s s₁ ∧ s₁.terminalNum = s.terminalNum :=
  storedThrough_eq_fault (getargs_callFrame s _ nbytes) h

theorem vidmap_eq_fault {screenStart : Nat} {s₁ : State} (h : vidmap s screenStart = .error (.pageFault s₁)) :
    s₁ = s := by
  unfold vidmap at h
  split at h
  · cases h
  · split at h
    · cases h
      rfl
    · cases h

end

end LimeOS
