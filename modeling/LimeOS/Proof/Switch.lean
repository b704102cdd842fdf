import LimeOS.Proof.Faults

/-!
# What `halt` and `task_switch` come to

`halt` frees the current process (`Freed`) and resumes its parent, or starts a
shell where the process is its own parent (`halt256_eq_ok`). `task_switch` saves
the context of the current process and, once the three shells run, dispatches
the process of the next terminal (`taskSwitch_dispatches`). What their parts keep
holds after them, and after the handler of a page fault on the way (`Halting`,
`Ticking`); what the other calls keep, too, holds after every step (`Keeping`).
-/

namespace LimeOS

/-! ## `halt` -/

/-- An entry of a table that was closed, or left alone. -/
def MayClose (t t' : Nat → FdEntry) : Prop := ∀ i, t' i = t i ∨ t' i = freeEntry

theorem MayClose.trans {t t₁ t₂ : Nat → FdEntry} (h₁ : MayClose t t₁) (h₂ : MayClose t₁ t₂) : MayClose t t₂ := by
  intro i
  rcases h₂ i with h | h
  · rw [h]
    exact h₁ i
  · exact .inr h

theorem sysClose_mayClose {s : State} {fd : Int} {r : Int × State} (h : sysClose s fd = .ok r) :
    MayClose s.curPcb.fdEntry r.2.curPcb.fdEntry := by
  intro i
  rcases sysClose_eq_ok h with rfl | ⟨n, f, -, -, -, -, -, rfl⟩
  · exact .inl rfl
  · rw [setFd_fdEntry, Function.update_apply]
    split
    · exact .inr rfl
    · exact .inl rfl

theorem closeAll_steady {s s' : State} (h : closeAll s = .ok s') :
    Steady s s' ∧ MayClose s.curPcb.fdEntry s'.curPcb.fdEntry := by
  have hl : ∀ (l : List Nat) (s : State),
      l.foldlM (fun s (i : Nat) => (sysClose s i).map Prod.snd) s = Except.ok (ε := Fault) s' →
      Steady s s' ∧ MayClose s.curPcb.fdEntry s'.curPcb.fdEntry := by
    intro l
    induction l with
    | nil =>
      intro s h
      cases h
      exact ⟨.refl _, fun _ => .inl rfl⟩
    | cons i l ih =>
      intro s h
      rw [List.foldlM_cons] at h
      cases hc : (sysClose s i).map Prod.snd with
      | error f =>
        rw [hc] at h
        cases h
      | ok s₁ =>
        rw [hc] at h
        obtain ⟨r, hr, rfl⟩ := map_eq_ok.mp hc
        obtain ⟨hq, hm⟩ := ih r.2 h
        exact ⟨(sysClose_steady hr).trans hq, (sysClose_mayClose hr).trans hm⟩
  exact hl _ s h

theorem closeAll_ne_fault (s s₁ : State) : closeAll s ≠ .error (.pageFault s₁) := by
  have hl : ∀ (l : List Nat) (s : State),
      l.foldlM (fun s (i : Nat) => (sysClose s i).map Prod.snd) s ≠ Except.error (.pageFault s₁) := by
    intro l
    induction l with
    | nil =>
      intro s h
      cases h
    | cons i l ih =>
      intro s h
      rw [List.foldlM_cons] at h
      cases hc : (sysClose s i).map Prod.snd with
      | error f =>
        rw [hc] at h
        cases h
        exact sysClose_ne_fault s s₁ i (map_eq_error.mp hc)
      | ok s₂ =>
        rw [hc] at h
        exact ih s₂ h
  exact hl _ s

/-- `s'` is `s` with the current process's pid free, its descriptors closed and
the status in its parent. -/
structure Freed (s : State) (status : Nat) (s' : State) : Prop where
  terminalNum : s'.terminalNum = s.terminalNum
  currentPid : s'.currentPid = s.currentPid
  executePid : s'.executePid = s.executePid
  pidFlags : s'.pidFlags = Function.update s.pidFlags s.currentPid .FREE
  programPde : s'.programPde = s.programPde
  tssEsp0 : s'.tssEsp0 = s.tssEsp0
  terminalsInitialized : s'.terminalsInitialized = s.terminalsInitialized
  pitTerminalNum : s'.pitTerminalNum = s.pitTerminalNum
  pcb : ∀ p, s'.pcb p = { s.pcb p with
    fdEntry := (s'.pcb p).fdEntry
    returnValue := if p = s.curPcb.parentId then status else (s.pcb p).returnValue }
  fdEntry : ∀ p ≠ s.currentPid, (s'.pcb p).fdEntry = (s.pcb p).fdEntry
  closed : MayClose s.curPcb.fdEntry (s'.pcb s.currentPid).fdEntry

theorem Freed.of_closeAll {s s₁ : State} {status : Nat}
    (h : closeAll (s.setPcb s.curPcb.parentId { s.pcb s.curPcb.parentId with returnValue := status }) = .ok s₁) :
    Freed s status { s₁ with pidFlags := Function.update s₁.pidFlags s.currentPid .FREE } := by
  obtain ⟨hq, hm⟩ := closeAll_steady h
  have hb : ∀ p, (s.setPcb s.curPcb.parentId { s.pcb s.curPcb.parentId with returnValue := status }).pcb p =
      { s.pcb p with returnValue := if p = s.curPcb.parentId then status else (s.pcb p).returnValue } := by
    intro p
    simp only [State.setPcb, Function.update_apply]
    split
    · rename_i e
      rw [e]
    · rfl
  refine ⟨hq.terminalNum, hq.currentPid, hq.executePid, ?_, hq.programPde, hq.tssEsp0, hq.terminalsInitialized,
    hq.pitTerminalNum, fun p => ?_, fun p hp => ?_, ?_⟩
  · simp only [hq.pidFlags]
    rfl
  · have h₁ := hq.pcb p
    have h₂ := hq.args p
    rw [hb p] at h₁ h₂
    simp only at h₂
    rw [h₂] at h₁
    exact h₁
  · have h₁ := hq.other p hp
    rw [hb p] at h₁
    have h₂ := congrArg Pcb.fdEntry h₁
    exact h₂
  · have hc : s₁.curPcb = s₁.pcb s.currentPid := by
      rw [State.curPcb, hq.currentPid]
      rfl
    have h₁ : (s.setPcb s.curPcb.parentId { s.pcb s.curPcb.parentId with returnValue := status }).curPcb.fdEntry =
        s.curPcb.fdEntry := by
      show ((s.setPcb s.curPcb.parentId _).pcb s.currentPid).fdEntry = _
      rw [hb]
      rfl
    rw [hc, h₁] at hm
    exact hm

namespace Freed

variable {s s' : State} {status : Nat}

theorem parentId (h : Freed s status s') (p : Int) : (s'.pcb p).parentId = (s.pcb p).parentId := by rw [h.pcb]
theorem parentEsp0 (h : Freed s status s') (p : Int) : (s'.pcb p).parentEsp0 = (s.pcb p).parentEsp0 := by rw [h.pcb]
theorem tty (h : Freed s status s') (p : Int) : (s'.pcb p).tty = (s.pcb p).tty := by rw [h.pcb]
theorem args (h : Freed s status s') (p : Int) : (s'.pcb p).args = (s.pcb p).args := by rw [h.pcb]

/-- What is written to a screen before a process halts does not matter. -/
theorem of_screen {s₁ : State} (hf : ScreenFrame s s₁) (h : Freed s₁ status s') : Freed s status s' := by
  obtain ⟨h₁, h₂, h₃, h₄, h₅, h₆, h₇, h₈, h₉, h₁₀, h₁₁⟩ := h
  rw [hf] at h₁ h₂ h₃ h₄ h₅ h₆ h₇ h₈ h₉ h₁₀ h₁₁
  exact ⟨h₁, h₂, h₃, h₄, h₅, h₆, h₇, h₈, h₉, h₁₀, h₁₁⟩

end Freed

/-- `s'` runs the parent of the process that was current in `s` and has halted. -/
structure Resumed (s : State) (status : Nat) (s' : State) : Prop where
  terminalNum : s'.terminalNum = s.terminalNum
  currentPid : s'.currentPid = s.curPcb.parentId
  executePid : s'.executePid = Function.update s.executePid (s.pcb s.curPcb.parentId).tty s.curPcb.parentId
  pidFlags : s'.pidFlags = Function.update s.pidFlags s.currentPid .FREE
  programPde : s'.programPde = programFrame s.curPcb.parentId
  tssEsp0 : s'.tssEsp0 = s.curPcb.parentEsp0
  terminalsInitialized : s'.terminalsInitialized = s.terminalsInitialized
  pitTerminalNum : s'.pitTerminalNum = s.pitTerminalNum
  pcb : ∀ p, s'.pcb p = { s.pcb p with
    fdEntry := (s'.pcb p).fdEntry
    returnValue := if p = s.curPcb.parentId then status else (s.pcb p).returnValue }
  fdEntry : ∀ p ≠ s.currentPid, (s'.pcb p).fdEntry = (s.pcb p).fdEntry
  closed : MayClose s.curPcb.fdEntry (s'.pcb s.currentPid).fdEntry

namespace Resumed

variable {s s' : State} {status : Nat}

theorem parentId (h : Resumed s status s') (p : Int) : (s'.pcb p).parentId = (s.pcb p).parentId := by rw [h.pcb]
theorem parentEsp0 (h : Resumed s status s') (p : Int) : (s'.pcb p).parentEsp0 = (s.pcb p).parentEsp0 := by rw [h.pcb]
theorem tty (h : Resumed s status s') (p : Int) : (s'.pcb p).tty = (s.pcb p).tty := by rw [h.pcb]
theorem args (h : Resumed s status s') (p : Int) : (s'.pcb p).args = (s.pcb p).args := by rw [h.pcb]

theorem of_screen {s₁ : State} (hf : ScreenFrame s s₁) (h : Resumed s₁ status s') : Resumed s status s' := by
  obtain ⟨h₁, h₂, h₃, h₄, h₅, h₆, h₇, h₈, h₉, h₁₀, h₁₁⟩ := h
  rw [hf] at h₁ h₂ h₃ h₄ h₅ h₆ h₇ h₈ h₉ h₁₀ h₁₁
  exact ⟨h₁, h₂, h₃, h₄, h₅, h₆, h₇, h₈, h₉, h₁₀, h₁₁⟩

end Resumed

/-- The parent resumes where it called `execute`, with the status. -/
theorem resumeParent_eq {s s₂ : State} {status : Nat} (h : Freed s status s₂) :
    ∃ s', resumeParent s₂ s.currentPid = .resumes (toI32 status) s.curPcb.parentEsp s.curPcb.parentEbp s' ∧
      Resumed s status s' := by
  have hc := h.pcb s.currentPid
  have hv : (s₂.pcb s.curPcb.parentId).returnValue = status := by
    rw [h.pcb, if_pos rfl]
  have hpar : (s₂.pcb s.currentPid).parentId = s.curPcb.parentId := h.parentId s.currentPid
  have hesp : (s₂.pcb s.currentPid).parentEsp = s.curPcb.parentEsp := by rw [hc]; rfl
  have hebp : (s₂.pcb s.currentPid).parentEbp = s.curPcb.parentEbp := by rw [hc]; rfl
  have hesp0 : (s₂.pcb s.currentPid).parentEsp0 = s.curPcb.parentEsp0 := by rw [hc]; rfl
  refine ⟨(resumeParent s₂ s.currentPid).state, ?_, ?_⟩
  · simp only [resumeParent, HaltResult.state, hpar, hesp, hebp]
    rw [State.curPcb, hv]
  · simp only [resumeParent, HaltResult.state, hpar, hesp0]
    refine ⟨h.terminalNum, rfl, ?_, h.pidFlags, rfl, rfl, h.terminalsInitialized, h.pitTerminalNum, h.pcb, h.fdEntry, h.closed⟩
    simp only [getTty, State.curPcb, h.executePid]
    rw [h.tty]

section

variable {img : Image}

/-- `halt_256`, by whether the current process is its own parent. -/
theorem halt256_eq_ok {s : State} {status : Nat} {k : ExecuteFrame} {r : HaltResult}
    (h : halt256 img s status k = .ok r) :
    s.curPcb.parentId ≠ s.currentPid ∧
      (∃ s', r = .resumes (toI32 status) s.curPcb.parentEsp s.curPcb.parentEbp s' ∧ Resumed s status s') ∨
    s.curPcb.parentId = s.currentPid ∧
      ∃ s₂ e, Freed s status s₂ ∧ execute img s₂ (some shellCommand) k = .ok e ∧
        match e with
        | .starts s' target => r = .starts s' target
        | .returns _ s' => r = resumeParent s' s.currentPid := by
  simp only [halt256] at h
  generalize hc : closeAll (s.setPcb s.curPcb.parentId { s.pcb s.curPcb.parentId with returnValue := status }) = o at h
  cases o with
  | error f => cases h
  | ok s₁ =>
    have hf := Freed.of_closeAll hc
    have hp : (s₁.pcb s.currentPid).parentId = s.curPcb.parentId := hf.parentId s.currentPid
    simp only [hp] at h
    generalize ({ s₁ with pidFlags := Function.update s₁.pidFlags s.currentPid .FREE } : State) = s₂ at h hf
    by_cases he : s.currentPid = s.curPcb.parentId
    · rw [if_pos he] at h
      refine .inr ⟨he.symm, s₂, ?_⟩
      generalize execute img s₂ (some shellCommand) k = x at h ⊢
      cases x with
      | error f => cases h
      | ok e =>
        refine ⟨e, hf, rfl, ?_⟩
        cases e with
        | starts s' target =>
          cases h
          rfl
        | returns v s' =>
          cases h
          rfl
    · rw [if_neg he] at h
      obtain ⟨s', hr, hs⟩ := resumeParent_eq hf
      refine .inl ⟨Ne.symm he, s', ?_, hs⟩
      rw [← hr]
      exact (Except.ok.inj h).symm

theorem exceptionHandler_eq_ok {s : State} {v : Fin 20} {k : ExecuteFrame} {r : HaltResult}
    (h : exceptionHandler img s v k = .ok r) :
    ∃ s₁, ScreenFrame s s₁ ∧ halt256 img s₁ 256 k = .ok r :=
  ⟨_, printfMessage_frame s _, h⟩

/-- A call has its result, or the handler of its page fault has one. -/
theorem handled_eq_some {α : Type} {r : Except Fault α} {f : α → State} {k : ExecuteFrame} {s' : State}
    (h : handled img k (r.map f) = some s') :
    (∃ a, r = .ok a ∧ s' = f a) ∨
      ∃ s₁ x, r = .error (.pageFault s₁) ∧ exceptionHandler img s₁ PF k = .ok x ∧ s' = x.state := by
  cases r with
  | ok a => exact .inl ⟨a, rfl, (Option.some.inj h).symm⟩
  | error e =>
    cases e with
    | pageFault s =>
      obtain ⟨x, hx, rfl⟩ := toOption_map_eq_some.mp h
      exact .inr ⟨s, x, rfl, hx, rfl⟩
    | _ => cases h

/-- What faults in `halt_256` is the loading of the shell that follows a root shell. -/
theorem halt256_eq_fault {s s₁ : State} {status : Nat} {k : ExecuteFrame}
    (h : halt256 img s status k = .error (.pageFault s₁)) :
    ∃ s₂, Freed s status s₂ ∧ execute img s₂ (some shellCommand) k = .error (.pageFault s₁) := by
  simp only [halt256] at h
  split at h
  · rename_i hc
    cases h
    exact absurd hc (closeAll_ne_fault _ _)
  · rename_i s₂ hc
    split at h
    · split at h
      · rename_i hx
        cases h
        exact ⟨_, .of_closeAll hc, hx⟩
      · cases h
      · cases h
    · cases h

/-- With a shell in the image a `halt` does not fault. -/
theorem halt256_ne_fault (hs : HasShell img) (s s₁ : State) (status : Nat) (k : ExecuteFrame) :
    halt256 img s status k ≠ .error (.pageFault s₁) := by
  intro h
  obtain ⟨s₂, -, hx⟩ := halt256_eq_fault h
  exact execute_shell_ne_fault hs s₂ s₁ k hx

/-! ## `task_switch` -/

/-- A state between a tick that saves a context and what follows. -/
theorem saveContext_pcb (s : State) (esp ebp : Nat) (p : Int) :
    (saveContext s esp ebp).pcb p =
      if p = s.currentPid then { s.pcb p with schedEbp := ebp, schedEsp := esp, schedEsp0 := s.tssEsp0 }
      else s.pcb p := by
  simp only [saveContext, State.setPcb, Function.update_apply]
  split
  · rename_i e
    rw [e]
    rfl
  · rfl

theorem startShells_inUse (k : ExecuteFrame) : ∀ (l : List Nat) {s : State}, (∀ i ∈ l, s.pidFlags (i : Nat) = .IN_USE) →
    startShells img k l s = .ok (s, none)
  | [], s, _ => rfl
  | i :: l, s, h => by
    rw [startShells, h i List.mem_cons_self, if_neg (by simp)]
    exact startShells_inUse k l fun j hj => h j (List.mem_cons_of_mem _ hj)

/-- With the pids of the three shells in use, a tick dispatches. -/
theorem taskSwitch_dispatches (img : Image) {s : State} (h : ∀ i < 3, s.pidFlags (i : Nat) = .IN_USE) (esp ebp : Nat)
    (k : ExecuteFrame) : taskSwitch img s esp ebp k = .ok (dispatch (saveContext s esp ebp)) := by
  rw [taskSwitch, startShells_inUse k (List.range TERMINAL_COUNT) (s := saveContext s esp ebp)
    (fun i hi => h i (List.mem_range.mp hi))]

/-- The state a tick starts shell `i` from. -/
def shellCaller (s : State) (i : Nat) : State :=
  { s with
    currentPid := i
    terminalNum := i
    terminalsInitialized := if i = TERMINAL_COUNT - 1 then true else s.terminalsInitialized }

theorem startShells_cons (k : ExecuteFrame) (i : Nat) (l : List Nat) (s : State) :
    startShells img k (i :: l) s =
      if s.pidFlags i = .FREE then
        match execute img (shellCaller s i) (some shellCommand) k with
        | .error f => .error f
        | .ok (.starts s' target) => .ok (s', some target)
        | .ok (.returns _ s') => startShells img k l s'
      else startShells img k l s := rfl

theorem startShells_starts (hs : HasShell img) (k : ExecuteFrame) {s : State} {i : Nat} (hf : freePid s = some i) :
    ∀ (pre post : List Nat), (∀ j ∈ pre, j < i) → ∃ page target, startShells img k (pre ++ i :: post) s =
      .ok (started (shellCaller s i) k i page (s.pcb i).args, some target)
  | [], post, _ => by
    obtain ⟨page, target, he⟩ := execute_shell hs (shellCaller s i) k (n := i) hf
    refine ⟨page, target, ?_⟩
    rw [List.nil_append, startShells_cons, if_pos (freePid_eq_some hf).2.1, he]
    rfl
  | j :: pre, post, h => by
    have hj : s.pidFlags (j : Nat) = .IN_USE := (freePid_eq_some hf).2.2 j (h j List.mem_cons_self)
    rw [List.cons_append, startShells, hj, if_neg (by simp)]
    exact startShells_starts hs k hf pre post fun j' hj' => h j' (List.mem_cons_of_mem _ hj')

/-- With the pid of shell `i` the lowest free one, a tick starts it. -/
theorem taskSwitch_starts (hs : HasShell img) {s : State} {i : Nat} (hi : i < 3) (hf : freePid s = some i)
    (esp ebp : Nat) (k : ExecuteFrame) : ∃ page args target, taskSwitch img s esp ebp k =
      .ok (.starts (started (shellCaller (saveContext s esp ebp) i) k i page args) target) := by
  obtain ⟨pre, post, e, hp⟩ : ∃ pre post, List.range TERMINAL_COUNT = pre ++ i :: post ∧ ∀ j ∈ pre, j < i :=
    match i, hi with
    | 0, _ => ⟨[], [1, 2], rfl, by simp⟩
    | 1, _ => ⟨[0], [2], rfl, by simp⟩
    | 2, _ => ⟨[0, 1], [], rfl, by simp⟩
  obtain ⟨page, target, h⟩ := startShells_starts hs k (s := saveContext s esp ebp) hf pre post hp
  exact ⟨page, _, target, by rw [taskSwitch, e, h]⟩

/-- `s'` runs the process of the terminal after the one selected in `s`. -/
structure Dispatched (s s' : State) : Prop where
  pitTerminalNum : s'.pitTerminalNum = (s.pitTerminalNum + 1) % TERMINAL_COUNT
  currentPid : s'.currentPid = s.executePid s'.pitTerminalNum
  programPde : s'.programPde = programFrame s'.currentPid
  tssEsp0 : s'.tssEsp0 = (s.pcb s'.currentPid).schedEsp0
  executePid : s'.executePid = s.executePid
  pidFlags : s'.pidFlags = s.pidFlags
  pcb : s'.pcb = s.pcb
  terminalNum : s'.terminalNum = if s.terminalsInitialized then 0 else s.terminalNum
  terminalsInitialized : s'.terminalsInitialized = false

theorem dispatch_eq (s : State) : ∃ s', Dispatched s s' ∧
    dispatch s = .dispatches (s.pcb s'.currentPid).schedEsp (s.pcb s'.currentPid).schedEbp s' := by
  refine ⟨(dispatch s).state, ?_, ?_⟩
  · simp only [dispatch, TickResult.state]
    rw [updateCursor_frame]
    cases hi : s.terminalsInitialized
    · exact ⟨rfl, rfl, rfl, rfl, rfl, rfl, rfl, by simp [hi], by simp [hi]⟩
    · exact ⟨rfl, rfl, rfl, rfl, rfl, rfl, rfl, by simp [hi], by simp⟩
  · simp only [dispatch, TickResult.state, (updateCursor_frame _ _ _).currentPid]
    cases hi : s.terminalsInitialized <;> rfl

/-! ## What they keep -/

/-- `I` holds until another process runs, and `J` then: the parts of `execute`. -/
structure Starting (I J : State → Prop) : Prop where
  screen : ∀ {s s' : State}, ScreenFrame s s' → I s → I s'
  start : ∀ {s : State} {n : Nat} (k : ExecuteFrame) (page args : Nat → Byte), freePid s = some n → I s →
    J (started s k n page args)

/-- Those of `halt_256`, and of an `execute` that faults before it. -/
structure Halting (I J : State → Prop) : Prop extends Starting I J where
  load : ∀ {s : State} {n : Nat} (page : Nat → Byte), freePid s = some n → I s → I (loading s n page)
  status : ∀ {s : State} (p : Int) (v : Nat), I s → I (s.setPcb p { s.pcb p with returnValue := v })
  close : ∀ {s : State} {fd : Int} {r : Int × State}, sysClose s fd = .ok r → I s → I r.2
  free : ∀ {s : State}, I s → I { s with pidFlags := Function.update s.pidFlags s.currentPid .FREE }
  resume : ∀ {s : State}, I s → J (resumeParent s s.currentPid).state

/-- Those of `task_switch`: `I` holds but for the start of a shell, and `K` there. -/
structure Ticking (I K J : State → Prop) : Prop extends Halting K J where
  save : ∀ {s : State} (esp ebp : Nat), I s → I (saveContext s esp ebp)
  shell : ∀ {s : State} (i : Nat), i < 3 → s.pidFlags i = .FREE → I s → K (shellCaller s i)
  back : ∀ {s : State}, K s → I s
  dispatch : ∀ {s : State}, I s → J (dispatch s).state

variable {I J K : State → Prop} {s s₁ : State}

namespace Starting

theorem starts (h : Starting I J) {command : Option CString} {k : ExecuteFrame} {s' : State} {target : Nat}
    (hx : execute img s command k = .ok (.starts s' target)) (hs : I s) : J s' := by
  rcases execute_eq_ok hx with ⟨v, s₁, he, -, -⟩ | ⟨c, n, page, target', -, -, -, hn, he⟩
  · cases he
  · cases he
    exact h.start k page _ hn hs

theorem returns (h : Starting I J) {command : Option CString} {k : ExecuteFrame} {v : Int} {s' : State}
    (hx : execute img s command k = .ok (.returns v s')) (hs : I s) : I s' ∧ s'.currentPid = s.currentPid := by
  rcases execute_eq_ok hx with ⟨v', s₁, he, hf, -⟩ | ⟨c, n, page, target, -, -, -, -, he⟩
  · cases he
    exact ⟨h.screen hf hs, hf.currentPid⟩
  · cases he

theorem execute (h : Starting I J) (hIJ : ∀ s, I s → J s) {command : Option CString} {k : ExecuteFrame}
    {r : ExecuteResult} (hx : execute img s command k = .ok r) (hs : I s) : J r.state := by
  cases r with
  | returns v s' => exact hIJ s' (h.returns hx hs).1
  | starts s' target => exact h.starts hx hs

end Starting

namespace Halting

theorem execute_fault (h : Halting I J) {command : Option CString} {k : ExecuteFrame}
    (hx : LimeOS.execute img s command k = .error (.pageFault s₁)) (hs : I s) : I s₁ := by
  obtain ⟨-, -, n, page, hn, rfl⟩ := execute_eq_fault hx
  exact h.load page hn hs

theorem closeAll (h : Halting I J) {s' : State} (hc : closeAll s = .ok s') (hs : I s) : I s' := by
  have hl : ∀ (l : List Nat) (s : State), I s →
      l.foldlM (fun s (i : Nat) => (sysClose s i).map Prod.snd) s = Except.ok (ε := Fault) s' → I s' := by
    intro l
    induction l with
    | nil =>
      intro s hs hf
      obtain rfl := Except.ok.inj hf
      exact hs
    | cons i l ih =>
      intro s hs hf
      rw [List.foldlM_cons] at hf
      cases hc : (sysClose s i).map Prod.snd with
      | error f =>
        rw [hc] at hf
        cases hf
      | ok s₁ =>
        rw [hc] at hf
        obtain ⟨r, hr, rfl⟩ := map_eq_ok.mp hc
        exact ih r.2 (h.close hr hs) hf
  exact hl _ s hs hc

/-- Through the statements of `halt_256` before its last test `I` holds, and the process is the same. -/
theorem freed (h : Halting I J) {status : Nat} {s₁ : State}
    (hc : LimeOS.closeAll (s.setPcb s.curPcb.parentId { s.pcb s.curPcb.parentId with returnValue := status }) = .ok s₁)
    (hs : I s) : I { s₁ with pidFlags := Function.update s₁.pidFlags s.currentPid .FREE } ∧
      s₁.currentPid = s.currentPid := by
  have hcur : s₁.currentPid = s.currentPid := (closeAll_steady hc).1.currentPid
  refine ⟨?_, hcur⟩
  rw [← hcur]
  exact h.free (h.closeAll hc (h.status _ status hs))

theorem halt256 (h : Halting I J) {status : Nat} {k : ExecuteFrame} {r : HaltResult}
    (hh : halt256 img s status k = .ok r) (hs : I s) : J r.state := by
  simp only [LimeOS.halt256] at hh
  generalize hc : LimeOS.closeAll (s.setPcb s.curPcb.parentId { s.pcb s.curPcb.parentId with returnValue := status }) = o
    at hh
  cases o with
  | error f => cases hh
  | ok s₁ =>
    obtain ⟨h₁, hcur⟩ := h.freed hc hs
    simp only [← hcur] at hh h₁
    split at hh
    · split at hh
      · cases hh
      · rename_i hx
        obtain rfl := (Except.ok.inj hh).symm
        exact h.starts hx h₁
      · rename_i v s₂ hx
        obtain rfl := (Except.ok.inj hh).symm
        obtain ⟨h₂, hcur₂⟩ := h.returns hx h₁
        have hr := h.resume h₂
        rwa [hcur₂] at hr
    · obtain rfl := (Except.ok.inj hh).symm
      exact h.resume h₁

/-- The loading of the shell that a root shell's `halt` starts is what may fault. -/
theorem halt256_fault (h : Halting I J) {status : Nat} {k : ExecuteFrame}
    (hh : LimeOS.halt256 img s status k = .error (.pageFault s₁)) (hs : I s) : I s₁ := by
  simp only [LimeOS.halt256] at hh
  generalize hc : LimeOS.closeAll (s.setPcb s.curPcb.parentId { s.pcb s.curPcb.parentId with returnValue := status }) = o
    at hh
  cases o with
  | error f =>
    cases hh
    exact absurd hc (closeAll_ne_fault _ _)
  | ok s₂ =>
    have h₂ := (h.freed hc hs).1
    simp only at hh
    split at hh
    · split at hh
      · rename_i hx
        cases hh
        exact h.execute_fault hx h₂
      · cases hh
      · cases hh
    · cases hh

theorem exceptionHandler (h : Halting I J) {v : Fin 20} {k : ExecuteFrame} {r : HaltResult}
    (hh : exceptionHandler img s v k = .ok r) (hs : I s) : J r.state := by
  obtain ⟨s₁, hf, hh⟩ := exceptionHandler_eq_ok hh
  exact h.halt256 hh (h.screen hf hs)

theorem exceptionHandler_fault (h : Halting I J) {v : Fin 20} {k : ExecuteFrame}
    (hh : LimeOS.exceptionHandler img s v k = .error (.pageFault s₁)) (hs : I s) : I s₁ :=
  h.halt256_fault hh (h.screen (printfMessage_frame s _) hs)

/-- A call after which `J` holds, or which faults where `I` does. -/
theorem handled (h : Halting I J) {α : Type} {r : Except Fault α} {f : α → State} {k : ExecuteFrame}
    (hh : handled img k (r.map f) = some s₁) (hok : ∀ a, r = .ok a → J (f a))
    (hfault : ∀ s, r = .error (.pageFault s) → I s) : J s₁ := by
  rcases handled_eq_some hh with ⟨a, hr, rfl⟩ | ⟨s, x, hr, hx, rfl⟩
  · exact hok a hr
  · exact h.exceptionHandler hx (hfault s hr)

end Halting

namespace Ticking

/-- The loop that starts the shells ends with one that runs, or goes on to the dispatch, or its loading faults. -/
theorem startShells (h : Ticking I K J) (img : Image) (k : ExecuteFrame) : ∀ (l : List Nat) {s : State},
    (∀ i ∈ l, i < 3) → I s →
    match startShells img k l s with
    | .ok (s', some _) => J s'
    | .ok (s', none) => I s'
    | .error (.pageFault s') => K s'
    | .error _ => True
  | [], s, _, hs => hs
  | i :: l, s, hl, hs => by
    have hl' : ∀ j ∈ l, j < 3 := fun j hj => hl j (List.mem_cons_of_mem _ hj)
    rw [startShells_cons]
    by_cases hfree : s.pidFlags i = .FREE
    · rw [if_pos hfree]
      have hi := h.shell i (hl i List.mem_cons_self) hfree hs
      cases hx : execute img (shellCaller s i) (some shellCommand) k with
      | error f =>
        cases f with
        | pageFault s' => exact h.execute_fault hx hi
        | _ => trivial
      | ok r =>
        cases r with
        | returns v s₂ => exact startShells h img k l hl' (h.back (h.returns hx hi).1)
        | starts s₂ target => exact h.starts hx hi
    · rw [if_neg hfree]
      exact startShells h img k l hl' hs

theorem taskSwitch (h : Ticking I K J) {esp ebp : Nat} {k : ExecuteFrame} {r : TickResult}
    (ht : taskSwitch img s esp ebp k = .ok r) (hs : I s) : J r.state := by
  have hl := h.startShells img k (List.range TERMINAL_COUNT) (fun i hi => List.mem_range.mp hi)
    (h.save esp ebp hs)
  unfold LimeOS.taskSwitch at ht
  generalize LimeOS.startShells img k (List.range TERMINAL_COUNT) (saveContext s esp ebp) = o at ht hl
  split at ht
  · cases ht
  · obtain rfl := Except.ok.inj ht
    exact hl
  · obtain rfl := Except.ok.inj ht
    exact h.dispatch hl

theorem taskSwitch_fault (h : Ticking I K J) {esp ebp : Nat} {k : ExecuteFrame}
    (ht : LimeOS.taskSwitch img s esp ebp k = .error (.pageFault s₁)) (hs : I s) : K s₁ := by
  have hl := h.startShells img k (List.range TERMINAL_COUNT) (fun i hi => List.mem_range.mp hi)
    (h.save esp ebp hs)
  unfold LimeOS.taskSwitch at ht
  generalize LimeOS.startShells img k (List.range TERMINAL_COUNT) (saveContext s esp ebp) = o at ht hl
  split at ht
  · cases ht
    exact hl
  · cases ht
  · cases ht

/-- A tick, with the handler of its fault. -/
theorem tick (h : Ticking I K J) {esp ebp : Nat} {k : ExecuteFrame} (hs : step img s (.tick esp ebp k) = some s₁)
    (hi : I s) : J s₁ :=
  h.handled hs (fun _ hr => h.taskSwitch hr hi) fun _ hr => h.taskSwitch_fault hr hi

end Ticking

/-- `I` holds before and after every step, and where the handler of a page fault is entered. -/
structure Keeping (img : Image) (I : State → Prop) : Prop extends Ticking I I I where
  key : ∀ {s : State} (c : Byte), I s → I (keyboardHandler s c)
  rtc : ∀ {s : State}, I s → I (rtcHandler s)
  fd : ∀ {s : State} {c : FdCall} {r : Int × Option Mem × State}, fdCall img s c = .ok r → I s → I r.2.2
  getargs : ∀ {s : State} (buf : Option Mem) (nbytes : Int), I s → I (getargs s buf nbytes).2.2
  vidmap : ∀ {s : State} {screenStart : Nat} {r : Int × State}, vidmap s screenStart = .ok r → I s → I r.2
  caught : ∀ {s s₁ : State}, Caught s s₁ → I s → I s₁

theorem Keeping.step (h : Keeping img I) (s : State) (e : Step) (s' : State) (hi : I s)
    (hs : LimeOS.step img s e = some s') : I s' := by
  have hh := h.toHalting
  cases e with
  | tick esp ebp k => exact h.tick hs hi
  | key c =>
    obtain rfl := Option.some.inj hs
    exact h.key c hi
  | rtc =>
    obtain rfl := Option.some.inj hs
    exact h.rtc hi
  | execute command k =>
    exact hh.handled hs (fun _ hr => hh.execute (fun _ h => h) hr hi) fun _ hr => hh.execute_fault hr hi
  | halt status k => exact hh.handled hs (fun _ hr => hh.halt256 hr hi) fun _ hr => hh.halt256_fault hr hi
  | exception v k =>
    exact hh.handled hs (fun _ hr => hh.exceptionHandler hr hi) fun _ hr => hh.exceptionHandler_fault hr hi
  | fd c k => exact hh.handled hs (fun _ hr => h.fd hr hi) fun _ hr => h.caught (fdCall_eq_fault hr).1 hi
  | getargs buf nbytes k =>
    refine hh.handled hs (fun r hr => ?_) fun _ hr => h.caught (getargsThrough_eq_fault hr).1 hi
    rw [getargsThrough_eq_ok hr]
    exact h.getargs _ nbytes hi
  | vidmap screenStart k =>
    exact hh.handled hs (fun _ hr => h.vidmap hr hi) fun _ hr => vidmap_eq_fault hr ▸ hi

end

end LimeOS
