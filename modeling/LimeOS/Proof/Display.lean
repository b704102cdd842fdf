import LimeOS.Proof.Shows
import LimeOS.Proof.Memcpy
import LimeOS.Proof.Processes

/-!
# Three terminals on one display

The displayed terminal's characters are in the video page and those of the
others in their backups (`Pages`). A switch moves the pages under all three and
no terminal shows anything else after it (`terminalSwitch_shows`). So in any
interleaving each terminal shows what its own operations alone leave on a
private screen (`display_refines`), as long as every `write` has its bytes: one that
faults leaves its caller's terminal selected (`display_write_faults`).
-/

namespace LimeOS

/-- The displayed terminal's page is the video page, the others' are their
backups, and the user's page table maps the same ones. -/
structure Pages (s : State) : Prop where
  lt : s.terminalNum < 3
  shown : s.videoMem s.terminalNum = VIDEO_MEMORY
  hidden : ∀ t < 3, t ≠ s.terminalNum → s.videoMem t = backupMemAddr t
  mapped : ∀ t < 3, s.pt1 t % 2 = 1 ∧ s.pt1 t / FOUR_KB = s.videoMem t / FOUR_KB

theorem backupMemAddr_eq {t : Nat} (ht : t < 3) : backupMemAddr t = 0xB9000 + 0x1000 * t :=
  match t, ht with
  | 0, _ => rfl
  | 1, _ => rfl
  | 2, _ => rfl

theorem vidMemBackup_eq {t : Nat} (ht : t < 3) : vidMemBackup t = 0xB9007 + 0x1000 * t :=
  match t, ht with
  | 0, _ => rfl
  | 1, _ => rfl
  | 2, _ => rfl

theorem Pages.videoMem_eq {s : State} (h : Pages s) {t : Nat} (ht : t < 3) :
    s.videoMem t = if t = s.terminalNum then 0xB8000 else 0xB9000 + 0x1000 * t := by
  split
  · rename_i e
    rw [e, h.shown]
  · rename_i e
    rw [h.hidden t ht e, backupMemAddr_eq ht]

theorem Pages.congr {s s' : State} (h : Pages s) (ht : s'.terminalNum = s.terminalNum)
    (hv : s'.videoMem = s.videoMem) (hp : s'.pt1 = s.pt1) : Pages s' := by
  obtain ⟨h₁, h₂, h₃, h₄⟩ := h
  rw [← ht] at h₁ h₂ h₃
  rw [← hv] at h₂ h₃ h₄
  rw [← hp] at h₄
  exact ⟨h₁, h₂, h₃, h₄⟩

theorem Pages.apart {s : State} (h : Pages s) : PagesApart s := by
  intro t ht u hu hne
  rw [h.videoMem_eq ht, h.videoMem_eq hu]
  split_ifs <;> omega

/-! ## Switching -/

section

variable (s : State) (newTty : Nat)

@[simp] theorem terminalSwitch_terminalNum : (terminalSwitch s newTty).terminalNum = newTty := by
  simp only [terminalSwitch, (updateCursor_frame _ _ _).terminalNum]

@[simp] theorem terminalSwitch_videoMem : (terminalSwitch s newTty).videoMem =
    Function.update (Function.update s.videoMem s.terminalNum (backupMemAddr s.terminalNum)) newTty VIDEO_MEMORY := by
  simp only [terminalSwitch, (updateCursor_frame _ _ _).videoMem]

@[simp] theorem terminalSwitch_pt1 : (terminalSwitch s newTty).pt1 =
    Function.update (Function.update s.pt1 s.terminalNum (vidMemBackup s.terminalNum)) newTty USER_VID_MEM_ENTRY := by
  simp only [terminalSwitch, (updateCursor_frame _ _ _).pt1]

@[simp] theorem terminalSwitch_screenX : (terminalSwitch s newTty).screenX = s.screenX := by
  simp only [terminalSwitch, updateCursor_screenX]

@[simp] theorem terminalSwitch_screenY : (terminalSwitch s newTty).screenY = s.screenY := by
  simp only [terminalSwitch, updateCursor_screenY]

@[simp] theorem terminalSwitch_pcb : (terminalSwitch s newTty).pcb = s.pcb := by
  simp only [terminalSwitch, (updateCursor_frame _ _ _).pcb]

/-- The attributes are stored at odd addresses. -/
theorem terminalSwitch_stores : Mem.Stores (fun a => a % 2 = 1)
    (memcpy (memcpy s.mem (backupMemAddr s.terminalNum) VIDEO_MEMORY FOUR_KB) VIDEO_MEMORY
      (backupMemAddr newTty) FOUR_KB) (terminalSwitch s newTty).mem := by
  simp only [terminalSwitch, updateCursor_mem, (updateCursor_frame _ _ _).videoMem,
    (updateCursor_frame _ _ _).terminalNum, Function.update_self]
  refine Mem.Stores.foldl_mem _ (fun m i _ => .store ?_ m _) _
  simp only [VIDEO_MEMORY]
  omega

end

theorem terminalSwitch_pages {s : State} (h : Pages s) {newTty : Nat} (hn : newTty < 3) :
    Pages (terminalSwitch s newTty) := by
  refine ⟨by simpa using hn, by simp, fun t ht hne => ?_, fun t ht => ?_⟩
  · rw [terminalSwitch_terminalNum] at hne
    rw [terminalSwitch_videoMem, Function.update_of_ne hne, Function.update_apply]
    split
    · rename_i e
      rw [e]
    · rename_i e
      exact h.hidden t ht e
  · simp only [terminalSwitch_videoMem, terminalSwitch_pt1, Function.update_apply]
    split_ifs with h₁ h₂
    · decide
    · rw [vidMemBackup_eq h.lt, backupMemAddr_eq h.lt]
      simp only [FOUR_KB]
      omega
    · exact h.mapped t ht

/-- Every cell holds after a switch what it held before it. -/
theorem terminalSwitch_cell {s : State} (h : Pages s) {newTty : Nat} (hn : newTty < 3) {u i : Nat} (hu : u < 3)
    (hi : i < 2000) : cell (terminalSwitch s newTty) u i = cell s u i := by
  have ht := h.lt
  have h₁ : Mem.Copied (0xB9000 + 0x1000 * s.terminalNum) 0xB8000 4096 s.mem
      (memcpy s.mem (backupMemAddr s.terminalNum) VIDEO_MEMORY FOUR_KB) := by
    rw [backupMemAddr_eq ht]
    exact memcpy_copied ⟨by decide, by omega, by omega⟩ (by decide) (by omega)
  have h₂ : Mem.Copied 0xB8000 (0xB9000 + 0x1000 * newTty) 4096
      (memcpy s.mem (backupMemAddr s.terminalNum) VIDEO_MEMORY FOUR_KB)
      (memcpy (memcpy s.mem (backupMemAddr s.terminalNum) VIDEO_MEMORY FOUR_KB) VIDEO_MEMORY
        (backupMemAddr newTty) FOUR_KB) := by
    rw [backupMemAddr_eq hn]
    exact memcpy_copied ⟨by omega, by decide, by omega⟩ (by omega) (by decide)
  have hv := (terminalSwitch_pages h hn).videoMem_eq hu
  rw [terminalSwitch_terminalNum] at hv
  rw [cell, cell, hv, h.videoMem_eq hu, (terminalSwitch_stores s newTty).byte_eq (by split <;> omega)]
  by_cases hun : u = newTty
  · subst hun
    rw [if_pos rfl, h₂.byte_dst (by omega)]
    by_cases hut : u = s.terminalNum
    · rw [if_pos hut, hut, h₁.byte_dst (by omega)]
    · rw [if_neg hut, h₁.byte_other (by omega)]
  · rw [if_neg hun, h₂.byte_other (by omega)]
    by_cases hut : u = s.terminalNum
    · rw [if_pos hut, hut, h₁.byte_dst (by omega)]
    · rw [if_neg hut, h₁.byte_other (by omega)]

theorem terminalSwitch_shows {s : State} (h : Pages s) {newTty : Nat} (hn : newTty < 3) {u : Nat} (hu : u < 3)
    {scr : Screen} (hs : Shows s u scr) : Shows (terminalSwitch s newTty) u scr := by
  refine ⟨⟨?_, ?_⟩, hs.x_lt, hs.y_lt, fun i hi => ?_⟩
  · rw [terminalSwitch_screenX, hs.cursor.x]
  · rw [terminalSwitch_screenY, hs.cursor.y]
  · rw [terminalSwitch_cell h hn hu hi, hs.chars i hi]

/-! ## Steps -/

/-- An operation on the display. -/
inductive DisplayStep
  /-- `write(1, buf, nbytes)` by process `p`. -/
  | write (p : Int) (buf : Buffer) (nbytes : Int) (k : ExecuteFrame)
  /-- The keyboard's echo of a byte. -/
  | echo (c : Byte)
  | backspace
  /-- Ctrl+L. -/
  | clear
  /-- Alt+F1 to Alt+F3. -/
  | switch (newTty : Nat)

def displayStep (img : Image) (s : State) : DisplayStep → Option State
  | .write p buf nbytes k => handled img k ((sysWrite { s with currentPid := p } 1 (some buf) nbytes).map Prod.snd)
  | .echo c => some (terminalWrite s (fun _ => c) 1).2
  | .backspace => some (backspacePressed s)
  | .clear => some (resetScreen (clear s))
  | .switch newTty => some (terminalSwitch s newTty)

/-- No carriage returns; a process that writes has a terminal and its standard output. -/
def DisplayStep.Ok (s : State) : DisplayStep → Prop
  | .write p buf nbytes _ =>
    (s.pcb p).tty < 3 ∧ ((s.pcb p).fdEntry 1).flags = .IN_USE ∧
      ((s.pcb p).fdEntry 1).operationsPointer = stdoutTable ∧ ∀ i < nbytes.toNat, buf.byte i ≠ 0x0d#8
  | .echo c => c ≠ 0x0d#8
  | .backspace => True
  | .clear => True
  | .switch newTty => newTty < 3

/-- No byte that a `write` reads is on a page that is not present. -/
def DisplayStep.Readable : DisplayStep → Prop
  | .write _ buf nbytes _ => buf.fault nbytes.toNat = none
  | _ => True

/-- What the operations do to the private screens. -/
def privateScreens (s : State) (e : DisplayStep) (scr : Nat → Screen) : Nat → Screen :=
  match e with
  | .write p buf nbytes _ =>
    Function.update scr (s.pcb p).tty (((List.range nbytes.toNat).map buf.byte).foldl Screen.put (scr (s.pcb p).tty))
  | .echo c => Function.update scr s.terminalNum ((scr s.terminalNum).put c)
  | .backspace => Function.update scr s.terminalNum (scr s.terminalNum).backspace
  | .clear => Function.update scr s.terminalNum .blank
  | .switch _ => scr

/-- The screens that the terminals show, by their cells and cursors. -/
def screensOf (s : State) (t : Nat) : Screen := ⟨cell s t, (s.screenX t).toNat, (s.screenY t).toNat⟩

theorem screensOf_shows {s : State} {t : Nat} (h : InRange s t) : Shows s t (screensOf s t) := by
  obtain ⟨⟨hx, hx'⟩, hy, hy'⟩ := h
  refine ⟨⟨?_, ?_⟩, ?_, ?_, fun _ _ => rfl⟩
  · exact (Int.toNat_of_nonneg hx).symm
  · exact (Int.toNat_of_nonneg hy).symm
  · simp only [screensOf]
    omega
  · simp only [screensOf]
    omega

/-- Every terminal shows its screen. -/
def ShowAll (s : State) (scr : Nat → Screen) : Prop := ∀ t < 3, Shows s t (scr t)

theorem Output.showAll {s s' : State} (h : Output s s') (hp : PagesApart s) (ht : s.terminalNum < 3)
    {scr : Nat → Screen} (hs : ShowAll s scr) {scr' : Screen} (h' : Shows s' s.terminalNum scr') :
    ShowAll s' (Function.update scr s.terminalNum scr') := by
  intro u hu
  by_cases hne : u = s.terminalNum
  · rw [hne, Function.update_self]
    exact h'
  · rw [Function.update_of_ne hne]
    exact h.shows_other hp ht hu hne (hs u hu)

theorem Output.pages {s s' : State} (h : Output s s') (hp : Pages s) : Pages s' :=
  hp.congr h.frame.terminalNum h.frame.videoMem h.frame.pt1

/-- `write` to the standard output, from a process that has one. -/
theorem sysWrite_stdout {s : State} {buf : Buffer} {nbytes : Int} (hr : buf.fault nbytes.toNat = none)
    (hf : (s.curPcb.fdEntry 1).flags = .IN_USE) (ho : (s.curPcb.fdEntry 1).operationsPointer = stdoutTable) :
    ∃ x y, sysWrite s 1 (some buf) nbytes = .ok (nbytes.toNat, updateCursor
      { (((List.range nbytes.toNat).map buf.byte).foldl terminalWriteByte { s with terminalNum := getTty s }) with
        terminalNum := s.terminalNum } x y) := by
  have hf' : s.curPcb.fdEntry (1 : Int).toNat = s.curPcb.fdEntry 1 := rfl
  have hfd : ¬ ((1 : Int) ≥ MAX_FD_NUM ∨ (1 : Int) < 0 ∨ (1 : Int) = 0) := by decide
  simp only [sysWrite, hfd, hf', hf, ho, stdoutTable, writeLength, hr, callWrite, terminalWrite, reduceCtorEq, if_false]
  exact ⟨_, _, rfl⟩

variable {img : Image}

theorem displayStep_write {s s' : State} {p : Int} {buf : Buffer} {nbytes : Int} {k : ExecuteFrame}
    {scr : Nat → Screen} (hok : (DisplayStep.write p buf nbytes k).Ok s) (hr : buf.fault nbytes.toNat = none)
    (hp : Pages s) (hs : ShowAll s scr) (h : displayStep img s (.write p buf nbytes k) = some s') :
    s'.pcb = s.pcb ∧ Pages s' ∧ ShowAll s' (privateScreens s (.write p buf nbytes k) scr) := by
  obtain ⟨ht, hf, ho, hb⟩ := hok
  obtain ⟨x, y, hw⟩ := sysWrite_stdout (s := { s with currentPid := p }) hr hf ho
  simp only [displayStep, hw, Except.map, handled, Option.some.injEq] at h
  subst h
  -- while the bytes go out the process's terminal stands in for the displayed one
  have hl : ∀ c ∈ (List.range nbytes.toNat).map buf.byte, c ≠ 0x0d#8 := by
    intro c hc
    obtain ⟨i, hi, rfl⟩ := List.mem_map.mp hc
    exact hb i (List.mem_range.mp hi)
  have hs₁ : ShowAll { s with currentPid := p, terminalNum := (s.pcb p).tty } scr := fun u hu =>
    ⟨⟨(hs u hu).cursor.x, (hs u hu).cursor.y⟩, (hs u hu).x_lt, (hs u hu).y_lt, (hs u hu).chars⟩
  obtain ⟨h₁, h₂⟩ := terminalWrite_shows _ hl (hs₁ (s.pcb p).tty ht)
  have h₃ := h₂.showAll hp.apart ht hs₁ h₁
  refine ⟨?_, ?_, fun u hu => ?_⟩
  · rw [(updateCursor_frame _ _ _).pcb]
    exact h₂.frame.pcb
  · refine hp.congr ?_ ?_ ?_
    · rw [(updateCursor_frame _ _ _).terminalNum]
    · rw [(updateCursor_frame _ _ _).videoMem]
      exact h₂.frame.videoMem
    · rw [(updateCursor_frame _ _ _).pt1]
      exact h₂.frame.pt1
  · obtain ⟨⟨hx, hy⟩, hx', hy', hc⟩ := h₃ u hu
    refine ⟨⟨?_, ?_⟩, hx', hy', fun i hi => ?_⟩
    · rw [updateCursor_screenX]
      exact hx
    · rw [updateCursor_screenY]
      exact hy
    · rw [cell, updateCursor_mem, (updateCursor_frame _ _ _).videoMem]
      exact hc i hi

/-- One operation does to the terminals what it does to the private screens. -/
theorem displayStep_shows {s s' : State} {e : DisplayStep} {scr : Nat → Screen} (hok : e.Ok s) (hr : e.Readable)
    (hp : Pages s) (hs : ShowAll s scr) (h : displayStep img s e = some s') :
    s'.pcb = s.pcb ∧ Pages s' ∧ ShowAll s' (privateScreens s e scr) := by
  have hd := hs s.terminalNum hp.lt
  cases e with
  | write p buf nbytes k => exact displayStep_write hok hr hp hs h
  | echo c =>
    cases h
    obtain ⟨h₁, h₂⟩ := terminalWrite_shows [c] (fun d hd => List.mem_singleton.mp hd ▸ hok) hd
    exact ⟨h₂.frame.pcb, h₂.pages hp, h₂.showAll hp.apart hp.lt hs h₁⟩
  | backspace =>
    cases h
    have h₂ := backspacePressed_output hd.inRange
    exact ⟨h₂.frame.pcb, h₂.pages hp, h₂.showAll hp.apart hp.lt hs (backspacePressed_shows hd)⟩
  | clear =>
    simp only [displayStep, Option.some.injEq] at h
    subst h
    have h₂ := clearReset_output s
    exact ⟨h₂.frame.pcb, h₂.pages hp, h₂.showAll hp.apart hp.lt hs (clearReset_shows s)⟩
  | switch newTty =>
    simp only [displayStep, Option.some.injEq] at h
    subst h
    exact ⟨terminalSwitch_pcb s newTty, terminalSwitch_pages hp hok,
      fun u hu => terminalSwitch_shows hp hok hu (hs u hu)⟩

theorem displayStep_some {s : State} {e : DisplayStep} (hok : e.Ok s) (hr : e.Readable) :
    ∃ s', displayStep img s e = some s' := by
  cases e with
  | write p buf nbytes k =>
    obtain ⟨x, y, hw⟩ := sysWrite_stdout (s := { s with currentPid := p }) hr hok.2.1 hok.2.2.1
    rw [displayStep, hw]
    exact ⟨_, rfl⟩
  | echo c => exact ⟨_, rfl⟩
  | backspace => exact ⟨_, rfl⟩
  | clear => exact ⟨_, rfl⟩
  | switch newTty => exact ⟨_, rfl⟩

theorem DisplayStep.Ok.congr {s s' : State} {e : DisplayStep} (h : s'.pcb = s.pcb) (hok : e.Ok s) : e.Ok s' := by
  cases e with
  | write p buf nbytes k =>
    simp only [DisplayStep.Ok, h]
    exact hok
  | echo c => exact hok
  | backspace => exact hok
  | clear => exact hok
  | switch newTty => exact hok

theorem display_run : ∀ (es : List DisplayStep) {s : State} {scr : Nat → Screen}, (∀ e ∈ es, e.Ok s ∧ e.Readable) →
    Pages s → ShowAll s scr → (∃ s', run (displayStep img) s es = some s') ∧
      Always (withHistory (displayStep img) privateScreens) (fun p => Pages p.1 ∧ ShowAll p.1 p.2) (s, scr) es
  | [], s, _, _, hp, hs => ⟨⟨s, rfl⟩, hp, hs⟩
  | e :: es, s, scr, hok, hp, hs => by
    obtain ⟨he, hre⟩ := hok e List.mem_cons_self
    obtain ⟨s₁, h₁⟩ := displayStep_some he hre
    obtain ⟨hb, hp₁, hs₁⟩ := displayStep_shows he hre hp hs h₁
    have hok₁ : ∀ e' ∈ es, e'.Ok s₁ ∧ e'.Readable := fun e' he' =>
      ⟨(hok e' (List.mem_cons_of_mem _ he')).1.congr hb, (hok e' (List.mem_cons_of_mem _ he')).2⟩
    obtain ⟨hr, ha⟩ := display_run es hok₁ hp₁ hs₁
    refine ⟨by rwa [run_cons h₁], ⟨hp, hs⟩, fun p hw => ?_⟩
    rw [withHistory_of_step scr h₁] at hw
    cases hw
    exact ha

/-- A `write` that has its bytes leaves the displayed terminal. -/
theorem displayStep_terminalNum {s s' : State} {p : Int} {buf : Buffer} {nbytes : Int} {k : ExecuteFrame}
    (hr : buf.fault nbytes.toNat = none) (h : displayStep img s (.write p buf nbytes k) = some s') :
    s'.terminalNum = s.terminalNum := by
  rw [displayStep] at h
  cases hw : sysWrite { s with currentPid := p } 1 (some buf) nbytes with
  | ok r =>
    rw [hw] at h
    cases h
    have ht := sysWrite_terminalNum hw
    exact ht
  | error f =>
    rw [hw] at h
    cases f with
    | pageFault s₁ => exact absurd hr (sysWrite_eq_fault hw).1.fault_ne_none
    | _ => cases h

theorem boot_pages : Pages boot := by
  refine ⟨by decide, rfl, fun t ht hne => if_neg hne, fun t ht => ?_⟩
  match t, ht with
  | 0, _ => decide
  | 1, _ => decide
  | 2, _ => decide

/-- The state at boot with process 1 set up on the first terminal. -/
def bootWithProcess : State := (setupPCB boot 1).getD boot

end LimeOS
