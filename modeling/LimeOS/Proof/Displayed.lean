import LimeOS.Proof.System

/-!
# The displayed terminal is the selected one

`terminal_switch` moves the screens and selects the terminal together, but a tick
that starts a missing root shell selects its terminal alone, so does the next
one after the last shell has started, and so does a `write` that faults. Such a tick
falls between the statements of a root shell's `halt`. Every step but a key selects
one of the three terminals and moves no screen (`systemStep_selects`), so the display
stays the selected terminal's exactly as long as that one is already displayed
(`displayed_iff`).
-/

namespace LimeOS

/-- The selected terminal's screen is the video page, and the others' are their backups. -/
def Displayed (s : State) : Prop :=
  s.videoMem s.terminalNum = VIDEO_MEMORY ∧ ∀ t < 3, t ≠ s.terminalNum → s.videoMem t = backupMemAddr t

theorem Displayed.congr {s s' : State} (h : Displayed s) (hd : s'.display = s.display) : Displayed s' := by
  simp only [State.display, Prod.mk.injEq] at hd
  rw [Displayed, hd.1, hd.2.1]
  exact h

theorem Displayed.terminalSwitch {s : State} (h : Displayed s) (n : Nat) : Displayed (terminalSwitch s n) := by
  refine ⟨by simp, fun t ht hne => ?_⟩
  rw [terminalSwitch_terminalNum] at hne
  rw [terminalSwitch_videoMem, Function.update_of_ne hne, Function.update_apply]
  split
  · rename_i e
    rw [e]
  · rename_i e
    exact h.2 t ht e

theorem Displayed.keyboardHandler {s : State} (h : Displayed s) (c : Byte) : Displayed (keyboardHandler s c) := by
  rcases keyboardHandler_display s c with hd | ⟨n, -, hd⟩
  · exact h.congr hd
  · exact (h.terminalSwitch n).congr hd

/-! ## What a step selects -/

/-- From `s` to `s'` terminal `t` is selected, and no screen moves. -/
structure Selects (t : Nat) (s s' : State) : Prop where
  terminalNum : s'.terminalNum = t
  maps : s'.maps = s.maps

namespace Selects

variable {t : Nat} {s s₁ s' : State}

theorem refl (s : State) : Selects s.terminalNum s s := ⟨rfl, rfl⟩

theorem trans (h : Selects t s s₁) (ht : s'.terminalNum = s₁.terminalNum) (hm : s'.maps = s₁.maps) : Selects t s s' :=
  ⟨ht.trans h.terminalNum, hm.trans h.maps⟩

theorem screen (h : Selects t s s₁) (hf : ScreenFrame s₁ s') : Selects t s s' := h.trans hf.terminalNum hf.maps

/-- A call that faults in its process's terminal, or in the one that was selected. -/
theorem caught (h : Caught s s') : Selects s'.terminalNum s s' := ⟨rfl, h.maps⟩

theorem halting (t : Nat) (s : State) : Halting (Selects t s) (Selects t s) where
  screen hf h := h.screen hf
  start _ _ _ _ h := h.trans rfl rfl
  load _ _ h := h.trans rfl rfl
  status _ _ h := h.trans rfl rfl
  close hc h := h.trans (sysClose_steady hc).terminalNum (sysClose_callFrame hc).maps
  free h := h.trans rfl rfl
  resume h := h.trans rfl rfl

end Selects

/-- The display is in order after a terminal has been selected exactly if it is the one on the video page. -/
theorem Displayed.selects_iff {s s' : State} {t : Nat} (h : Displayed s) (ht : t < 3) (hs : Selects t s s') :
    Displayed s' ↔ t = s.terminalNum := by
  have hv : s'.videoMem = s.videoMem := congrArg Prod.fst hs.maps
  rw [Displayed, hs.terminalNum, hv]
  constructor
  · rintro ⟨h', -⟩
    by_contra hne
    rw [h.2 t ht hne] at h'
    exact backupMemAddr_ne ht h'
  · rintro rfl
    exact h

section

variable {img : Image} {q q' : System}

theorem Selects.except {t : Nat} {s s₁ : State} (h : Selects t s s₁) (v : Fin 20) :
    Selects t s (q.except s₁ v).kernel :=
  h.screen (printfMessage_frame s₁ _)

/-- The statements of `halt_256` leave the selected terminal. -/
theorem haltNext_selects {halted : Int} {k : ExecuteFrame} {pc : HaltPc} (h : haltNext img q halted k pc = some q') :
    Selects q.kernel.terminalNum q.kernel q'.kernel := by
  have hr := Selects.refl q.kernel
  have hh := Selects.halting q.kernel.terminalNum q.kernel
  cases pc with
  | status v =>
    cases h
    exact hh.status _ v hr
  | close i =>
    simp only [haltNext] at h
    split at h
    · rcases System.after_eq_some h with ⟨r, hc, h⟩ | ⟨s, hc, -⟩
      · cases h
        exact hh.close hc hr
      · exact absurd hc (sysClose_ne_fault _ _ _)
    · cases h
      exact hr
  | shell =>
    rcases System.after_eq_some h with ⟨r, hx, h⟩ | ⟨s, hx, rfl⟩
    · have hs := hh.execute (fun _ h => h) hx hr
      cases r with
      | starts s target =>
        cases h
        exact hs
      | returns v s =>
        cases h
        exact hs
    · exact (hh.execute_fault hx hr).except PF
  | _ =>
    cases h
    exact hr.trans rfl rfl

/-- So do the calls, but for a `write` that faults, which leaves its process's terminal selected. -/
theorem systemCall_selects {e : Step} (h : systemCall img q e = some q') :
    Selects q.kernel.terminalNum q.kernel q'.kernel ∨
      ∃ fd buf nbytes k, e = .fd (.write fd buf nbytes) k ∧ WriteFaults q.kernel fd buf nbytes := by
  have hr := Selects.refl q.kernel
  have hh := Selects.halting q.kernel.terminalNum q.kernel
  have hcaught : ∀ {s : State}, Caught q.kernel s → s.terminalNum = q.kernel.terminalNum →
      Selects q.kernel.terminalNum q.kernel (q.except s PF).kernel := fun hc ht =>
    Selects.except (ht ▸ Selects.caught hc) PF
  cases e with
  | execute command k =>
    rcases System.after_eq_some h with ⟨r, hx, h⟩ | ⟨s, hx, rfl⟩
    · have hs := hh.execute (fun _ h => h) hx hr
      cases r with
      | starts s target =>
        cases h
        exact .inl hs
      | returns v s =>
        cases h
        exact .inl hs
    · exact .inl ((hh.execute_fault hx hr).except PF)
  | exception v k =>
    cases h
    exact .inl (hr.except v)
  | fd c k =>
    rcases System.after_eq_some h with ⟨r, hc, h⟩ | ⟨s, hc, rfl⟩
    · cases h
      exact .inl (hr.trans (fdCall_steady hc).terminalNum (fdCall_callFrame hc).maps)
    · obtain ⟨hcs, ht⟩ := fdCall_eq_fault hc
      cases c with
      | write fd buf nbytes => exact .inr ⟨fd, buf, nbytes, k, rfl, (sysWrite_eq_fault (map_eq_error.mp hc)).1⟩
      | _ => exact .inl (hcaught hcs (ht fun _ _ _ e => by cases e))
  | getargs buf nbytes k =>
    rcases System.after_eq_some h with ⟨r, hc, h⟩ | ⟨s, hc, rfl⟩
    · cases h
      rw [getargsThrough_eq_ok hc]
      exact .inl (hr.trans (getargs_terminalNum _ _ nbytes) (getargs_callFrame _ _ nbytes).maps)
    · obtain ⟨hcs, ht⟩ := getargsThrough_eq_fault hc
      exact .inl (hcaught hcs ht)
  | vidmap screenStart k =>
    rcases System.after_eq_some h with ⟨r, hv, h⟩ | ⟨s, hv, rfl⟩
    · cases h
      exact .inl (hr.trans (vidmap_terminalNum hv) (vidmap_maps hv))
    · rw [vidmap_eq_fault hv]
      exact .inl (hr.except PF)
  | _ => cases h

theorem systemCall_write_selects {fd : Int} {buf : Option Buffer} {nbytes : Int} {k : ExecuteFrame}
    (hf : WriteFaults q.kernel fd buf nbytes) (h : systemCall img q (.fd (.write fd buf nbytes) k) = some q') :
    Selects (getTty q.kernel) q.kernel q'.kernel := by
  obtain ⟨s, hs⟩ := hf.sysWrite
  have hc : fdCall img q.kernel (.write fd buf nbytes) = .error (.pageFault s) := map_eq_error.mpr hs
  simp only [systemCall, hc, System.after, Option.some.injEq] at h
  subst h
  refine Selects.except ?_ PF
  have ht : s.terminalNum = getTty q.kernel := (sysWrite_eq_fault hs).2.terminalNum
  exact ht ▸ Selects.caught (.of_write hs)

/-! ## Ticks -/

/-- A root shell whose pid is the lowest free one is missing. -/
theorem not_inUse_of_freePid {s : State} {i : Nat} (hf : freePid s = some i) (hi : i < 3) :
    ¬ ∀ j < 3, s.pidFlags (j : Nat) = .IN_USE := fun hu => by
  have := (freePid_eq_some hf).2.1
  rw [hu i hi] at this
  cases this

/-- A tick that starts a root shell finds its terminal selected, and one that selects the first terminal
finds that one; a `write` that faults is by a process of the selected terminal. -/
def DisplayKeeps (q : System) : SystemEvent → Prop
  | .step (.tick _ _ _) =>
    (∀ i < 3, freePid q.kernel = some i → i = q.kernel.terminalNum) ∧
      ((∀ i < 3, q.kernel.pidFlags (i : Nat) = .IN_USE) → q.kernel.terminalsInitialized = true →
        q.kernel.terminalNum = 0)
  | .step (.fd (.write fd buf nbytes) _) => WriteFaults q.kernel fd buf nbytes → getTty q.kernel = q.kernel.terminalNum
  | _ => True

theorem systemTick_selects (hs : HasShell img) (ht : q.kernel.terminalNum < 3) {esp ebp : Nat} {k : ExecuteFrame}
    (h : systemTick img q esp ebp k = some q') : ∃ t < 3, Selects t q.kernel q'.kernel ∧
      (t = q.kernel.terminalNum ↔ DisplayKeeps q (.step (.tick esp ebp k))) := by
  rcases systemTick_eq_some hs h with ⟨i, hi, page, args, hf, rfl⟩ | ⟨hu, s, hd, hm, hr⟩
  · refine ⟨i, hi, ⟨rfl, rfl⟩, fun e => ⟨fun j _ hf' => ?_, fun hu => ?_⟩, fun hok => hok.1 i hi hf⟩
    · rw [hf] at hf'
      cases hf'
      exact e
    · exact absurd hu (not_inUse_of_freePid hf hi)
  · obtain ⟨c, -, rfl⟩ := System.resume_eq_some hr
    refine ⟨if q.kernel.terminalsInitialized then 0 else q.kernel.terminalNum, ?_,
      ⟨hd.terminalNum, hm⟩, ?_⟩
    · split
      · decide
      · exact ht
    · by_cases hi : q.kernel.terminalsInitialized = true
      · rw [if_pos hi]
        exact ⟨fun e => ⟨fun j hj hf => absurd hu (not_inUse_of_freePid hf hj), fun _ _ => e.symm⟩,
          fun hok => (hok.2 hu hi).symm⟩
      · rw [if_neg hi]
        exact iff_of_true rfl ⟨fun j hj hf => absurd hu (not_inUse_of_freePid hf hj), fun _ hi' => absurd hi' hi⟩

/-! ## Runs -/

/-- A step that is not a key selects one of the terminals, and the selected one exactly if it keeps the display. -/
theorem systemStep_selects (hs : HasShell img) {known : Set Int} (ht : Ttys known q.kernel) {e : SystemEvent}
    (he : ∀ c, e ≠ .step (.key c)) (h : systemStep img q e = some q') :
    ∃ t < 3, Selects t q.kernel q'.kernel ∧ (t = q.kernel.terminalNum ↔ DisplayKeeps q e) := by
  have hsame : ∀ {e : SystemEvent}, DisplayKeeps q e → Selects q.kernel.terminalNum q.kernel q'.kernel →
      ∃ t < 3, Selects t q.kernel q'.kernel ∧ (t = q.kernel.terminalNum ↔ DisplayKeeps q e) := fun hk hsel =>
    ⟨_, ht.lt, hsel, iff_of_true rfl hk⟩
  cases e with
  | step e =>
    cases e with
    | tick esp ebp k => exact systemTick_selects hs ht.lt h
    | key c => exact absurd rfl (he c)
    | rtc =>
      cases h
      exact hsame trivial ((Selects.refl _).trans rfl rfl)
    | fd c k =>
      simp only [systemStep] at h
      split at h
      · cases c with
        | write fd buf nbytes =>
          by_cases hf : WriteFaults q.kernel fd buf nbytes
          · exact ⟨getTty q.kernel, ht.tty _ ht.current, systemCall_write_selects hf h, fun e _ => e, fun hok => hok hf⟩
          · rcases systemCall_selects h with hsel | ⟨fd', buf', nbytes', k', e, hf'⟩
            · exact hsame (fun hf' => absurd hf' hf) hsel
            · cases e
              exact absurd hf' hf
        | _ =>
          rcases systemCall_selects h with hsel | ⟨fd, buf, nbytes, k', e, -⟩
          · exact hsame trivial hsel
          · cases e
      · cases h
    | _ =>
      simp only [systemStep] at h
      split at h
      · rcases systemCall_selects h with hsel | ⟨fd, buf, nbytes, k', e, -⟩
        · exact hsame trivial hsel
        · cases e
      · cases h
  | halt status =>
    simp only [systemStep] at h
    split at h
    · cases h
      exact hsame trivial (.refl _)
    · cases h
  | next k =>
    simp only [systemStep] at h
    split at h
    · cases h
    · exact hsame trivial (haltNext_selects h)

/-- While the display is in order, a step keeps it so exactly under its condition. -/
theorem systemStep_displayed_iff (hs : HasShell img) {known : Set Int} (ht : Ttys known q.kernel) (hd : Displayed q.kernel)
    {e : SystemEvent} (h : systemStep img q e = some q') : Displayed q'.kernel ↔ DisplayKeeps q e := by
  by_cases he : ∃ c, e = .step (.key c)
  · obtain ⟨c, rfl⟩ := he
    cases h
    exact iff_of_true (hd.keyboardHandler c) trivial
  · obtain ⟨t, htlt, hsel, hiff⟩ := systemStep_selects hs ht (fun c e => he ⟨c, e⟩) h
    exact (hd.selects_iff htlt hsel).trans hiff

/-- The three shells have started and the first terminal is selected, with the screens where they
were at boot; a halt that is under way is one of theirs. -/
structure SystemStarted (q : System) : Prop where
  shells : ShellsStarted q.kernel
  screens : ∀ t < 3, q.kernel.videoMem t = boot.videoMem t
  halted : ∀ p, q.Halted p → 0 ≤ p ∧ p < 3

theorem SystemStarted.displayed (h : SystemStarted q) : Displayed q.kernel := by
  rw [Displayed, h.shells.terminalNum]
  exact ⟨h.screens 0 (by decide), fun t ht hne => (h.screens t ht).trans (if_neg hne)⟩

/-- **The displayed terminal is the selected one** in every state of a run, from the start of the shells on,
exactly when each of its ticks that selects a terminal finds it displayed, and each of its `write`s that faults is
by a process of the displayed terminal. -/
theorem displayed_iff (hs : HasShell img) (hq : SystemStarted q) (es : List SystemEvent) :
    Always (systemStep img) (fun q : System => Displayed q.kernel) q es ↔
      Guarded (systemStep img) DisplayKeeps q es := by
  refine always_iff_guarded (I := fun q : System => Displayed q.kernel ∧ ∃ known, SystemTtys known q) (fun _ h => h.1)
    ?_ ?_ ⟨hq.displayed, _, hq.shells.ttys, hq.halted⟩
  · rintro q e q' ⟨hd, known, ht⟩ hok h
    exact ⟨(systemStep_displayed_iff hs ht.kernel hd h).mpr hok, ht.step hs h⟩
  · rintro q e q' ⟨hd, known, ht⟩ hok h h'
    exact hok ((systemStep_displayed_iff hs ht.kernel hd h).mp h')

end

/-- The system at boot, in the kernel's own idle loop. -/
def bootSystem : System := ⟨boot, .user, fun _ => none⟩

/-- The system after four ticks, with the second shell running and the first terminal displayed. -/
def shellsSystem : System := (run (systemStep shellImage) bootSystem (fourTicks.map .step)).getD bootSystem

theorem shellsSystem_started : SystemStarted shellsSystem := by
  obtain ⟨q, hq⟩ := Option.isSome_iff_exists.mp (show
    (run (systemStep shellImage) bootSystem (fourTicks.map .step)).isSome by decide +kernel)
  have he : shellsSystem = q := by rw [shellsSystem, hq, Option.getD_some]
  -- a tick adds no halt to those of the state at boot, where there is none
  have hno : ∀ p, ¬ bootSystem.Halted p := by
    rintro p ⟨pc, h | ⟨p', h⟩⟩ <;> cases h
  have hticks : Guarded (systemStep shellImage) (fun _ e => ∃ esp ebp k, e = .step (.tick esp ebp k)) bootSystem
      (fourTicks.map .step) := by
    refine guarded_of_forall fun e he q => ?_
    obtain ⟨e', he', rfl⟩ := List.mem_map.mp he
    exact ⟨0, 0, emptyFrame, by rw [List.eq_of_mem_replicate he']⟩
  have ha : Always (systemStep shellImage) (fun q : System => ∀ p, ¬ q.Halted p) bootSystem (fourTicks.map .step) := by
    refine Guarded.always (fun _ h => h) ?_ hno hticks
    rintro q e q' h ⟨esp, ebp, k, rfl⟩ ht p hp
    exact h p (hp.of_tick shellImage_hasShell ht)
  refine ⟨⟨fun p h₀ h₆ => ?_, by decide +kernel, by decide +kernel, ⟨1, by decide, by decide +kernel⟩,
    by decide +kernel⟩, by decide +kernel, fun p hp => absurd hp (he ▸ ha.last hq p)⟩
  obtain rfl | rfl | rfl | rfl | rfl | rfl : p = 0 ∨ p = 1 ∨ p = 2 ∨ p = 3 ∨ p = 4 ∨ p = 5 := by omega
  all_goals decide +kernel

/-- A tick, Alt+F2, and the third shell halts with no tick in between. -/
def quietHalt : List SystemEvent :=
  .step (.tick 0 0 emptyFrame) :: .step (.key 0x38#8) :: .step (.key 0x3c#8) :: .halt 0#8 ::
    List.replicate 13 (.next emptyFrame)

theorem displayed_shellsSystem : SystemStarted shellsSystem ∧
    (run (systemStep shellImage) shellsSystem quietHalt).isSome ∧
    Always (systemStep shellImage) (fun q : System => Displayed q.kernel) shellsSystem quietHalt := by
  refine ⟨shellsSystem_started, by decide +kernel, (displayed_iff shellImage_hasShell shellsSystem_started _).mpr ?_⟩
  refine fun q _ => ⟨?_, guarded_of_forall fun e he q => ?_⟩
  · show (∀ i < 3, freePid shellsSystem.kernel = some i → i = shellsSystem.kernel.terminalNum) ∧
      ((∀ i < 3, shellsSystem.kernel.pidFlags (i : Nat) = .IN_USE) →
        shellsSystem.kernel.terminalsInitialized = true → shellsSystem.kernel.terminalNum = 0)
    decide +kernel
  · simp only [List.mem_cons, List.mem_replicate] at he
    rcases he with rfl | rfl | rfl | ⟨-, rfl⟩
    all_goals trivial

/-- The second shell halts while the first terminal is displayed, and a tick comes when its pid is free. -/
def interruptedHalt : List SystemEvent :=
  .halt 0#8 :: (List.replicate 11 (.next emptyFrame) ++ [.step (.tick 0 0 emptyFrame)])

theorem interruptedHalt_not_displayed : SystemStarted shellsSystem ∧
    ¬ Always (systemStep shellImage) (fun q : System => Displayed q.kernel) shellsSystem interruptedHalt := by
  refine ⟨shellsSystem_started, fun h => ?_⟩
  obtain ⟨q, hq⟩ := Option.isSome_iff_exists.mp (show
    (run (systemStep shellImage) shellsSystem interruptedHalt).isSome by decide +kernel)
  have hv : (run (systemStep shellImage) shellsSystem interruptedHalt).map
      (fun q => q.kernel.videoMem q.kernel.terminalNum) = some 0xBA000 := by decide +kernel
  rw [hq, Option.map_some, Option.some.injEq] at hv
  exact absurd ((h.last hq).1.symm.trans hv) (by decide)

end LimeOS
