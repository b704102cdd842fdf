import LimeOS.Proof.Switch

/-!
# A process that waits

While another process runs, and through every interrupt, nothing of a live
process changes: its memory, its descriptors, its arguments and its terminal
(`Waits`).
-/

namespace LimeOS

theorem keyboardHandler_frame_eq (s : State) (c : Byte) : (keyboardHandler s c).frame = s.frame := by
  have hkey : ∀ {s₁ s₂ : State}, KeyFrame s₁ s₂ → s₂.frame = s₁.frame := by
    intro s₁ s₂ h
    rw [h]
  rcases keyboardHandler_frame s c with ⟨-, b, f, h⟩ | ⟨-, ⟨n, -, h⟩ | h⟩
  · rw [hkey h]
  · rw [hkey h, terminalSwitch, updateCursor_frame]
  · exact hkey h

/-! ## A live process that does not run -/

/-- Process `q` is live in `s'`, and has there what it has in `s`. -/
structure Waits (q : Int) (s s' : State) : Prop where
  pidFlags : s'.pidFlags q = .IN_USE
  frame : s'.frame q = s.frame q
  fdEntry : (s'.pcb q).fdEntry = (s.pcb q).fdEntry
  args : (s'.pcb q).args = (s.pcb q).args
  tty : (s'.pcb q).tty = (s.pcb q).tty

namespace Waits

variable {img : Image} {q : Int} {s₀ s s' : State}

theorem refl (h : s.pidFlags q = .IN_USE) : Waits q s s := ⟨h, rfl, rfl, rfl, rfl⟩

theorem trans (h₁ : Waits q s₀ s) (h₂ : Waits q s s') : Waits q s₀ s' :=
  ⟨h₂.pidFlags, h₂.frame.trans h₁.frame, h₂.fdEntry.trans h₁.fdEntry, h₂.args.trans h₁.args, h₂.tty.trans h₁.tty⟩

/-- The control block and the memory of the process are as they were. -/
theorem of_eq (h : Waits q s₀ s) (hf : s'.pidFlags q = s.pidFlags q) (hm : s'.frame q = s.frame q)
    (hp : s'.pcb q = s.pcb q) : Waits q s₀ s' :=
  h.trans ⟨by rw [hf]; exact h.pidFlags, hm, by rw [hp], by rw [hp], by rw [hp]⟩

theorem screen (h : Waits q s₀ s) (hf : ScreenFrame s s') : Waits q s₀ s' := by
  rw [hf]
  exact ⟨h.pidFlags, h.frame, h.fdEntry, h.args, h.tty⟩

theorem ne_of_free (h : Waits q s₀ s) {n : Int} (hn : s.pidFlags n = .FREE) : q ≠ n := by
  intro e
  rw [← e, h.pidFlags] at hn
  cases hn

theorem start (h : Waits q s₀ s) {n : Nat} (hn : freePid s = some n) (k : ExecuteFrame) (page args : Nat → Byte) :
    Waits q s₀ (started s k n page args) := by
  have hne := h.ne_of_free (freePid_eq_some hn).2.1
  refine h.of_eq ?_ ?_ ?_
  · exact Function.update_of_ne hne _ _
  · exact Function.update_of_ne hne _ _
  · exact Function.update_of_ne hne _ _

theorem load (h : Waits q s₀ s) {n : Nat} (hn : freePid s = some n) (page : Nat → Byte) :
    Waits q s₀ (loading s n page) := by
  have hne := h.ne_of_free (freePid_eq_some hn).2.1
  exact h.of_eq (Function.update_of_ne hne _ _) (Function.update_of_ne hne _ _) rfl

theorem caught (h : Waits q s₀ s) (hc : Caught s s') : Waits q s₀ s' :=
  h.of_eq (by rw [hc.still.quiet.pidFlags]) (by rw [hc.frame_eq]) (by rw [hc.pcb])

theorem starting (P : State → Prop) (hP : ∀ {s s' : State}, ScreenFrame s s' → P s → P s') :
    Starting (fun s => Waits q s₀ s ∧ P s) (Waits q s₀) where
  screen hf h := ⟨h.1.screen hf, hP hf h.2⟩
  start k page args hn h := h.1.start hn k page args

theorem save (h : Waits q s₀ s) (esp ebp : Nat) : Waits q s₀ (saveContext s esp ebp) := by
  have hp := saveContext_pcb s esp ebp q
  refine h.trans ⟨h.pidFlags, rfl, ?_, ?_, ?_⟩
  all_goals
    rw [hp]
    split <;> rfl

theorem dispatched (h : Waits q s₀ s) : Waits q s₀ (dispatch s).state := by
  have hd : (dispatch s).state.pidFlags = s.pidFlags ∧ (dispatch s).state.frame = s.frame ∧
      (dispatch s).state.pcb = s.pcb := by
    simp only [dispatch, TickResult.state]
    rw [updateCursor_frame]
    cases s.terminalsInitialized <;> exact ⟨rfl, rfl, rfl⟩
  exact h.of_eq (by rw [hd.1]) (by rw [hd.2.1]) (by rw [hd.2.2])

theorem close (h : Waits q s₀ s) (hne : s.currentPid ≠ q) {fd : Int} {r : Int × State} (hc : sysClose s fd = .ok r) :
    Waits q s₀ r.2 := by
  have hs := sysClose_steady hc
  exact h.of_eq (by rw [hs.pidFlags]) (by rw [(sysClose_callFrame hc).frame]) (hs.other q hne.symm)

theorem halting : Halting (fun s => Waits q s₀ s ∧ s.currentPid ≠ q) (Waits q s₀) where
  toStarting := starting (fun s => s.currentPid ≠ q) fun hf h => by rwa [hf.currentPid]
  load page hn h := ⟨h.1.load hn page, h.2⟩
  status p v h := by
    refine ⟨h.1.trans ⟨h.1.pidFlags, rfl, ?_, ?_, ?_⟩, h.2⟩
    all_goals
      simp only [State.setPcb, Function.update_apply]
      split
      · rename_i e
        rw [e]
      · rfl
  close hc h := ⟨h.1.close h.2 hc, by rw [(sysClose_steady hc).currentPid]; exact h.2⟩
  free h := ⟨h.1.of_eq (Function.update_of_ne h.2.symm _ _) rfl rfl, h.2⟩
  resume h := h.1.of_eq rfl rfl rfl

theorem ticking : Ticking (Waits q s₀) (fun s => Waits q s₀ s ∧ s.currentPid ≠ q) (Waits q s₀) where
  toHalting := halting
  save esp ebp h := h.save esp ebp
  shell _ _ hfree h := ⟨⟨h.pidFlags, h.frame, h.fdEntry, h.args, h.tty⟩, Ne.symm (h.ne_of_free hfree)⟩
  back h := h.1
  dispatch h := h.dispatched

/-- Whatever happens while `q` does not run, and every interrupt, leaves `q` as it is. -/
theorem step {e : Step} (h : Waits q s₀ s) (he : e.Other q s) (hs : step img s e = some s') :
    Waits q s₀ s' := by
  cases e with
  | tick esp ebp k => exact ticking.tick hs h
  | key c =>
    obtain rfl := Option.some.inj hs
    have hk := keyboardHandler_still s c
    exact h.of_eq (by rw [hk.quiet.pidFlags]) (by rw [keyboardHandler_frame_eq]) (by rw [hk.pcb])
  | rtc =>
    obtain rfl := Option.some.inj hs
    exact h.of_eq rfl rfl rfl
  | execute command k =>
    have hne := he.resolve_left id
    exact halting.handled hs (fun _ hr => halting.toStarting.execute (fun _ h => h.1) hr ⟨h, hne⟩)
      fun _ hr => halting.execute_fault hr ⟨h, hne⟩
  | halt status k =>
    have hi : Waits q s₀ s ∧ s.currentPid ≠ q := ⟨h, he.resolve_left id⟩
    exact halting.handled hs (fun _ hr => halting.halt256 hr hi) fun _ hr => halting.halt256_fault hr hi
  | exception v k =>
    have hi : Waits q s₀ s ∧ s.currentPid ≠ q := ⟨h, he.resolve_left id⟩
    exact halting.handled hs (fun _ hr => halting.exceptionHandler hr hi)
      fun _ hr => halting.exceptionHandler_fault hr hi
  | fd c k =>
    have hne := he.resolve_left id
    refine halting.handled hs (fun r hr => ?_) fun s₁ hr => ?_
    · have hf := fdCall_steady hr
      exact h.of_eq (by rw [hf.pidFlags]) (by rw [(fdCall_callFrame hr).frame]) (hf.other q hne.symm)
    · have hc := (fdCall_eq_fault hr).1
      exact ⟨h.caught hc, by rwa [hc.still.quiet.currentPid]⟩
  | getargs buf nbytes k =>
    have hne := he.resolve_left id
    refine halting.handled hs (fun r hr => ?_) fun s₁ hr => ?_
    · rw [getargsThrough_eq_ok hr]
      have hf := getargs_aside s (buf.map Buffer.mem) nbytes
      exact h.of_eq (by rw [hf.pidFlags]) (by rw [(getargs_callFrame s _ nbytes).frame]) (hf.other q hne.symm)
    · have hc := (getargsThrough_eq_fault hr).1
      exact ⟨h.caught hc, by rwa [hc.still.quiet.currentPid]⟩
  | vidmap screenStart k =>
    have hne := he.resolve_left id
    refine halting.handled hs (fun r hr => ?_) fun s₁ hr => ?_
    · have hf := vidmap_still hr
      refine h.of_eq (by rw [hf.quiet.pidFlags]) ?_ (by rw [hf.pcb])
      unfold vidmap at hr
      split at hr
      · obtain rfl := Except.ok.inj hr
        rfl
      · split at hr
        · cases hr
        · obtain rfl := Except.ok.inj hr
          exact Function.update_of_ne hne.symm _ _
    · rw [vidmap_eq_fault hr]
      exact ⟨h, hne⟩

end Waits

end LimeOS
