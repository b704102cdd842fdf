import LimeOS.Proof.Screen
import LimeOS.Framework.Run

/-!
# The cursor and the stores stay on the screen

Calls of `terminal_write` and of the other screen functions, byte by byte
(`ScreenCall.steps`). Every step but a stray carriage return keeps the cursor
on the screen and stores inside the terminal's cells, and a stray one moves it
off, so the calls keep the bounds exactly when no byte of theirs is one.
-/

namespace LimeOS

/-- A call on the screen of the terminal `terminalNum`. -/
inductive ScreenCall
  | write (buf : Nat → Byte) (nbytes : Int)
  | backspace
  | clear
  | reset

def ScreenCall.exec (s : State) : ScreenCall → State
  | .write buf nbytes => (terminalWrite s buf nbytes).2
  | .backspace => backspacePressed s
  | .clear => LimeOS.clear s
  | .reset => resetScreen s

/-- What the calls come to: one step for each byte written. -/
inductive ScreenStep
  | byte (c : Byte)
  | backspace
  | clear
  | reset

def screenStep (s : State) : ScreenStep → Option State
  | .byte c => some (terminalWriteByte s c)
  | .backspace => some (backspacePressed s)
  | .clear => some (clear s)
  | .reset => some (resetScreen s)

def ScreenCall.steps : ScreenCall → List ScreenStep
  | .write buf nbytes => ((List.range nbytes.toNat).map buf).map .byte
  | .backspace => [.backspace]
  | .clear => [.clear]
  | .reset => [.reset]

theorem run_bytes (l : List Byte) (s : State) :
    run screenStep s (l.map .byte) = some (l.foldl terminalWriteByte s) := by
  induction l generalizing s with
  | nil => rfl
  | cons c l ih =>
    rw [List.map_cons, run_cons (show screenStep s (.byte c) = some (terminalWriteByte s c) from rfl)]
    exact ih _

theorem run_steps (call : ScreenCall) (s : State) : run screenStep s call.steps = some (call.exec s) := by
  cases call with
  | write buf nbytes => exact run_bytes _ s
  | backspace => rfl
  | clear => rfl
  | reset => rfl

theorem run_calls (calls : List ScreenCall) (s : State) :
    run screenStep s (calls.flatMap ScreenCall.steps) = some (calls.foldl ScreenCall.exec s) := by
  induction calls generalizing s with
  | nil => rfl
  | cons c calls ih =>
    rw [List.flatMap_cons, run_append, run_steps, Option.bind_some]
    exact ih _

/-- The cursor is on the screen, and every store since `s₀` was inside the cells
of the terminal. -/
def InBounds (s₀ s : State) : Prop :=
  InRange s s₀.terminalNum ∧ Mem.Stores (InCells (s₀.videoMem s₀.terminalNum)) s₀.mem s.mem

/-- The byte written, if any, is no stray carriage return. -/
def NoStrayReturn (s : State) (e : ScreenStep) : Prop := ∀ c, e = .byte c → ¬ StrayReturn s c

theorem screenStep_frame {s s' : State} {e : ScreenStep} (h : screenStep s e = some s') : ScreenFrame s s' := by
  cases e <;> cases h
  · exact terminalWriteByte_frame _ _
  · exact backspacePressed_frame _
  · exact clear_frame _
  · exact resetScreen_frame _

/-- A step on the terminal `s₀` is on, from a state in bounds. -/
theorem screenStep_inBounds {s₀ s s' : State} {e : ScreenStep} (hf : ScreenFrame s₀ s) (h : InBounds s₀ s)
    (hok : NoStrayReturn s e) (hs : screenStep s e = some s') : InBounds s₀ s' := by
  obtain ⟨hr, hm⟩ := h
  unfold InBounds
  rw [← hf.terminalNum, ← hf.videoMem] at *
  cases e with
  | byte c =>
    cases hs
    obtain ⟨hr', hm'⟩ := terminalWriteByte_inRange hr (hok c rfl)
    exact ⟨hr', hm.trans hm'⟩
  | backspace =>
    cases hs
    obtain ⟨hr', hm'⟩ := backspacePressed_inRange hr
    exact ⟨hr', hm.trans hm'⟩
  | clear =>
    cases hs
    exact ⟨⟨hr.x, hr.y⟩, hm.trans (clear_stores s)⟩
  | reset =>
    cases hs
    refine ⟨(resetScreen_cursor s).inRange (by decide) (by decide), ?_⟩
    rw [resetScreen_mem]
    exact hm

/-- From the first cell, calls on the screen of any terminal keep the cursor on
the screen after every byte, and store inside its cells, exactly when none of
their bytes is a stray carriage return. -/
theorem screenCalls_inBounds_iff (s : State) (hx : s.screenX s.terminalNum = 0)
    (hy : s.screenY s.terminalNum = 0) (calls : List ScreenCall) :
    run screenStep s (calls.flatMap ScreenCall.steps) = some (calls.foldl ScreenCall.exec s) ∧
      (Always screenStep (InBounds s) s (calls.flatMap ScreenCall.steps) ↔
        Guarded screenStep NoStrayReturn s (calls.flatMap ScreenCall.steps)) := by
  refine ⟨run_calls calls s, always_iff_guarded (I := fun s' => ScreenFrame s s' ∧ InBounds s s')
    (fun _ h => h.2) (fun s₁ e s₂ h hok hs => ?_) (fun s₁ e s₂ h hok hs hb => ?_) ?_⟩
  · exact ⟨h.1.trans (screenStep_frame hs), screenStep_inBounds h.1 h.2 hok hs⟩
  · -- the step is a stray carriage return, after which the cursor is on row 25
    simp only [NoStrayReturn, not_forall, not_not] at hok
    obtain ⟨c, rfl, hc⟩ := hok
    cases hs
    have hr : InRange s₁ s₁.terminalNum := by rw [h.1.terminalNum]; exact h.2.1
    have hy := terminalWriteByte_stray hr hc
    have := hb.1.y.2
    rw [h.1.terminalNum] at hy
    omega
  · exact ⟨.refl s, ⟨⟨by omega, by omega⟩, ⟨by omega, by omega⟩⟩, .refl _ _⟩

/-- Twenty-four newlines and a carriage return. -/
def strayBuffer (i : Nat) : Byte := if i < 24 then 0x0a#8 else 0x0d#8

theorem screenCalls_inBounds_newlines :
    Always screenStep (InBounds boot) boot ([ScreenCall.write strayBuffer 24].flatMap ScreenCall.steps) ↔
      Guarded screenStep NoStrayReturn boot ([ScreenCall.write strayBuffer 24].flatMap ScreenCall.steps) :=
  (screenCalls_inBounds_iff boot rfl rfl [.write strayBuffer 24]).2

theorem screenCalls_stray_not_inBounds :
    ¬ Always screenStep (InBounds boot) boot ([ScreenCall.write strayBuffer 25].flatMap ScreenCall.steps) := by
  intro h
  have hr := run_calls [.write strayBuffer 25] boot
  have hy : ([ScreenCall.write strayBuffer 25].foldl ScreenCall.exec boot).screenY 0 = 25 := by decide +kernel
  have := (h.last hr).1.y.2
  rw [show boot.terminalNum = 0 from rfl, hy] at this
  omega

end LimeOS
