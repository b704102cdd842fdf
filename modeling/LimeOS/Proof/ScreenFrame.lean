import LimeOS.Impl.Keyboard

/-!
# What the screen functions and the keyboard change

The screen functions change the video memory, the cursors and the VGA's
cursor, and nothing else of the state (`ScreenFrame`), whatever the cursor.
A key changes these and the variables of the keyboard's handler (`KeyFrame`);
only Enter and Alt+F1 to Alt+F3 change more (`keyboardHandler_frame`).
-/

namespace LimeOS

/-- `s'` is `s` but for the video memory and the cursors. -/
def ScreenFrame (s s' : State) : Prop :=
  s' = { s with mem := s'.mem, screenX := s'.screenX, screenY := s'.screenY, cursor := s'.cursor }

namespace ScreenFrame

variable {s s₁ s₂ : State}

theorem refl (s : State) : ScreenFrame s s := rfl

theorem trans (h₁ : ScreenFrame s s₁) (h₂ : ScreenFrame s₁ s₂) : ScreenFrame s s₂ := by
  unfold ScreenFrame at *
  rw [h₂, h₁]

theorem foldl {α : Type} {f : State → α → State} (hf : ∀ s x, ScreenFrame s (f s x)) :
    ∀ (l : List α) (s : State), ScreenFrame s (l.foldl f s)
  | [], s => refl s
  | x :: l, s => (hf s x).trans (foldl hf l (f s x))

theorem terminalNum (h : ScreenFrame s s₁) : s₁.terminalNum = s.terminalNum := by rw [h]
theorem currentPid (h : ScreenFrame s s₁) : s₁.currentPid = s.currentPid := by rw [h]
theorem videoMem (h : ScreenFrame s s₁) : s₁.videoMem = s.videoMem := by rw [h]
theorem pcb (h : ScreenFrame s s₁) : s₁.pcb = s.pcb := by rw [h]
theorem pt1 (h : ScreenFrame s s₁) : s₁.pt1 = s.pt1 := by rw [h]

end ScreenFrame

theorem updateCursor_frame (s : State) (x y : Int) : ScreenFrame s (updateCursor s x y) := by
  unfold updateCursor
  split <;> rfl

@[simp] theorem updateCursor_mem (s : State) (x y : Int) : (updateCursor s x y).mem = s.mem := by
  unfold updateCursor
  split <;> rfl

@[simp] theorem updateCursor_screenX (s : State) (x y : Int) : (updateCursor s x y).screenX = s.screenX := by
  unfold updateCursor
  split <;> rfl

@[simp] theorem updateCursor_screenY (s : State) (x y : Int) : (updateCursor s x y).screenY = s.screenY := by
  unfold updateCursor
  split <;> rfl

theorem clear_frame (s : State) : ScreenFrame s (clear s) := by simp only [ScreenFrame, clear]

theorem putc_frame (s : State) (c : Byte) : ScreenFrame s (putc s c) := by
  unfold putc
  simp only
  split <;> rfl

theorem resetScreen_frame (s : State) : ScreenFrame s (resetScreen s) := by
  unfold resetScreen
  refine ScreenFrame.trans ?_ (updateCursor_frame _ _ _)
  rfl

theorem backspacePressed_frame (s : State) : ScreenFrame s (backspacePressed s) := by
  unfold backspacePressed
  refine ScreenFrame.trans ?_ (updateCursor_frame _ _ _)
  rfl

theorem scrollScreen_frame (s : State) : ScreenFrame s (scrollScreen s) := by
  simp only [ScreenFrame, scrollScreen]

theorem scrollScreen_if_frame (s : State) (p : Prop) [Decidable p] :
    ScreenFrame s (if p then scrollScreen s else s) := by
  split
  · exact scrollScreen_frame s
  · exact .refl s

theorem terminalWriteByte_frame (s : State) (c : Byte) : ScreenFrame s (terminalWriteByte s c) := by
  unfold terminalWriteByte
  exact ((scrollScreen_if_frame s _).trans (scrollScreen_if_frame _ _)).trans (putc_frame _ c)

theorem terminalWrite_frame (s : State) (buf : Nat → Byte) (nbytes : Int) :
    ScreenFrame s (terminalWrite s buf nbytes).2 :=
  ScreenFrame.foldl terminalWriteByte_frame _ s

theorem terminalWriteFault_frame (s : State) (buf : Nat → Byte) (i : Nat) :
    ScreenFrame s (terminalWriteFault s buf i) := by
  have h := ScreenFrame.foldl terminalWriteByte_frame ((List.range i).map buf) s
  exact h.trans (scrollScreen_if_frame _ _)

theorem printfMessage_frame (s : State) (format : List Byte) : ScreenFrame s (printfMessage s format) := by
  unfold printfMessage
  exact (scrollScreen_if_frame s _).trans (ScreenFrame.foldl putc_frame format _)

/-! ## The keyboard -/

/-- `s'` is `s` but for the screen and the variables that only the keyboard's handler uses. -/
def KeyFrame (s s' : State) : Prop :=
  s' = { s with
    mem := s'.mem
    screenX := s'.screenX
    screenY := s'.screenY
    cursor := s'.cursor
    shiftFlag := s'.shiftFlag
    ctrlFlag := s'.ctrlFlag
    capslockFlag := s'.capslockFlag
    releaseCaps := s'.releaseCaps
    enterFlag := s'.enterFlag
    altFlag := s'.altFlag
    isAdd := s'.isAdd
    bufIndex := s'.bufIndex
    charBuf := s'.charBuf }

namespace KeyFrame

variable {s s₁ s₂ : State}

theorem refl (s : State) : KeyFrame s s := rfl

theorem trans (h₁ : KeyFrame s s₁) (h₂ : KeyFrame s₁ s₂) : KeyFrame s s₂ := by
  unfold KeyFrame at *
  rw [h₂, h₁]

theorem ite {p : Prop} [Decidable p] (h₁ : KeyFrame s s₁) (h₂ : KeyFrame s s₂) :
    KeyFrame s (if p then s₁ else s₂) := by
  split
  · exact h₁
  · exact h₂

end KeyFrame

theorem ScreenFrame.keyFrame {s s' : State} (h : ScreenFrame s s') : KeyFrame s s' := by
  rw [KeyFrame, h]

/-- The three function keys are the three terminals. -/
theorem functionKey_lt {c : Byte} (h : KEY_F1 ≤ c ∧ c ≤ KEY_F3) : (c - KEY_F1).toNat < 3 := by
  bv_omega

/-- A key with no meaning of its own switches to one of the terminals, or leaves the frame. -/
theorem defaultKeyPressed_frame (s : State) (c : Byte) :
    (∃ n < 3, defaultKeyPressed s c = terminalSwitch s n) ∨ KeyFrame s (defaultKeyPressed s c) := by
  unfold defaultKeyPressed
  by_cases h : s.altFlag ∧ KEY_F1 ≤ c ∧ c ≤ KEY_F3
  · exact .inl ⟨_, functionKey_lt h.2, if_pos h⟩
  · refine .inr ?_
    simp only [if_neg h]
    refine .ite (.refl s) (.ite ?_ (.ite (.ite ?_ (.refl s)) ?_))
    · refine ((clear_frame s).trans (resetScreen_frame _)).keyFrame.trans ?_
      exact rfl
    · exact rfl
    · exact rfl

/-- A choice of states has what both have. -/
theorem ite_state (P : State → Prop) {p : Prop} [Decidable p] {s₁ s₂ : State} (h₁ : p → P s₁) (h₂ : P s₂) :
    P (if p then s₁ else s₂) := by
  split
  · rename_i h
    exact h₁ h
  · exact h₂

theorem keyboardOutputDealer_frame {s : State} {c : Byte} (hc : c ≠ PRESS_ENTER) :
    (∃ n < 3, keyboardOutputDealer s c = terminalSwitch s n) ∨ KeyFrame s (keyboardOutputDealer s c) := by
  let P (s' : State) : Prop := (∃ n < 3, s' = terminalSwitch s n) ∨ KeyFrame s s'
  show P (keyboardOutputDealer s c)
  unfold keyboardOutputDealer
  refine ite_state P (fun h => absurd h hc) (ite_state P (fun _ => .inr rfl) (ite_state P (fun _ => .inr rfl)
    (ite_state P (fun _ => .inr rfl) (ite_state P (fun _ => .inr rfl) (ite_state P (fun _ => .inr rfl)
    (ite_state P (fun _ => .inr rfl) (ite_state P (fun _ => .inr (.ite ?_ (.refl s)))
    (ite_state P (fun _ => .inr (.ite ?_ (.refl s))) (ite_state P (fun _ => .inr rfl)
    (defaultKeyPressed_frame s c))))))))))
  · refine KeyFrame.trans ?_ (backspacePressed_frame _).keyFrame
    exact rfl
  · exact rfl

/-- Enter stores a byte, and changes besides only what the reader sees. -/
theorem enterPressed_eq (s : State) : enterPressed s =
    { pushChar { s with enterFlag := true } 0x0a#8 with
      isAdd := true
      commandBuf := (enterPressed s).commandBuf
      tEnterFlag := (enterPressed s).tEnterFlag } := by
  unfold enterPressed
  generalize pushChar { s with enterFlag := true } 0x0a#8 = s₁
  simp only [setTEnterFlag]
  split
  · split <;> rfl
  · rfl

/-- Enter may set the flag of the displayed terminal and write its line. -/
theorem enterPressed_frame (s : State) : ∃ b f, KeyFrame { s with commandBuf := b, tEnterFlag := f } (enterPressed s) := by
  refine ⟨(enterPressed s).commandBuf, (enterPressed s).tEnterFlag, ?_⟩
  rw [KeyFrame, enterPressed_eq]
  rfl

theorem keyboardHandler_tail_frame (s : State) (c : Byte) : KeyFrame (keyboardOutputDealer s c) (keyboardHandler s c) := by
  unfold keyboardHandler
  simp only
  generalize keyboardOutputDealer s c = s₁
  have h₁ : KeyFrame s₁ (if s₁.isAdd then
      { (terminalWrite s₁ (fun i => s₁.charBuf.byte (s₁.bufIndex s₁.terminalNum + i).toNat) 1).2 with isAdd := false }
      else s₁) :=
    .ite ((terminalWrite_frame s₁ _ _).keyFrame.trans rfl) (.refl s₁)
  exact h₁.trans (.ite rfl (.refl _))

/-- What a key can do: Enter hands over a line, Alt+F1 to Alt+F3 switch terminals, and all other keys
concern the keyboard and the screen. -/
theorem keyboardHandler_frame (s : State) (c : Byte) :
    (c = PRESS_ENTER ∧ ∃ b f, KeyFrame { s with commandBuf := b, tEnterFlag := f } (keyboardHandler s c)) ∨
    (c ≠ PRESS_ENTER ∧ ((∃ n < 3, KeyFrame (terminalSwitch s n) (keyboardHandler s c)) ∨
      KeyFrame s (keyboardHandler s c))) := by
  have ht := keyboardHandler_tail_frame s c
  by_cases hc : c = PRESS_ENTER
  · obtain ⟨b, f, h⟩ := enterPressed_frame s
    have he : keyboardOutputDealer s c = enterPressed s := if_pos hc
    rw [he] at ht
    exact .inl ⟨hc, b, f, h.trans ht⟩
  · refine .inr ⟨hc, ?_⟩
    rcases keyboardOutputDealer_frame (s := s) hc with ⟨n, hn, h⟩ | h
    · rw [h] at ht
      exact .inl ⟨n, hn, ht⟩
    · exact .inr (h.trans ht)

end LimeOS
