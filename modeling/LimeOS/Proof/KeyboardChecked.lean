import LimeOS.Impl.KeyboardChecked
import LimeOS.Proof.Reader

/-!
# The keyboard stays in its buffers

The line's index moves in four places, and Enter stores one byte after a line
that may be full. With the indices from -1 to 126 between two keys (`Bounded`)
every access of the handler is within its array (`keyboardHandlerChecked_eq`),
the indices stay there (`Bounded.press`), and a line that Enter hands over has
its newline in the buffer (`keyboard_safe`).
-/

namespace LimeOS

/-! ## The accesses -/

theorem inArray_eq {i : Int} {n : Nat} (h₀ : 0 ≤ i) (h : i < n) : inArray i n = some () := if_pos ⟨h₀, h⟩

theorem inArray_terminal {t : Nat} (h : t < 3) : inArray t TERMINAL_COUNT = some () := by
  apply inArray_eq (by omega)
  show (t : Int) < (3 : Nat)
  omega

/-- The indices between two keys. -/
structure Bounded (s : State) : Prop where
  terminal : s.terminalNum < 3
  index : ∀ t < 3, -1 ≤ s.bufIndex t ∧ s.bufIndex t ≤ 126
  settled : Settled s

theorem scancodeTableChecked_eq (s : State) {c : Byte} (hc : ¬ c.toNat > TABLE_SIZE) :
    scancodeTableChecked (tableIndex s) c = some (scancodeTable (tableIndex s) c) := by
  have hi : tableIndex s < 4 := by
    have h₁ := s.capslockFlag.toNat_le
    have h₂ := s.shiftFlag.toNat_le
    simp only [tableIndex]
    omega
  rw [scancodeTableChecked, inArray_eq (by omega) (by omega), inArray_eq (by omega) (by omega)]
  rfl

theorem pushCharChecked_eq {s : State} (ht : s.terminalNum < 3)
    (hi : -1 ≤ s.bufIndex s.terminalNum ∧ s.bufIndex s.terminalNum ≤ 126) (b : Byte) :
    pushCharChecked s b = some (pushChar s b) := by
  have hbuf : inArray (s.bufIndex s.terminalNum + 1) CHARACTER_BUFFER_SIZE = some () := by
    apply inArray_eq (by omega)
    show s.bufIndex s.terminalNum + 1 < (128 : Nat)
    omega
  rw [pushCharChecked, inArray_terminal ht, hbuf]
  rfl

theorem commitLineChecked_eq (charBuf : Nat → Byte) {n i : Nat} (h : i + n ≤ CHARACTER_BUFFER_SIZE) (m : Mem) :
    commitLineChecked charBuf n i m = some (commitLine charBuf n i m) := by
  induction n generalizing i m with
  | zero => rfl
  | succ n ih =>
    rw [commitLineChecked, commitLine, inArray_eq (by omega) (by omega)]
    simp only [Option.bind_eq_bind, Option.bind_some]
    split
    · rfl
    · exact ih (by omega) _

theorem enterPressedChecked_eq {s : State} (ht : s.terminalNum < 3)
    (hi : -1 ≤ s.bufIndex s.terminalNum ∧ s.bufIndex s.terminalNum ≤ 126) :
    enterPressedChecked s = some (enterPressed s) := by
  unfold enterPressedChecked enterPressed
  rw [pushCharChecked_eq (s := { s with enterFlag := true }) ht hi]
  have ht₁ : (pushChar { s with enterFlag := true } 0x0a#8).terminalNum < 3 := ht
  generalize pushChar { s with enterFlag := true } 0x0a#8 = s₁ at ht₁
  simp only [Option.bind_eq_bind, Option.bind_some, inArray_terminal ht₁,
    commitLineChecked_eq _ (Nat.zero_add _).le, Option.pure_def]
  by_cases h₀ : (s₁.commandBuf s₁.terminalNum).byte 0 = 0#8
  · rw [if_pos h₀, if_pos h₀]
  · rw [if_neg h₀, if_neg h₀]

theorem defaultKeyPressedChecked_eq {s : State} (h : Bounded s) (c : Byte) :
    defaultKeyPressedChecked s c = some (defaultKeyPressed s c) := by
  have hi := h.index _ h.terminal
  have ht := h.terminal
  have htty := inArray_terminal ht
  have htty' : inArray (resetScreen (clear s)).terminalNum TERMINAL_COUNT = some () := by
    rw [((clear_frame s).trans (resetScreen_frame (clear s))).terminalNum]
    exact htty
  unfold defaultKeyPressedChecked defaultKeyPressed
  by_cases h₁ : s.altFlag ∧ KEY_F1 ≤ c ∧ c ≤ KEY_F3
  · rw [if_pos h₁, if_pos h₁]
  rw [if_neg h₁, if_neg h₁]
  by_cases h₂ : c.toNat > TABLE_SIZE
  · rw [if_pos h₂, if_pos h₂]
  rw [if_neg h₂, if_neg h₂, scancodeTableChecked_eq s h₂]
  simp only [htty, htty', pushCharChecked_eq (s := { s with isAdd := true }) ht hi, Option.bind_eq_bind,
    Option.bind_some, Option.pure_def, apply_ite some]

theorem keyboardOutputDealerChecked_eq {s : State} (h : Bounded s) (c : Byte) :
    keyboardOutputDealerChecked s c = some (keyboardOutputDealer s c) := by
  have ht := h.terminal
  have htty := inArray_terminal ht
  unfold keyboardOutputDealerChecked keyboardOutputDealer
  rw [enterPressedChecked_eq ht (h.index _ ht), defaultKeyPressedChecked_eq h]
  simp only [htty, Option.bind_eq_bind, Option.bind_some, Option.pure_def, apply_ite some]

/-! ## The indices -/

theorem Input.setIndex_bufIndex {k : Input} {i : Int} (hk : ∀ t < 3, -1 ≤ k.bufIndex t ∧ k.bufIndex t ≤ 126)
    (hi : -1 ≤ i ∧ i ≤ 126) : ∀ t < 3, -1 ≤ (k.setIndex i).bufIndex t ∧ (k.setIndex i).bufIndex t ≤ 126 := by
  intro t ht
  simp only [Input.setIndex, Function.update_apply]
  split
  · exact hi
  · exact hk t ht

/-- A key press leaves every line's index from -1 to 126. -/
theorem Input.press_bounds {k : Input} {op : KeyOp} (ht : k.terminalNum < 3)
    (hk : ∀ t < 3, -1 ≤ k.bufIndex t ∧ k.bufIndex t ≤ 126) (hop : ∀ t, op = .switch t → t < 3) :
    (k.press op).terminalNum < 3 ∧ ∀ t < 3, -1 ≤ (k.press op).bufIndex t ∧ (k.press op).bufIndex t ≤ 126 := by
  have hi : -1 ≤ k.index ∧ k.index ≤ 126 := hk _ ht
  cases op with
  | type b =>
    rw [Input.press]
    split
    · exact ⟨ht, Input.setIndex_bufIndex hk (by omega)⟩
    · exact ⟨ht, hk⟩
  | enter =>
    -- the index may be 127 while the line is handed over, and is -1 after it
    have hc : (k.push 0x0a#8).commit.terminalNum = k.terminalNum ∧
        (k.push 0x0a#8).commit.bufIndex = Function.update k.bufIndex k.terminalNum (k.index + 1) := by
      rw [Input.commit]
      split
      · exact ⟨rfl, rfl⟩
      · exact ⟨rfl, rfl⟩
    refine ⟨hc.1.trans_lt ht, ?_⟩
    simp only [Input.press, Input.setIndex, hc, Function.update_idem]
    exact Input.setIndex_bufIndex hk (by decide)
  | backspace =>
    rw [Input.press]
    split
    · exact ⟨ht, Input.setIndex_bufIndex hk (by omega)⟩
    · exact ⟨ht, hk⟩
  | clear => exact ⟨ht, Input.setIndex_bufIndex hk (by decide)⟩
  | switch newTty => exact ⟨hop newTty rfl, hk⟩
  | other => exact ⟨ht, hk⟩

theorem Bounded.key {s : State} (h : Bounded s) (c : Byte) : Bounded (keyboardHandler s c) := by
  have hi := (keyboardHandler_input c h.settled.enterFlag).1
  obtain ⟨h₁, h₂⟩ := Input.press_bounds (k := s.input) h.terminal h.index (fun t => keyOp_switch_lt (s := s) (c := c))
  rw [← hi] at h₁ h₂
  exact ⟨h₁, h₂, keyboardHandler_settled s c⟩

theorem keyboardOutputDealer_terminalNum {s : State} (h : Bounded s) (c : Byte) :
    (keyboardOutputDealer s c).terminalNum < 3 := by
  have hd := keyboardOutputDealer_done c h.settled.enterFlag
  obtain ⟨h₁, -⟩ := Input.press_bounds (k := s.input) h.terminal h.index (fun t => keyOp_switch_lt (s := s) (c := c))
  rw [← hd] at h₁
  revert h₁
  split
  · exact id
  · exact id

/-- What is to be shown after the dealer is within the buffer. -/
theorem keyboardOutputDealer_index {s : State} (h : Bounded s) (c : Byte)
    (ha : (keyboardOutputDealer s c).isAdd = true) :
    0 ≤ (keyboardOutputDealer s c).bufIndex (keyboardOutputDealer s c).terminalNum ∧
      (keyboardOutputDealer s c).bufIndex (keyboardOutputDealer s c).terminalNum ≤ 127 := by
  have hd := keyboardOutputDealer_dealt s c
  have hi := h.index _ h.terminal
  generalize keyboardOutputDealer s c = s' at hd ha ⊢
  by_cases ht : ∃ b, keyOp s c = .type b
  · obtain ⟨b, hk⟩ := ht
    rw [hk, Dealt] at hd
    by_cases hlt : s.bufIndex s.terminalNum < 126
    · rw [if_pos hlt] at hd
      subst hd
      simp only [pushChar, Function.update_self]
      omega
    · rw [if_neg hlt] at hd
      subst hd
      exact absurd (ha.symm.trans h.settled.isAdd) (by decide)
  by_cases he : keyOp s c = .enter
  · rw [he, Dealt] at hd
    subst hd
    rw [enterPressed_eq]
    simp only [pushChar, Function.update_self]
    omega
  · have hs := hd.settled h.settled (fun b hb => ht ⟨b, hb⟩) he
    exact absurd (ha.symm.trans hs.isAdd) (by decide)

/-- Every index of the handler is within its array. -/
theorem keyboardHandlerChecked_eq {s : State} (h : Bounded s) (c : Byte) :
    keyboardHandlerChecked s c = some (keyboardHandler s c) := by
  have ht := keyboardOutputDealer_terminalNum h c
  have hi := keyboardOutputDealer_index h c
  unfold keyboardHandlerChecked keyboardHandler
  rw [keyboardOutputDealerChecked_eq h]
  generalize keyboardOutputDealer s c = s₁ at ht hi
  simp only [Option.bind_eq_bind, Option.bind_some, Option.pure_def]
  by_cases ha : s₁.isAdd
  · have hbuf : inArray (s₁.bufIndex s₁.terminalNum) CHARACTER_BUFFER_SIZE = some () := by
      apply inArray_eq (hi ha).1
      show s₁.bufIndex s₁.terminalNum < (128 : Nat)
      have := (hi ha).2
      omega
    have hterm := (terminalWrite_frame s₁ (fun i => s₁.charBuf.byte (s₁.bufIndex s₁.terminalNum + i).toNat) 1).terminalNum
    simp only [if_pos ha, inArray_terminal ht, hbuf, Option.bind_some, hterm, apply_ite some]
  · simp only [if_neg ha, inArray_terminal ht, Option.bind_some, apply_ite some]

/-! ## The line handed over -/

/-- The copying loop ends at a newline within its bytes. -/
theorem copyLine_isSome (line : Nat → Byte) {j n i : Nat} (buf : Mem) (hj : j < n) (hl : line (i + j) = 0x0a#8) :
    (copyLine line n i buf).isSome := by
  induction n generalizing j i buf with
  | zero => omega
  | succ n ih =>
    rw [copyLine]
    by_cases h : line i = 0x0a#8
    · rw [if_pos h]
      rfl
    · rw [if_neg h]
      have hne : j ≠ 0 := by
        rintro rfl
        exact h hl
      exact ih (j := j - 1) (i := i + 1) _ (by omega) (by rwa [show i + 1 + (j - 1) = i + j by omega])

/-- What Enter writes for a reader that waits. -/
theorem keyboardHandler_commits {s : State} (h : Bounded s) (h₀ : (s.commandBuf s.terminalNum).byte 0 = 0#8) :
    ∃ i ≤ 127, ((keyboardHandler s PRESS_ENTER).commandBuf s.terminalNum).byte i = 0x0a#8 := by
  have hi := h.index _ h.terminal
  have hin : (keyboardHandler s PRESS_ENTER).commandBuf = (s.input.press .enter).commandBuf :=
    congrArg Input.commandBuf (keyboardHandler_input PRESS_ENTER h.settled.enterFlag).1
  obtain ⟨i, hle, hb⟩ := (commitLine_enter hi (s.commandBuf s.terminalNum)).2
  refine ⟨i, hle, ?_⟩
  rw [hin]
  simpa [Input.press, Input.push, Input.commit, Input.setIndex, Input.index, State.input, h₀] using hb

/-- Nothing of the keyboard's runs past its buffers: the indices are in range and
nothing is left over from the last key; every access for any next key is within
its array; and when Enter sets a terminal's flag, its buffer has a newline, at
which `terminal_read` stops. -/
structure KeyboardSafe (s : State) : Prop where
  index : ∀ t < 3, -1 ≤ s.bufIndex t ∧ s.bufIndex t ≤ 126
  settled : Settled s
  accesses : ∀ c, keyboardHandlerChecked s c = some (keyboardHandler s c)
  /-- Only Enter sets a flag, with the first byte of the buffer zero. -/
  sets : ∀ c t, (keyboardHandler s c).tEnterFlag t ≠ s.tEnterFlag t →
    c = PRESS_ENTER ∧ t = s.terminalNum ∧ (s.commandBuf t).byte 0 = 0#8
  newline : ∀ t, t = s.terminalNum → (s.commandBuf t).byte 0 = 0#8 →
    let s' := keyboardHandler s PRESS_ENTER
    s'.tEnterFlag t = true ∧ (∃ i ≤ 127, (s'.commandBuf t).byte i = 0x0a#8) ∧
      ∀ buf, (copyLine (s'.commandBuf t).byte CHARACTER_BUFFER_SIZE 0 buf).isSome

theorem Bounded.safe {s : State} (h : Bounded s) : KeyboardSafe s := by
  have hflag := keyboardHandler_tEnterFlag (h.index _ h.terminal)
  refine ⟨h.index, h.settled, keyboardHandlerChecked_eq h, fun c t hne => ?_, ?_⟩
  · rw [hflag c] at hne
    split at hne
    · rename_i hc
      by_cases ht : t = s.terminalNum
      · exact ⟨hc.1, ht, ht ▸ hc.2⟩
      · exact absurd (Function.update_of_ne ht _ _) hne
    · exact absurd rfl hne
  · rintro t rfl h₀
    obtain ⟨i, hi, hb⟩ := keyboardHandler_commits h h₀
    refine ⟨?_, ⟨i, hi, hb⟩, fun buf => ?_⟩
    · rw [hflag, if_pos ⟨rfl, h₀⟩, Function.update_self]
    · refine copyLine_isSome _ (j := i) buf ?_ (by rwa [Nat.zero_add])
      show i < 128
      omega

theorem Bounded.step (s : State) (e : KeyboardEvent) (s' : State) (h : Bounded s) (hs : keyboardStep s e = some s') :
    Bounded s' := by
  cases e with
  | key c =>
    obtain rfl := Option.some.inj hs
    exact h.key c
  | clearFlag t =>
    obtain rfl := Option.some.inj hs
    exact ⟨h.terminal, h.index, h.settled.isAdd, h.settled.enterFlag⟩
  | clearByte t =>
    obtain rfl := Option.some.inj hs
    exact ⟨h.terminal, h.index, h.settled.isAdd, h.settled.enterFlag⟩

/-- For every sequence of scancodes and of clearings by the readers of the terminals. -/
theorem keyboard_safe (s : State) (h : Bounded s) (es : List KeyboardEvent) : Always keyboardStep KeyboardSafe s es :=
  always_inv (I := Bounded) (fun _ h => h.safe) Bounded.step h

theorem boot_bounded : Bounded boot :=
  ⟨by decide, fun _ _ => ⟨Int.le_refl (-1), show (-1 : Int) ≤ 126 by decide⟩, rfl, rfl⟩

/-- A reader waits on the second terminal, where `a` and Enter are typed. -/
theorem keyboard_safe_boot :
    ((run keyboardStep boot [.key PRESS_ALT, .key 0x3c#8, .clearFlag 1, .clearByte 1, .key 0x1e#8, .key PRESS_ENTER]).map
      fun s => (s.terminalNum, s.tEnterFlag 1, (s.commandBuf 1).byte 1)) = some (1, true, 0x0a#8) ∧
    Always keyboardStep KeyboardSafe boot
      [.key PRESS_ALT, .key 0x3c#8, .clearFlag 1, .clearByte 1, .key 0x1e#8, .key PRESS_ENTER] :=
  ⟨by decide +kernel, keyboard_safe boot boot_bounded _⟩

end LimeOS
