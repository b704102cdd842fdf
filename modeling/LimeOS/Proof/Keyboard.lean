import LimeOS.Spec.Line
import LimeOS.Proof.ScreenFrame
import LimeOS.Framework.Run

/-!
# The lines typed on the terminals

What the keyboard handler does to the buffers (`Input`) is one operation for
each meaning of a key (`keyboardHandler_input`). `char_buf` is shared by the
terminals: while a key never stores over another terminal's half-typed line
(`Undisturbed`), each terminal's characters are those of its own line (`Typed`),
and Enter hands its reader that line (`typedLines_commit`).
-/

namespace LimeOS

/-! ## The handler on the buffers -/

/-- The keyboard's buffers and the terminal they work on. -/
@[ext] structure Input where
  terminalNum : Nat
  bufIndex : Nat → Int
  charBuf : Mem
  commandBuf : Nat → Mem

def State.input (s : State) : Input := ⟨s.terminalNum, s.bufIndex, s.charBuf, s.commandBuf⟩

/-- The meaning of a scancode, with the modifiers as they are. -/
def keyOp (s : State) (c : Byte) : KeyOp :=
  let b := scancodeTable (tableIndex s) c
  if c = PRESS_ENTER then .enter
  else if c = PRESS_BACKSPACE then .backspace
  else if s.altFlag ∧ KEY_F1 ≤ c ∧ c ≤ KEY_F3 then .switch (c - KEY_F1).toNat
  else if s.ctrlFlag ∧ (b = 0x6c#8 ∨ b = 0x4c#8) then .clear
  else if b ≠ 0#8 then .type b
  else .other

namespace Input

variable (k : Input)

/-- The index of the last character of the terminal's line. -/
def index : Int := k.bufIndex k.terminalNum

def setIndex (i : Int) : Input := { k with bufIndex := Function.update k.bufIndex k.terminalNum i }

def push (b : Byte) : Input :=
  { k.setIndex (k.index + 1) with
    charBuf := k.charBuf.store (k.index + 1).toNat b }

/-- The line goes to a reader that waits for it. -/
def commit : Input :=
  if (k.commandBuf k.terminalNum).byte 0 = 0#8 then
    { k with
      commandBuf := Function.update k.commandBuf k.terminalNum
        (commitLine k.charBuf.byte CHARACTER_BUFFER_SIZE 0 (k.commandBuf k.terminalNum)).1 }
  else k

/-- What a key press does to the buffers. -/
def press : KeyOp → Input
  | .type b => if k.index < 126 then k.push b else k
  | .enter => (k.push 0x0a#8).commit.setIndex (-1)
  | .backspace => if k.index > -1 then k.setIndex (k.index - 1) else k
  | .clear => k.setIndex (-1)
  | .switch newTty => { k with terminalNum := newTty }
  | .other => k

end Input

theorem ScreenFrame.input {s s' : State} (h : ScreenFrame s s') : s'.input = s.input := by rw [h]; rfl

/-- The handler's tail: an echo, and after Enter a new line. -/
theorem keyboardHandler_tail (s : State) (c : Byte) :
    (keyboardHandler s c).input =
        (if (keyboardOutputDealer s c).enterFlag then (keyboardOutputDealer s c).input.setIndex (-1)
          else (keyboardOutputDealer s c).input) ∧
      (keyboardHandler s c).enterFlag = false := by
  unfold keyboardHandler
  generalize keyboardOutputDealer s c = s₁
  simp only
  rw [terminalWrite_frame s₁]
  cases ha : s₁.isAdd <;> cases he : s₁.enterFlag <;> simp [State.input, Input.setIndex, he]

/-! ### The scancode table -/

/-- Four rows are all the rows. -/
theorem scancodeRow_eq (n : Nat) : ∃ m < 4, scancodeRow n = scancodeRow m :=
  match n with
  | 0 => ⟨0, by decide, rfl⟩
  | 1 => ⟨1, by decide, rfl⟩
  | 2 => ⟨2, by decide, rfl⟩
  | _ + 3 => ⟨3, by decide, rfl⟩

theorem scancodeTable_modifier (n : Nat) {c : Byte}
    (hc : c ∈ [PRESS_LEFT_SHIFT, PRESS_RIGHT_SHIFT, PRESS_LEFT_CTRL, PRESS_ALT, PRESS_CAPSLOCK]) :
    scancodeTable n c = 0#8 := by
  obtain ⟨m, hm, e⟩ := scancodeRow_eq n
  rw [scancodeTable, e]
  clear e
  revert c m
  decide +kernel

/-- Past the table no key has a character; the releases are there. -/
theorem scancodeTable_past (n : Nat) {c : Byte} (hc : c.toNat > TABLE_SIZE) : scancodeTable n c = 0#8 := by
  obtain ⟨m, hm, e⟩ := scancodeRow_eq n
  have hl : (scancodeRow m).length ≤ TABLE_SIZE + 1 := by
    clear e
    revert m
    decide +kernel
  rw [scancodeTable, e, List.getD_eq_getElem?_getD, List.getElem?_eq_none (by omega), Option.getD_none]

theorem scancodeRow_text (n : Nat) : 0x0a#8 ∉ scancodeRow n ∧ 0x0d#8 ∉ scancodeRow n :=
  match n with
  | 0 => by simp [scancodeRow, bytes]
  | 1 => by simp [scancodeRow, bytes]
  | 2 => by simp [scancodeRow, bytes]
  | _ + 3 => by simp [scancodeRow, bytes]

/-- No key has a newline or a carriage return. -/
theorem scancodeTable_ne (n : Nat) (c : Byte) : scancodeTable n c ≠ 0x0a#8 ∧ scancodeTable n c ≠ 0x0d#8 := by
  obtain ⟨h₁, h₂⟩ := scancodeRow_text n
  rw [scancodeTable, List.getD_eq_getElem?_getD]
  cases hb : (scancodeRow n)[c.toNat]? with
  | none => decide
  | some b =>
    have hm := List.mem_of_getElem? hb
    exact ⟨fun e => h₁ (e ▸ hm), fun e => h₂ (e ▸ hm)⟩

/-! ### The dispatch on the scancode -/

/-- A key that has no character and is not one of those with a meaning of their own. -/
theorem keyOp_other {s : State} {c : Byte} (hc : scancodeTable (tableIndex s) c = 0#8) (h₁ : c ≠ PRESS_ENTER)
    (h₂ : c ≠ PRESS_BACKSPACE) (h₃ : ¬ (KEY_F1 ≤ c ∧ c ≤ KEY_F3)) : keyOp s c = .other := by
  simp only [keyOp, hc, if_neg h₁, if_neg h₂, h₃, and_false, if_false]
  rw [if_neg (by simp)]
  simp

theorem keyOp_modifier (s : State) {c : Byte} (hc : c ∈ [PRESS_LEFT_SHIFT, PRESS_RIGHT_SHIFT, PRESS_LEFT_CTRL,
    PRESS_ALT, PRESS_CAPSLOCK]) : keyOp s c = .other := by
  refine keyOp_other (scancodeTable_modifier _ hc) ?_ ?_ ?_ <;> revert c <;> decide

theorem keyOp_release (s : State) {c : Byte} (hc : c.toNat > 0x7f) : keyOp s c = .other := by
  refine keyOp_other (scancodeTable_past _ (by simp only [TABLE_SIZE]; omega)) ?_ ?_ ?_
  · rintro rfl
    exact absurd hc (by decide)
  · rintro rfl
    exact absurd hc (by decide)
  · rintro ⟨-, h⟩
    have : c.toNat ≤ 0x3d := h
    omega

/-- The handler's effect up to its tail. -/
def Input.Done (k : Input) (s : State) : Prop :=
  (if s.enterFlag then s.input.setIndex (-1) else s.input) = k

theorem Input.Done.of_input {k : Input} {s : State} (he : s.enterFlag = false) (h : s.input = k) : k.Done s := by
  simp [Input.Done, he, h]

theorem ScreenFrame.enterFlag {s s' : State} (h : ScreenFrame s s') : s'.enterFlag = s.enterFlag := by rw [h]

theorem terminalSwitch_input (s : State) (newTty : Nat) :
    (terminalSwitch s newTty).input = { s.input with terminalNum := newTty } ∧
      (terminalSwitch s newTty).enterFlag = s.enterFlag := by
  simp only [terminalSwitch, State.input]
  rw [updateCursor_frame]
  exact ⟨rfl, rfl⟩

/-- `s'` is `s` but for the modifiers' flags, and nothing more is to be shown. -/
def FlagFrame (s s' : State) : Prop :=
  s' = { s with
    shiftFlag := s'.shiftFlag
    ctrlFlag := s'.ctrlFlag
    altFlag := s'.altFlag
    capslockFlag := s'.capslockFlag
    releaseCaps := s'.releaseCaps
    isAdd := s'.isAdd } ∧ (s.isAdd = false → s'.isAdd = false)

/-- What `keyboard_output_dealer` comes to, by the meaning of the key. -/
def Dealt (s : State) : KeyOp → State → Prop
  | .type b, s' => s' = if s.bufIndex s.terminalNum < 126 then pushChar { s with isAdd := true } b else s
  | .enter, s' => s' = enterPressed s
  | .backspace, s' =>
    s' = if s.bufIndex s.terminalNum > -1 then
      backspacePressed { s with
        bufIndex := Function.update s.bufIndex s.terminalNum (s.bufIndex s.terminalNum - 1) } else s
  | .clear, s' =>
    s' = { resetScreen (clear s) with
      bufIndex := Function.update (resetScreen (clear s)).bufIndex (resetScreen (clear s)).terminalNum (-1) }
  | .switch newTty, s' => s' = terminalSwitch s newTty
  | .other, s' => FlagFrame s s'

theorem defaultKeyPressed_dealt (s : State) {c : Byte} (h₁ : c ≠ PRESS_ENTER) (h₂ : c ≠ PRESS_BACKSPACE) :
    Dealt s (keyOp s c) (defaultKeyPressed s c) := by
  unfold defaultKeyPressed keyOp
  simp only [if_neg h₁, if_neg h₂]
  by_cases h₃ : s.altFlag ∧ KEY_F1 ≤ c ∧ c ≤ KEY_F3
  · rw [if_pos h₃, if_pos h₃]
    rfl
  rw [if_neg h₃, if_neg h₃]
  by_cases h₄ : c.toNat > TABLE_SIZE
  · rw [if_pos h₄, scancodeTable_past _ h₄, if_neg (by simp), if_neg (by simp)]
    exact ⟨rfl, id⟩
  rw [if_neg h₄]
  generalize scancodeTable (tableIndex s) c = b
  by_cases h₅ : s.ctrlFlag ∧ (b = 0x6c#8 ∨ b = 0x4c#8)
  · rw [if_pos h₅, if_pos h₅]
    rfl
  rw [if_neg h₅, if_neg h₅]
  by_cases h₆ : b ≠ 0#8
  · rw [if_pos h₆, if_pos h₆]
    rfl
  · rw [if_neg h₆, if_neg h₆]
    exact ⟨rfl, fun _ => rfl⟩

/-- The dispatch, once for all that follows from it. -/
theorem keyboardOutputDealer_dealt (s : State) (c : Byte) : Dealt s (keyOp s c) (keyboardOutputDealer s c) := by
  unfold keyboardOutputDealer
  by_cases h₁ : c = PRESS_ENTER
  · subst h₁
    rfl
  rw [if_neg h₁]
  by_cases h₂ : c = PRESS_LEFT_SHIFT ∨ c = PRESS_RIGHT_SHIFT
  · rw [if_pos h₂, keyOp_modifier s (by rcases h₂ with rfl | rfl <;> decide)]
    exact ⟨rfl, id⟩
  rw [if_neg h₂]
  by_cases h₃ : c = RELEASE_LEFT_SHIFT ∨ c = RELEASE_RIGHT_SHIFT
  · rw [if_pos h₃, keyOp_release s (by rcases h₃ with rfl | rfl <;> decide)]
    exact ⟨rfl, id⟩
  rw [if_neg h₃]
  by_cases h₄ : c = PRESS_LEFT_CTRL
  · rw [if_pos h₄, keyOp_modifier s (by subst h₄; decide)]
    exact ⟨rfl, id⟩
  rw [if_neg h₄]
  by_cases h₅ : c = RELEASE_LEFT_CTRL
  · rw [if_pos h₅, keyOp_release s (by subst h₅; decide)]
    exact ⟨rfl, id⟩
  rw [if_neg h₅]
  by_cases h₆ : c = PRESS_ALT
  · rw [if_pos h₆, keyOp_modifier s (by subst h₆; decide)]
    exact ⟨rfl, id⟩
  rw [if_neg h₆]
  by_cases h₇ : c = RELEASE_ALT
  · rw [if_pos h₇, keyOp_release s (by subst h₇; decide)]
    exact ⟨rfl, id⟩
  rw [if_neg h₇]
  by_cases h₈ : c = PRESS_BACKSPACE
  · subst h₈
    rfl
  rw [if_neg h₈]
  by_cases h₉ : c = PRESS_CAPSLOCK
  · rw [if_pos h₉, keyOp_modifier s (by subst h₉; decide)]
    split
    · exact ⟨rfl, id⟩
    · exact ⟨rfl, id⟩
  rw [if_neg h₉]
  by_cases h₁₀ : c = RELEASE_CAPSLOCK
  · rw [if_pos h₁₀, keyOp_release s (by subst h₁₀; decide)]
    exact ⟨rfl, id⟩
  rw [if_neg h₁₀]
  exact defaultKeyPressed_dealt s h₁ h₈

/-! ### The buffers -/

theorem enterPressed_done (s : State) : (s.input.press .enter).Done (enterPressed s) := by
  by_cases h : (s.commandBuf s.terminalNum).byte 0 = 0#8
  · cases hr : (commitLine (s.charBuf.store (s.bufIndex s.terminalNum + 1).toNat 0x0a#8).byte
      CHARACTER_BUFFER_SIZE 0 (s.commandBuf s.terminalNum)).2 <;>
    simp only [Input.Done, enterPressed, pushChar, h, hr, Input.press, Input.commit, Input.push, Input.setIndex,
      Input.index, State.input, setTEnterFlag, if_true, if_false, Bool.false_eq_true]
  · simp only [Input.Done, enterPressed, pushChar, h, Input.press, Input.commit, Input.push, Input.setIndex,
      Input.index, State.input, if_true, if_false]

theorem clear_done {s : State} (he : s.enterFlag = false) :
    (s.input.press .clear).Done { resetScreen (clear s) with
      bufIndex := Function.update (resetScreen (clear s)).bufIndex (resetScreen (clear s)).terminalNum (-1) } := by
  have hf := (clear_frame s).trans (resetScreen_frame (clear s))
  refine .of_input (hf.enterFlag.trans he) ?_
  have hi := hf.input
  simp only [State.input, Input.mk.injEq] at hi
  simp only [State.input, hi, Input.press, Input.setIndex]

/-- What the dealer comes to is one operation on the buffers. -/
theorem Dealt.done {s s' : State} {op : KeyOp} (he : s.enterFlag = false) (h : Dealt s op s') :
    (s.input.press op).Done s' := by
  cases op with
  | type b =>
    obtain rfl := h
    rw [Input.press]
    by_cases hi : s.bufIndex s.terminalNum < 126
    · rw [if_pos hi, if_pos (show s.input.index < 126 from hi)]
      exact .of_input he rfl
    · rw [if_neg hi, if_neg (show ¬ s.input.index < 126 from hi)]
      exact .of_input he rfl
  | enter =>
    obtain rfl := h
    exact enterPressed_done s
  | backspace =>
    obtain rfl := h
    rw [Input.press]
    by_cases hi : s.bufIndex s.terminalNum > -1
    · rw [if_pos hi, if_pos (show s.input.index > -1 from hi)]
      have hf := backspacePressed_frame
        { s with bufIndex := Function.update s.bufIndex s.terminalNum (s.bufIndex s.terminalNum - 1) }
      exact .of_input (hf.enterFlag.trans he) hf.input
    · rw [if_neg hi, if_neg (show ¬ s.input.index > -1 from hi)]
      exact .of_input he rfl
  | clear =>
    obtain rfl := h
    exact clear_done he
  | switch newTty =>
    obtain rfl := h
    obtain ⟨hi, hf⟩ := terminalSwitch_input s newTty
    exact .of_input (hf.trans he) hi
  | other =>
    rw [h.1]
    exact .of_input he rfl

theorem keyboardOutputDealer_done {s : State} (c : Byte) (he : s.enterFlag = false) :
    (s.input.press (keyOp s c)).Done (keyboardOutputDealer s c) :=
  (keyboardOutputDealer_dealt s c).done he

/-- One key press, as an operation on the buffers. -/
theorem keyboardHandler_input {s : State} (c : Byte) (he : s.enterFlag = false) :
    (keyboardHandler s c).input = s.input.press (keyOp s c) ∧ (keyboardHandler s c).enterFlag = false := by
  obtain ⟨h₁, h₂⟩ := keyboardHandler_tail s c
  exact ⟨h₁.trans (keyboardOutputDealer_done c he), h₂⟩

/-- Between two keys: nothing is left to be shown or to be ended. -/
structure Settled (s : State) : Prop where
  isAdd : s.isAdd = false
  enterFlag : s.enterFlag = false

theorem keyboardHandler_settled (s : State) (c : Byte) : Settled (keyboardHandler s c) := by
  unfold keyboardHandler
  generalize keyboardOutputDealer s c = s₁
  have ha : (if s₁.isAdd then
      { (terminalWrite s₁ (fun i => s₁.charBuf.byte (s₁.bufIndex s₁.terminalNum + i).toNat) 1).2 with isAdd := false }
    else s₁).isAdd = false := by
    split
    · rfl
    · rename_i h
      simpa using h
  simp only
  generalize (if s₁.isAdd then _ else s₁) = s₂ at ha ⊢
  split
  · exact ⟨ha, rfl⟩
  · rename_i h
    exact ⟨ha, by simpa using h⟩

/-- Only characters and Enter leave something to be shown. -/
theorem Dealt.settled {s s' : State} {op : KeyOp} (h : Dealt s op s') (hs : Settled s) (ht : ∀ b, op ≠ .type b)
    (he : op ≠ .enter) : Settled s' := by
  cases op with
  | type b => exact absurd rfl (ht b)
  | enter => exact absurd rfl he
  | backspace =>
    obtain rfl := h
    split
    · rw [backspacePressed_frame]
      exact ⟨hs.isAdd, hs.enterFlag⟩
    · exact hs
  | clear =>
    obtain rfl := h
    rw [(clear_frame s).trans (resetScreen_frame (clear s))]
    exact ⟨hs.isAdd, hs.enterFlag⟩
  | switch newTty =>
    obtain rfl := h
    simp only [terminalSwitch]
    rw [updateCursor_frame]
    exact ⟨hs.isAdd, hs.enterFlag⟩
  | other =>
    refine ⟨h.2 hs.isAdd, ?_⟩
    rw [h.1]
    exact hs.enterFlag

/-- A key after which nothing is shown. -/
theorem keyboardHandler_quiet {s : State} {c : Byte} (h : Settled (keyboardOutputDealer s c)) :
    keyboardHandler s c = keyboardOutputDealer s c := by
  simp [keyboardHandler, h.isAdd, h.enterFlag]

/-- A key that types has the character of the table. -/
theorem keyOp_type {s : State} {c b : Byte} (h : keyOp s c = .type b) :
    scancodeTable (tableIndex s) c = b ∧ b ≠ 0#8 := by
  simp only [keyOp] at h
  generalize scancodeTable (tableIndex s) c = b' at h ⊢
  repeat' split at h
  all_goals first | (cases h; exact ⟨rfl, by assumption⟩) | cases h

theorem keyOp_type_ne {s : State} {c b : Byte} (h : keyOp s c = .type b) : b ≠ 0x0a#8 ∧ b ≠ 0x0d#8 := by
  obtain ⟨rfl, -⟩ := keyOp_type h
  exact scancodeTable_ne _ c

theorem keyOp_switch_lt {s : State} {c : Byte} {t : Nat} (h : keyOp s c = .switch t) : t < 3 := by
  simp only [keyOp] at h
  generalize scancodeTable (tableIndex s) c = b' at h
  by_cases hk : KEY_F1 ≤ c ∧ c ≤ KEY_F3
  · repeat' split at h
    all_goals first | (cases h; exact functionKey_lt hk) | cases h
  · simp only [hk, and_false, if_false] at h
    repeat' split at h
    all_goals cases h

/-! ## The lines -/

/-- The newline is met after `d` bytes. -/
theorem commitLine_eq (charBuf : Nat → Byte) : ∀ (d n i : Nat) (m : Mem), d < n →
    (∀ j < d, charBuf (i + j) ≠ 0x0a#8) → charBuf (i + d) = 0x0a#8 →
    ∀ x, (commitLine charBuf n i m).1.byte x = if i ≤ x ∧ x ≤ i + d then charBuf x else m.byte x
  | 0, n + 1, i, m, _, _, hd, x => by
    rw [Nat.add_zero] at hd
    simp only [commitLine, hd, if_true]
    rw [Mem.store_byte]
    by_cases h : x = i
    · rw [if_pos h, if_pos (by omega), h, hd]
    · rw [if_neg h, if_neg (by omega)]
  | d + 1, n + 1, i, m, hn, hj, hd, x => by
    have h₀ := hj 0 (by omega)
    rw [Nat.add_zero] at h₀
    rw [commitLine, if_neg h₀, commitLine_eq charBuf d n (i + 1) _ (by omega)
      (fun j hjd => by have := hj (j + 1) (by omega); rwa [show i + 1 + j = i + (j + 1) by omega])
      (by rwa [show i + 1 + d = i + (d + 1) by omega]), Mem.store_byte]
    by_cases h : x = i
    · rw [if_neg (by omega), if_pos h, if_pos (by omega), h]
    · by_cases h' : i + 1 ≤ x ∧ x ≤ i + 1 + d
      · rw [if_pos h', if_pos (by omega)]
      · rw [if_neg h', if_neg h, if_neg (by omega)]

/-- The buffers hold the lines typed on the terminals. -/
structure Typed (k : Input) (lines : Nat → List Byte) : Prop where
  lt : k.terminalNum < 3
  length : ∀ t < 3, (lines t).length ≤ LINE_MAX
  index : ∀ t < 3, k.bufIndex t = (lines t).length - 1
  bytes : ∀ t < 3, ∀ i b, (lines t)[i]? = some b → k.charBuf.byte i = b
  text : ∀ t < 3, 0x0a#8 ∉ lines t

/-- The byte a key press stores at the end of its terminal's line. -/
def Input.storedByte (k : Input) : KeyOp → Option Byte
  | .type b => if k.index < 126 then some b else none
  | .enter => some 0x0a#8
  | _ => none

/-- A key press stores no other byte over one of another terminal's line. -/
def Input.Undisturbed (k : Input) (op : KeyOp) : Prop :=
  ∀ b, k.storedByte op = some b → ∀ u < 3, u ≠ k.terminalNum → k.index + 1 ≤ k.bufIndex u →
    k.charBuf.byte (k.index + 1).toNat = b

theorem Input.Undisturbed.of_empty {k : Input} (hi : -1 ≤ k.index)
    (h : ∀ u < 3, u ≠ k.terminalNum → k.bufIndex u = -1) (op : KeyOp) : k.Undisturbed op :=
  fun _ _ u hu hne hle => by
    rw [h u hu hne] at hle
    omega

namespace Typed

variable {k : Input} {lines : Nat → List Byte}

theorem index_add_one (h : Typed k lines) : (k.index + 1).toNat = (lines k.terminalNum).length := by
  rw [Input.index, h.index _ h.lt]
  omega

/-- The terminal's line and index change, and the characters of all lines stay or are the line's. -/
theorem edit (h : Typed k lines) {k' : Input} {l : List Byte} (ht : k'.terminalNum = k.terminalNum)
    (hi : k'.bufIndex = Function.update k.bufIndex k.terminalNum ((l.length : Int) - 1))
    (hl : l.length ≤ LINE_MAX) (hn : 0x0a#8 ∉ l)
    (hb : ∀ i b, l[i]? = some b → k'.charBuf.byte i = b)
    (ho : ∀ u < 3, u ≠ k.terminalNum → ∀ i b, (lines u)[i]? = some b → k'.charBuf.byte i = b) :
    Typed k' (Function.update lines k.terminalNum l) := by
  refine ⟨by rw [ht]; exact h.lt, fun u hu => ?_, fun u hu => ?_, fun u hu => ?_, fun u hu => ?_⟩ <;>
    by_cases hut : u = k.terminalNum
  · subst hut
    rwa [Function.update_self]
  · rw [Function.update_of_ne hut]
    exact h.length u hu
  · subst hut
    rw [hi, Function.update_self, Function.update_self]
  · rw [hi, Function.update_of_ne hut, Function.update_of_ne hut]
    exact h.index u hu
  · subst hut
    rwa [Function.update_self]
  · rw [Function.update_of_ne hut]
    exact ho u hu hut
  · subst hut
    rwa [Function.update_self]
  · rw [Function.update_of_ne hut]
    exact h.text u hu

theorem push_other (h : Typed k lines) {b : Byte} {op : KeyOp} (hs : k.storedByte op = some b)
    (hu : k.Undisturbed op) {u : Nat} (hu₃ : u < 3) (hne : u ≠ k.terminalNum) {i : Nat} {b' : Byte}
    (hb : (lines u)[i]? = some b') : (k.push b).charBuf.byte i = b' := by
  have hold := h.bytes u hu₃ i b' hb
  rw [Input.push, Mem.store_byte]
  split
  · rename_i hi
    have hlt : i < (lines u).length := (List.getElem?_eq_some_iff.mp hb).1
    have := hu b hs u hu₃ hne (by rw [h.index u hu₃]; omega)
    rw [← this, ← hi, hold]
  · exact hold

/-- A character at the end of the line, with room for it. -/
theorem type (h : Typed k lines) {b : Byte} (hu : k.Undisturbed (.type b)) (hb : b ≠ 0x0a#8)
    (hl : (lines k.terminalNum).length < LINE_MAX) :
    Typed (k.push b) (Function.update lines k.terminalNum (lines k.terminalNum ++ [b])) := by
  have hix : k.index = (lines k.terminalNum).length - 1 := h.index _ h.lt
  have hmax : LINE_MAX = 127 := rfl
  have hs : k.storedByte (.type b) = some b := if_pos (by omega)
  refine h.edit rfl ?_ ?_ ?_ (fun i b' hi => ?_) (fun u hu₃ hne i b' hi => h.push_other hs hu hu₃ hne hi)
  · simp only [Input.push, Input.setIndex, hix, List.length_append, List.length_singleton]
    push_cast
    congr 1
    omega
  · rw [List.length_append, List.length_singleton]
    omega
  · rw [List.mem_append, List.mem_singleton, not_or]
    exact ⟨h.text _ h.lt, hb.symm⟩
  · rw [Input.push, Mem.store_byte, h.index_add_one]
    rw [List.getElem?_append] at hi
    split
    · rename_i e
      subst e
      simpa using hi
    · rename_i e
      split at hi
      · exact h.bytes _ h.lt i b' hi
      · rw [List.getElem?_eq_none (by rw [List.length_singleton]; omega)] at hi
        cases hi

/-- Enter starts the next line. -/
theorem enter (h : Typed k lines) (hu : k.Undisturbed .enter) :
    Typed (k.press .enter) (Function.update lines k.terminalNum []) := by
  have hc : ∀ k : Input, k.commit.terminalNum = k.terminalNum ∧ k.commit.bufIndex = k.bufIndex ∧
      k.commit.charBuf = k.charBuf := fun k => by
    unfold Input.commit
    split <;> exact ⟨rfl, rfl, rfl⟩
  obtain ⟨h₁, h₂, h₃⟩ := hc (k.push 0x0a#8)
  refine h.edit h₁ ?_ (by simp) (by simp) (by simp) (fun u hu₃ hne i b' hi => ?_)
  · simp only [Input.press, Input.setIndex, h₁, h₂]
    simp only [Input.push, Input.setIndex, Function.update_idem]
    rfl
  · simp only [Input.press, Input.setIndex, h₃]
    exact h.push_other rfl hu hu₃ hne hi

/-- Backspace on a line that has a character. -/
theorem backspace (h : Typed k lines) (hl : k.index > -1) :
    Typed (k.setIndex (k.index - 1))
      (Function.update lines k.terminalNum (lines k.terminalNum).dropLast) := by
  have hix : k.index = (lines k.terminalNum).length - 1 := h.index _ h.lt
  have hlen := h.length _ h.lt
  refine h.edit rfl ?_ ?_ ?_ (fun i b hi => ?_) (fun u hu₃ _ i b hi => h.bytes u hu₃ i b hi)
  · simp only [Input.setIndex, hix, List.length_dropLast]
    congr 1
    omega
  · rw [List.length_dropLast]
    omega
  · exact fun hm => h.text _ h.lt (List.dropLast_subset _ hm)
  · rw [List.getElem?_dropLast] at hi
    split at hi
    · exact h.bytes _ h.lt i b hi
    · cases hi

/-- One key press, by the line it edits. -/
theorem press (h : Typed k lines) {op : KeyOp} (hu : k.Undisturbed op) (hb : ∀ b, op = .type b → b ≠ 0x0a#8)
    (ht : ∀ t, op = .switch t → t < 3) :
    Typed (k.press op) (Function.update lines k.terminalNum (op.edit (lines k.terminalNum))) := by
  have hix : k.index = (lines k.terminalNum).length - 1 := h.index _ h.lt
  have hmax : LINE_MAX = 127 := rfl
  have hself : Typed k (Function.update lines k.terminalNum (lines k.terminalNum)) := by
    rwa [Function.update_eq_self]
  cases op with
  | type b =>
    simp only [Input.press, KeyOp.edit]
    by_cases hl : (lines k.terminalNum).length < LINE_MAX
    · rw [if_pos (by omega), if_pos hl]
      exact h.type hu (hb b rfl) hl
    · rw [if_neg (by omega), if_neg hl]
      exact hself
  | enter => exact h.enter hu
  | backspace =>
    simp only [Input.press, KeyOp.edit]
    by_cases hl : k.index > -1
    · rw [if_pos hl]
      exact h.backspace hl
    · have hnil : lines k.terminalNum = [] := List.eq_nil_of_length_eq_zero (by omega)
      rw [if_neg hl, hnil, List.dropLast_nil, ← hnil]
      exact hself
  | clear =>
    exact h.edit rfl rfl (by simp [KeyOp.edit]) (by simp [KeyOp.edit]) (by simp [KeyOp.edit])
      (fun u hu₃ _ i b hi => h.bytes u hu₃ i b hi)
  | switch t =>
    obtain ⟨-, h₂, h₃, h₄, h₅⟩ := hself
    exact ⟨ht t rfl, h₂, h₃, h₄, h₅⟩
  | other => exact hself

end Typed

/-! ## Runs -/

inductive InputStep
  /-- A keyboard interrupt. -/
  | key (c : Byte)
  /-- A reader starts to wait on terminal `t`. -/
  | read (t : Nat)

def inputStep (s : State) : InputStep → Option State
  | .key c => some (keyboardHandler s c)
  | .read t => some (terminalReadBegin s t)

/-- What a step does to the lines: a key edits the displayed terminal's. -/
def typedLines (s : State) (e : InputStep) (lines : Nat → List Byte) : Nat → List Byte :=
  match e with
  | .key c => Function.update lines s.terminalNum ((keyOp s c).edit (lines s.terminalNum))
  | .read _ => lines

def Undisturbed (s : State) : InputStep → Prop
  | .key c => s.input.Undisturbed (keyOp s c)
  | .read _ => True

/-- The bytes up to the first newline are the line's. -/
def HoldsLine (m : Mem) (line : List Byte) : Prop :=
  0x0a#8 ∉ line ∧ (List.range (line.length + 1)).map m.byte = line ++ [0x0a#8]

/-- Enter hands a reader that waits on the displayed terminal the line typed there. -/
def CommitsLine (p : State × (Nat → List Byte)) : Prop :=
  let t := p.1.terminalNum
  (p.1.commandBuf t).byte 0 = 0#8 → HoldsLine ((keyboardHandler p.1 PRESS_ENTER).commandBuf t) (p.2 t)

/-- No line is half-typed and Enter is not being handled. -/
structure KeyboardIdle (s : State) : Prop where
  lt : s.terminalNum < 3
  index : ∀ t < 3, s.bufIndex t = -1
  enter : s.enterFlag = false

theorem Typed.holdsLine {k : Input} {lines : Nat → List Byte} (h : Typed k lines)
    (h₀ : (k.commandBuf k.terminalNum).byte 0 = 0#8) :
    HoldsLine ((k.press .enter).commandBuf k.terminalNum) (lines k.terminalNum) := by
  have hlen := h.length _ h.lt
  have hmax : LINE_MAX = 127 := rfl
  have htext := h.text _ h.lt
  have hk : (k.press .enter).commandBuf k.terminalNum = (commitLine (k.push 0x0a#8).charBuf.byte
      CHARACTER_BUFFER_SIZE 0 (k.commandBuf k.terminalNum)).1 := by
    simp only [Input.press, Input.commit, Input.setIndex, Input.push, h₀, if_true, Function.update_self]
  -- the line is in the buffer, and the newline after it
  have hb : ∀ i (hi : i < (lines k.terminalNum).length),
      (k.push 0x0a#8).charBuf.byte i = (lines k.terminalNum)[i] := fun i hi => by
    rw [Input.push, Mem.store_byte_of_ne _ _ (by rw [h.index_add_one]; omega)]
    exact h.bytes _ h.lt i _ (List.getElem?_eq_getElem hi)
  have hn : (k.push 0x0a#8).charBuf.byte (lines k.terminalNum).length = 0x0a#8 := by
    rw [Input.push, h.index_add_one, Mem.store_byte_self]
  have hc := commitLine_eq (k.push 0x0a#8).charBuf.byte (lines k.terminalNum).length CHARACTER_BUFFER_SIZE 0
    (k.commandBuf k.terminalNum) (by simp only [CHARACTER_BUFFER_SIZE]; omega)
    (fun j hj => by
      rw [Nat.zero_add, hb j hj]
      exact fun e => htext (e ▸ List.getElem_mem hj))
    (by rw [Nat.zero_add, hn])
  refine ⟨htext, List.ext_getElem (by simp) fun i hi₁ hi₂ => ?_⟩
  rw [List.length_append, List.length_singleton] at hi₂
  rw [List.getElem_map, List.getElem_range, hk, hc, if_pos (by omega), List.getElem_append]
  split
  · rename_i hi
    exact hb i hi
  · rw [List.getElem_singleton, show i = (lines k.terminalNum).length by omega, hn]

theorem Typed.commits {s : State} {lines : Nat → List Byte} (h : Typed s.input lines) (he : s.enterFlag = false) :
    CommitsLine (s, lines) := fun h₀ => by
  have hi : (keyboardHandler s PRESS_ENTER).commandBuf = (s.input.press .enter).commandBuf :=
    congrArg Input.commandBuf (keyboardHandler_input PRESS_ENTER he).1
  rw [hi]
  exact h.holdsLine h₀

/-- From idle buffers, in any order of keys, switches and readers: as long as no
key stores over another terminal's half-typed line, Enter hands a waiting reader
the line typed on its terminal. -/
theorem typedLines_commit (s : State) (hs : KeyboardIdle s) (es : List InputStep)
    (hg : Guarded inputStep Undisturbed s es) :
    Always (withHistory inputStep typedLines) CommitsLine (s, fun _ => []) es := by
  refine Guarded.always (I := fun p => Typed p.1.input p.2 ∧ p.1.enterFlag = false) (fun p h => h.1.commits h.2)
    (fun p e p' h hok hp => ?_) ?_ (hg.withHistory _)
  · obtain ⟨hs', hl⟩ := withHistory_eq_some hp
    cases e with
    | key c =>
      obtain ⟨hi, he⟩ := keyboardHandler_input c h.2
      rw [show p'.1 = keyboardHandler p.1 c from (Option.some.inj hs').symm, hi, hl]
      exact ⟨h.1.press hok (fun b hb => (keyOp_type_ne hb).1) (fun t => keyOp_switch_lt), he⟩
    | read t =>
      obtain ⟨⟨h₁, h₂, h₃, h₄, h₅⟩, he⟩ := h
      rw [show p'.1 = terminalReadBegin p.1 t from (Option.some.inj hs').symm, hl]
      exact ⟨⟨h₁, h₂, h₃, h₄, h₅⟩, he⟩
  · refine ⟨⟨hs.lt, ?_, ?_, ?_, ?_⟩, hs.enter⟩
    · simp
    · simpa [State.input] using hs.index
    · simp
    · simp

theorem boot_keyboardIdle : KeyboardIdle boot := ⟨by decide, fun _ _ => rfl, rfl⟩

theorem typedLines_commit_boot : KeyboardIdle boot ∧
    Always (withHistory inputStep typedLines) CommitsLine (boot, fun _ => []) [.read 0, .key 0x1e#8, .key 0x1c#8] := by
  refine ⟨boot_keyboardIdle, typedLines_commit boot boot_keyboardIdle _ ?_⟩
  rintro s hs
  obtain rfl := Option.some.inj hs
  refine ⟨trivial, fun s hs => ?_⟩
  obtain rfl := Option.some.inj hs
  refine ⟨.of_empty (by decide +kernel) (by decide +kernel) _, fun s hs => ?_⟩
  obtain rfl := Option.some.inj hs
  exact ⟨.of_empty (by decide +kernel) (by decide +kernel) _, trivial⟩

/-- On the first terminal `a` and `b`, on the second `x`, and Enter on the first. -/
def overtypedKeys : List InputStep :=
  [.key 0x1e#8, .key 0x30#8, .key 0x38#8, .key 0x3c#8, .key 0x2d#8, .key 0x3b#8]

theorem overtyped_not_commits :
    ¬ Always (withHistory inputStep typedLines) CommitsLine (boot, fun _ => []) overtypedKeys := by
  intro h
  have := h.last rfl
  revert this
  unfold CommitsLine HoldsLine
  decide +kernel

end LimeOS
