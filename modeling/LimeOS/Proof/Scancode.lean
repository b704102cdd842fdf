import LimeOS.Spec.Layout
import LimeOS.Proof.KeyboardChecked

/-!
# Scancodes and the characters they type

The handler keeps one flag for the two shift keys, and one table row for each
state of caps lock and shift. While no shift key is released with the other one
held, its flags are the keys held (`Flags.Follow`); and the rows are those of the
layout but for one entry (`scancodeTable_keyChar`). `scancodes_decoded_iff` has
both conditions.
-/

namespace LimeOS

/-! ## The modifiers' flags -/

/-- The flags of `keyboard_output_dealer` for the shift keys and caps lock. -/
structure Flags where
  shift : Bool
  capslock : Bool
  release : Bool

def State.flags (s : State) : Flags := ⟨s.shiftFlag, s.capslockFlag, s.releaseCaps⟩

/-- The events of the shift keys and caps lock. -/
def modifierEvent (c : Byte) : ModifierEvent :=
  if c = PRESS_LEFT_SHIFT then .pressLeftShift
  else if c = PRESS_RIGHT_SHIFT then .pressRightShift
  else if c = RELEASE_LEFT_SHIFT then .releaseLeftShift
  else if c = RELEASE_RIGHT_SHIFT then .releaseRightShift
  else if c = PRESS_CAPSLOCK then .pressCapslock
  else if c = RELEASE_CAPSLOCK then .releaseCapslock
  else .other

/-- What the events do to the flags. -/
def Flags.step (f : Flags) : ModifierEvent → Flags
  | .pressLeftShift => { f with shift := true }
  | .pressRightShift => { f with shift := true }
  | .releaseLeftShift => { f with shift := false }
  | .releaseRightShift => { f with shift := false }
  | .pressCapslock => if f.release then { f with capslock := !f.capslock, release := false } else f
  | .releaseCapslock => { f with release := true }
  | .other => f

theorem ScreenFrame.flags {s s' : State} (h : ScreenFrame s s') : s'.flags = s.flags := by
  rw [h]
  rfl

theorem defaultKeyPressed_flags (s : State) (c : Byte) : (defaultKeyPressed s c).flags = s.flags := by
  simp only [defaultKeyPressed]
  split
  · simp only [terminalSwitch]
    rw [updateCursor_frame]
    rfl
  split
  · rfl
  split
  · exact ((clear_frame s).trans (resetScreen_frame (clear s))).flags
  split
  · split
    · rfl
    · rfl
  · rfl

theorem keyboardOutputDealer_flags (s : State) (c : Byte) :
    (keyboardOutputDealer s c).flags = s.flags.step (modifierEvent c) := by
  unfold keyboardOutputDealer modifierEvent
  by_cases h₁ : c = PRESS_LEFT_SHIFT
  · subst h₁
    rfl
  by_cases h₂ : c = PRESS_RIGHT_SHIFT
  · subst h₂
    rfl
  by_cases h₃ : c = RELEASE_LEFT_SHIFT
  · subst h₃
    rfl
  by_cases h₄ : c = RELEASE_RIGHT_SHIFT
  · subst h₄
    rfl
  by_cases h₅ : c = PRESS_CAPSLOCK
  · subst h₅
    show (if s.releaseCaps then { s with capslockFlag := !s.capslockFlag, releaseCaps := false } else s).flags = _
    cases hr : s.releaseCaps <;> simp [Flags.step, State.flags, hr]
  by_cases h₆ : c = RELEASE_CAPSLOCK
  · subst h₆
    rfl
  simp only [h₁, h₂, h₃, h₄, h₅, h₆, or_self, if_false, Flags.step]
  split
  · rw [enterPressed_eq]
    rfl
  split
  · rfl
  split
  · rfl
  split
  · rfl
  split
  · rfl
  split
  · split
    · exact (backspacePressed_frame _).flags
    · rfl
  · exact defaultKeyPressed_flags s c

theorem keyboardHandler_flags (s : State) (c : Byte) :
    (keyboardHandler s c).flags = s.flags.step (modifierEvent c) := by
  rw [← keyboardOutputDealer_flags]
  unfold keyboardHandler
  generalize keyboardOutputDealer s c = s₁
  simp only
  rw [terminalWrite_frame s₁]
  split
  · split
    · rfl
    · rfl
  · split
    · rfl
    · rfl

/-- The flags say which keys are held and whether caps lock is active. -/
structure Flags.Follow (f : Flags) (k : KeysHeld) : Prop where
  shift : f.shift = k.shift
  capslock : f.capslock = k.caps
  release : f.release = !k.capslock

/-- A shift key is released with the other one held. -/
def KeysHeld.ReleasesOne (k : KeysHeld) : ModifierEvent → Prop
  | .releaseLeftShift => k.rightShift = true
  | .releaseRightShift => k.leftShift = true
  | _ => False

theorem Flags.Follow.step {f : Flags} {k : KeysHeld} (h : f.Follow k) {e : ModifierEvent} (he : ¬ k.ReleasesOne e) :
    (f.step e).Follow (k.step e) := by
  obtain ⟨hs, hc, hr⟩ := h
  cases e with
  | pressLeftShift => exact ⟨by simp [Flags.step, KeysHeld.step, KeysHeld.shift], hc, hr⟩
  | pressRightShift => exact ⟨by simp [Flags.step, KeysHeld.step, KeysHeld.shift], hc, hr⟩
  | releaseLeftShift =>
    have hother : k.rightShift = false := by simpa [KeysHeld.ReleasesOne] using he
    exact ⟨by simp [Flags.step, KeysHeld.step, KeysHeld.shift, hother], hc, hr⟩
  | releaseRightShift =>
    have hother : k.leftShift = false := by simpa [KeysHeld.ReleasesOne] using he
    exact ⟨by simp [Flags.step, KeysHeld.step, KeysHeld.shift, hother], hc, hr⟩
  | pressCapslock =>
    cases hd : k.capslock with
    | false =>
      have hrel : f.release = true := by rw [hr, hd]; rfl
      refine ⟨?_, ?_, ?_⟩
      · simpa [Flags.step, hrel, KeysHeld.step, KeysHeld.shift] using hs
      · simp only [Flags.step, hrel, if_true, hc, KeysHeld.step, KeysHeld.caps, hd]
        rcases Nat.mod_two_eq_zero_or_one k.capslockPresses with h | h <;> simp [Nat.add_mod, h]
      · simp [Flags.step, hrel, KeysHeld.step]
    | true =>
      have hrel : f.release = false := by rw [hr, hd]; rfl
      refine ⟨?_, ?_, ?_⟩
      · simpa [Flags.step, hrel, KeysHeld.step, KeysHeld.shift] using hs
      · simpa [Flags.step, hrel, KeysHeld.step, KeysHeld.caps, hd] using hc
      · simp [Flags.step, hrel, KeysHeld.step]
  | releaseCapslock => exact ⟨hs, hc, rfl⟩
  | other => exact ⟨hs, hc, hr⟩

/-- The one flag of the two shift keys is cleared while one of them is held. -/
theorem KeysHeld.ReleasesOne.not_follow {k : KeysHeld} {e : ModifierEvent} (he : k.ReleasesOne e) (f : Flags) :
    (f.step e).shift ≠ (k.step e).shift := by
  cases e with
  | releaseLeftShift =>
    have hother : k.rightShift = true := he
    simp [Flags.step, KeysHeld.step, KeysHeld.shift, hother]
  | releaseRightShift =>
    have hother : k.leftShift = true := he
    simp [Flags.step, KeysHeld.step, KeysHeld.shift, hother]
  | pressLeftShift => exact he.elim
  | pressRightShift => exact he.elim
  | pressCapslock => exact he.elim
  | releaseCapslock => exact he.elim
  | other => exact he.elim

/-! ## The characters -/

/-- The scancode of the key with the backslash. -/
abbrev PRESS_BACKSLASH : Byte := 0x2B

/-- The rows, entry by entry. -/
theorem scancodeRow_keyChar : ∀ caps shift : Bool, ∀ i < TABLE_SIZE + 1, ¬ (i = PRESS_BACKSLASH.toNat ∧ caps ∧ shift) →
    (scancodeRow (2 * caps.toNat + 1 * shift.toNat)).getD i 0#8 =
      keyChar ((scancodeRow 0).getD i 0#8) ((scancodeRow 1).getD i 0#8) caps shift := by
  decide +kernel

/-- The row of the table for a state of caps lock and shift has the layout's
characters, but for the backslash under both. -/
theorem scancodeTable_keyChar {caps shift : Bool} {c : Byte} (h : ¬ (c = PRESS_BACKSLASH ∧ caps ∧ shift)) :
    scancodeTable (2 * caps.toNat + 1 * shift.toNat) c =
      keyChar (scancodeTable 0 c) (scancodeTable 1 c) caps shift := by
  by_cases hc : c.toNat > TABLE_SIZE
  · rw [scancodeTable_past _ hc, scancodeTable_past _ hc, scancodeTable_past _ hc]
    revert caps shift
    simp [keyChar]
  · apply scancodeRow_keyChar caps shift c.toNat (by omega)
    rintro ⟨hb, hcs⟩
    exact h ⟨BitVec.eq_of_toNat_eq hb, hcs⟩

/-- The character a key stores at the end of the line. -/
def appendedChar (s : State) (c : Byte) : Option Byte :=
  let s' := keyboardHandler s c
  if s'.bufIndex s.terminalNum = s.bufIndex s.terminalNum + 1 then
    some (s'.charBuf.byte (s'.bufIndex s.terminalNum).toNat)
  else none

theorem appendedChar_eq {s : State} (h : Bounded s) (c : Byte) :
    appendedChar s c = if (s.input.press (keyOp s c)).bufIndex s.terminalNum = s.bufIndex s.terminalNum + 1 then
      some ((s.input.press (keyOp s c)).charBuf.byte (s.bufIndex s.terminalNum + 1).toNat) else none := by
  have hin := (keyboardHandler_input c h.settled.enterFlag).1
  have hidx : (keyboardHandler s c).bufIndex = (s.input.press (keyOp s c)).bufIndex := congrArg Input.bufIndex hin
  have hbuf : (keyboardHandler s c).charBuf = (s.input.press (keyOp s c)).charBuf := congrArg Input.charBuf hin
  simp only [appendedChar, hidx, hbuf]
  split
  · rename_i hi
    rw [hi]
  · rfl

/-- A key that types appends its character to a line with room for it. -/
theorem appendedChar_type {s : State} (h : Bounded s) {c b : Byte} (hk : keyOp s c = .type b) :
    appendedChar s c = if s.bufIndex s.terminalNum < 126 then some b else none := by
  rw [appendedChar_eq h, hk, Input.press]
  by_cases hi : s.bufIndex s.terminalNum < 126
  · rw [if_pos (show s.input.index < 126 from hi), if_pos hi]
    simp [Input.push, Input.setIndex, Input.index, State.input]
  · rw [if_neg (show ¬ s.input.index < 126 from hi), if_neg hi]
    refine if_neg ?_
    show ¬ s.bufIndex s.terminalNum = s.bufIndex s.terminalNum + 1
    omega

/-- Other keys append none; Enter's newline ends the line. -/
theorem appendedChar_of_ne {s : State} (h : Bounded s) {c : Byte} (hk : ∀ b, keyOp s c ≠ .type b) :
    appendedChar s c = none := by
  have hi := h.index _ h.terminal
  rw [appendedChar_eq h]
  refine if_neg fun hne => ?_
  have hset : ∀ i : Int, (s.input.setIndex i).bufIndex s.terminalNum = i := fun i => Function.update_self _ _ _
  cases hop : keyOp s c with
  | type b => exact hk b hop
  | enter =>
    have he : (s.input.press .enter).bufIndex s.terminalNum = -1 := by
      simp only [Input.press, Input.commit]
      split <;> exact Function.update_self _ _ _
    rw [hop, he] at hne
    omega
  | backspace =>
    rw [hop, Input.press] at hne
    split at hne
    · rw [hset] at hne
      have : s.input.index = s.bufIndex s.terminalNum := rfl
      omega
    · have : s.input.bufIndex s.terminalNum = s.bufIndex s.terminalNum := rfl
      omega
  | clear =>
    rw [hop, Input.press, hset] at hne
    omega
  | switch newTty =>
    have : (s.input.press (.switch newTty)).bufIndex s.terminalNum = s.bufIndex s.terminalNum := rfl
    rw [hop, this] at hne
    omega
  | other =>
    have : (s.input.press .other).bufIndex s.terminalNum = s.bufIndex s.terminalNum := rfl
    rw [hop, this] at hne
    omega

/-! ## Sequences of scancodes -/

def scancodeStep (s : State) (c : Byte) : Option State := some (keyboardHandler s c)

/-- The keys held, and the characters appended with those that were due. -/
structure KeyLog where
  keys : KeysHeld
  typed : List (Byte × Byte)

def keyLog (s : State) (c : Byte) (h : KeyLog) : KeyLog where
  keys := h.keys.step (modifierEvent c)
  typed :=
    match appendedChar s c with
    | some b => (b, keyChar (scancodeTable 0 c) (scancodeTable 1 c) h.keys.caps h.keys.shift) :: h.typed
    | none => h.typed

/-- The flags are those of the keys held, and every character is the one that was due. -/
structure Decoded (p : State × KeyLog) : Prop where
  shift : p.1.shiftFlag = p.2.keys.shift
  capslock : p.1.capslockFlag = p.2.keys.caps
  typed : ∀ q ∈ p.2.typed, q.1 = q.2

/-- No shift key is released with the other one held, and the backslash is not
typed with both caps lock and shift. -/
structure Distinct (p : State × KeyLog) (c : Byte) : Prop where
  shift : ¬ p.2.keys.ReleasesOne (modifierEvent c)
  backslash : ¬ (c = PRESS_BACKSLASH ∧ p.2.keys.caps ∧ p.2.keys.shift ∧ p.1.bufIndex p.1.terminalNum < 126)

structure Decoding (p : State × KeyLog) : Prop where
  bounded : Bounded p.1
  follow : p.1.flags.Follow p.2.keys
  typed : ∀ q ∈ p.2.typed, q.1 = q.2

namespace Decoding

variable {s : State} {l : KeyLog} {c : Byte}

/-- The table's row is the one of the keys held. -/
theorem scancodeTable_eq (h : Decoding (s, l)) (c : Byte) :
    scancodeTable (tableIndex s) c = scancodeTable (2 * l.keys.caps.toNat + 1 * l.keys.shift.toNat) c := by
  have hc : s.capslockFlag = l.keys.caps := h.follow.capslock
  have hs : s.shiftFlag = l.keys.shift := h.follow.shift
  rw [tableIndex, hc, hs]

theorem keyLog_typed (h : Decoding (s, l)) (hok : Distinct (s, l) c) : ∀ q ∈ (keyLog s c l).typed, q.1 = q.2 := by
  by_cases hk : ∃ b, keyOp s c = .type b
  · obtain ⟨b, hk⟩ := hk
    by_cases hi : s.bufIndex s.terminalNum < 126
    · have hb := (keyOp_type hk).1
      rw [h.scancodeTable_eq, scancodeTable_keyChar fun ⟨h₁, h₂, h₃⟩ => hok.backslash ⟨h₁, h₂, h₃, hi⟩] at hb
      simp only [keyLog, appendedChar_type h.bounded hk, if_pos hi, hb]
      exact List.forall_mem_cons.mpr ⟨rfl, h.typed⟩
    · simp only [keyLog, appendedChar_type h.bounded hk, if_neg hi]
      exact h.typed
  · simp only [keyLog, appendedChar_of_ne h.bounded fun b hb => hk ⟨b, hb⟩]
    exact h.typed

theorem step (p : State × KeyLog) (c : Byte) (p' : State × KeyLog) (h : Decoding p) (hok : Distinct p c)
    (hp : withHistory scancodeStep keyLog p c = some p') : Decoding p' := by
  obtain ⟨s, l⟩ := p
  obtain rfl := Option.some.inj hp
  refine ⟨h.bounded.key c, ?_, h.keyLog_typed hok⟩
  rw [keyboardHandler_flags]
  exact h.follow.step hok.shift

/-- Row 3 has the backslash of row 0 where the layout has that of row 1. -/
theorem backslash_typed (h : Decoding (s, l)) (hc : l.keys.caps = true) (hs : l.keys.shift = true)
    (hi : s.bufIndex s.terminalNum < 126) : (0x5c#8, 0x7c#8) ∈ (keyLog s PRESS_BACKSLASH l).typed := by
  have hb : scancodeTable (tableIndex s) PRESS_BACKSLASH = 0x5c#8 := by
    rw [h.scancodeTable_eq, hc, hs]
    decide
  have hk : keyOp s PRESS_BACKSLASH = .type 0x5c#8 := by
    simp only [keyOp, hb]
    rw [if_neg (by decide), if_neg (by decide), if_neg (fun h => absurd h.2.1 (by decide)),
      if_neg (fun h => absurd h.2 (by decide)), if_pos (by decide)]
  have hdue : keyChar (scancodeTable 0 PRESS_BACKSLASH) (scancodeTable 1 PRESS_BACKSLASH) true true = 0x7c#8 := by
    decide
  simp only [keyLog, appendedChar_type h.bounded hk, if_pos hi, hc, hs, hdue]
  exact List.mem_cons_self

/-- A key that misses either condition is decoded wrongly. -/
theorem not_decoded (p : State × KeyLog) (c : Byte) (p' : State × KeyLog) (h : Decoding p) (hok : ¬ Distinct p c)
    (hp : withHistory scancodeStep keyLog p c = some p') : ¬ Decoded p' := by
  obtain ⟨s, l⟩ := p
  obtain rfl := Option.some.inj hp
  intro hd
  refine hok ⟨fun he => ?_, ?_⟩
  · apply he.not_follow s.flags
    rw [← keyboardHandler_flags]
    exact hd.shift
  · rintro ⟨rfl, hc, hs, hi⟩
    exact absurd (hd.typed _ (h.backslash_typed hc hs hi)) (by decide)

end Decoding

theorem boot_decoding : Decoding (boot, ⟨.none, []⟩) := ⟨boot_bounded, ⟨rfl, rfl, rfl⟩, by simp⟩

/-- From boot, along any sequence of scancodes: the flags are those of the keys
held and every character is the one due, exactly as long as no shift key is
released with the other one held and the backslash is not typed with both caps
lock and shift. -/
theorem scancodes_decoded_iff (cs : List Byte) :
    Always (withHistory scancodeStep keyLog) Decoded (boot, ⟨.none, []⟩) cs ↔
      Guarded (withHistory scancodeStep keyLog) Distinct (boot, ⟨.none, []⟩) cs :=
  always_iff_guarded (I := Decoding) (fun _ h => ⟨h.follow.shift, h.follow.capslock, h.typed⟩) Decoding.step
    Decoding.not_decoded boot_decoding

/-- Left shift is released with right shift held. -/
theorem scancodes_both_shifts :
    ¬ Always (withHistory scancodeStep keyLog) Decoded (boot, ⟨.none, []⟩)
      [PRESS_LEFT_SHIFT, PRESS_RIGHT_SHIFT, RELEASE_LEFT_SHIFT] := by
  intro h
  have hs : (run (withHistory scancodeStep keyLog) (boot, ⟨.none, []⟩)
      [PRESS_LEFT_SHIFT, PRESS_RIGHT_SHIFT, RELEASE_LEFT_SHIFT]).any
        (fun p => p.1.shiftFlag != p.2.keys.shift) = true := by
    decide +kernel
  obtain ⟨p, hp, hne⟩ := (Option.any_eq_true _ _).mp hs
  exact absurd (h.last hp).shift (by simpa using hne)

end LimeOS
