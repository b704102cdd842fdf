import LimeOS.Proof.Display
import LimeOS.Proof.Keyboard

/-!
# The line being edited

However its bytes are split into calls, `terminal_write` does what the scrolling
terminal does with them one by one (`terminalWrites_screen`). The keyboard's
echo goes through `terminal_write` and its erasing through `backspace_pressed`:
the line under edit stands on the screen from its start cell up to the cursor
(`LineShown`), after any typing and erasing (`editing_lineShown`).
-/

namespace LimeOS

/-! ## Calls of `terminal_write` -/

/-- Calls of `terminal_write`, one after another: what they return and the state after them. -/
def terminalWrites (s : State) : List ((Nat → Byte) × Nat) → List Int × State
  | [] => ([], s)
  | call :: calls =>
    let r := terminalWrite s call.1 call.2
    let r' := terminalWrites r.2 calls
    (r.1 :: r'.1, r'.2)

/-- The bytes of a call. -/
def writtenBytes (call : (Nat → Byte) × Nat) : List Byte := (List.range call.2).map call.1

/-- The calls are one output of all their bytes. -/
theorem terminalWrites_eq (calls : List ((Nat → Byte) × Nat)) (s : State) :
    terminalWrites s calls =
      (calls.map fun call => (call.2 : Int), (calls.flatMap writtenBytes).foldl terminalWriteByte s) := by
  induction calls generalizing s with
  | nil => rfl
  | cons call calls ih =>
    rw [terminalWrites, ih, List.flatMap_cons, List.foldl_append]
    simp only [terminalWrite, Int.toNat_natCast, writtenBytes, List.map_cons]

/-- From a cursor on the screen, bytes without carriage returns, in any number
of calls: each call returns its byte count, and the terminal shows what the
scrolling terminal makes of the bytes. -/
theorem terminalWrites_screen (s : State) (hr : InRange s s.terminalNum) (l : List Byte) (hl : 0x0d#8 ∉ l)
    (calls : List ((Nat → Byte) × Nat)) (hcalls : calls.flatMap writtenBytes = l) :
    (terminalWrites s calls).1 = calls.map (fun call => (call.2 : Int)) ∧
      Shows (terminalWrites s calls).2 s.terminalNum (l.foldl Screen.put (screensOf s s.terminalNum)) := by
  subst hcalls
  rw [terminalWrites_eq]
  refine ⟨rfl, (terminalWrite_shows _ ?_ (screensOf_shows hr)).1⟩
  intro c hc e
  exact hl (e ▸ hc)

theorem boot_inRange (t : Nat) : InRange boot t :=
  CursorAt.inRange (x := 0) (y := 0) ⟨rfl, rfl⟩ (by decide) (by decide)

/-- Four characters and a newline a call, 26 times: the screen has scrolled by two rows, and shows the last lines. -/
theorem terminalWrites_screen_boot :
    let calls : List ((Nat → Byte) × Nat) := List.replicate 26 (fun i => if i = 4 then 0x0a#8 else 0x61#8, 5)
    (terminalWrites boot calls).1 = List.replicate 26 5 ∧ ∃ scr, Shows (terminalWrites boot calls).2 0 scr ∧
      scr.x = 0 ∧ scr.y = 24 ∧ scr.chars (80 * 23 + 3) = 0x61#8 ∧ scr.chars (80 * 24) = 0x20#8 := by
  intro calls
  obtain ⟨h₁, h₂⟩ := terminalWrites_screen boot (boot_inRange 0) _ (by decide +kernel) calls rfl
  exact ⟨h₁, _, h₂, by decide +kernel, by decide +kernel, by decide +kernel, by decide +kernel⟩

/-! ## A line on the screen -/

namespace Screen

/-- The cells from `start` on hold `n` bytes of a line, up to the cursor. -/
structure Line (scr : Screen) (start n : Nat) (line : Nat → Byte) : Prop where
  cursor : scr.cursorCell = start + n
  chars : ∀ i < n, scr.chars (start + i) = line i

namespace Line

variable {scr : Screen} {start n : Nat} {line : Nat → Byte}

theorem congr (h : scr.Line start n line) {line' : Nat → Byte} (hl : ∀ i < n, line' i = line i) :
    scr.Line start n line' := by
  refine ⟨h.cursor, fun i hi => ?_⟩
  rw [hl i hi]
  exact h.chars i hi

/-- A character after the line. -/
theorem advance (h : scr.Line start n line) : (scr.advance (line n)).Line start (n + 1) line := by
  have hcell := h.cursor
  have hchars : ∀ i < n + 1, Function.update scr.chars scr.cursorCell (line n) (start + i) = line i := by
    intro i hi
    rw [Function.update_apply, hcell]
    split
    · rw [show i = n by omega]
    · exact h.chars i (by omega)
  simp only [cursorCell] at hcell
  unfold Screen.advance
  split
  · refine ⟨?_, hchars⟩
    simp only [cursorCell]
    omega
  · refine ⟨?_, hchars⟩
    simp only [cursorCell]
    omega

/-- The rows move up, and the line with them. -/
theorem scroll (h : scr.Line start n line) (hs : 80 ≤ start) (hc : scr.cursorCell < 2000) (hy : 0 < scr.y) :
    scr.scroll.Line (start - 80) n line := by
  have hcell := h.cursor
  refine ⟨?_, fun i hi => ?_⟩
  · simp only [cursorCell, Screen.scroll] at hcell ⊢
    omega
  · show (if start - 80 + i < 1920 then scr.chars (start - 80 + i + 80) else 0x20#8) = line i
    rw [if_pos (by omega), show start - 80 + i + 80 = start + i by omega]
    exact h.chars i hi

/-- One more byte of output, which the rows move up for at the last cell. -/
theorem put (h : scr.Line start n line) (hn : line n ≠ 0x0a#8) (hx : scr.x < 80) (hy : scr.y < 25)
    (hs : scr.cursorCell = 1999 → 80 ≤ start) :
    (scr.put (line n)).Line (if scr.cursorCell = 1999 then start - 80 else start) (n + 1) line := by
  by_cases hl : scr.cursorCell = 1999
  · have hcell := hl
    simp only [cursorCell] at hcell
    rw [if_pos hl, put_char_last hn (by omega) (by omega)]
    exact (h.scroll (hs hl) (by omega) (by omega)).advance
  · have hcell := hl
    simp only [cursorCell] at hcell
    rw [if_neg hl, put_char hn hx (by simp only [cursorCell]; omega)]
    exact h.advance

/-- The last character of the line is erased. -/
theorem backspace (h : scr.Line start (n + 1) line) (hx : scr.x < 80) : scr.backspace.Line start n line := by
  have hcell := h.cursor
  simp only [cursorCell] at hcell
  have hback : 80 * (back scr.x scr.y).2 + (back scr.x scr.y).1 = start + n := by
    simp only [back]
    split_ifs <;> omega
  refine ⟨hback, fun i hi => ?_⟩
  show Function.update scr.chars (80 * (back scr.x scr.y).2 + (back scr.x scr.y).1) 0x20#8 (start + i) = line i
  rw [hback, Function.update_of_ne (by omega)]
  exact h.chars i (by omega)

end Line

end Screen

/-! ## The handler's echo -/

/-- A character with room for it: it is stored and shown. -/
theorem keyboardHandler_type {s : State} {c b : Byte} (hs : Settled s) (hk : keyOp s c = .type b)
    (hi : s.bufIndex s.terminalNum < 126) :
    keyboardHandler s c = { terminalWriteByte (pushChar { s with isAdd := true } b) b with isAdd := false } := by
  have hd := keyboardOutputDealer_dealt s c
  rw [hk, Dealt, if_pos hi] at hd
  generalize hp : pushChar { s with isAdd := true } b = s₁ at hd ⊢
  have ha : s₁.isAdd = true := by rw [← hp]; rfl
  have he : s₁.enterFlag = false := by rw [← hp]; exact hs.enterFlag
  have hb : s₁.charBuf.byte (s₁.bufIndex s₁.terminalNum).toNat = b := by
    rw [← hp]
    simp [pushChar]
  have hw : (terminalWrite s₁ (fun i => s₁.charBuf.byte (s₁.bufIndex s₁.terminalNum + i).toNat) 1).2 =
      terminalWriteByte s₁ b := by
    simp [terminalWrite, hb]
  have hf := (terminalWriteByte_frame s₁ b).enterFlag
  simp only [keyboardHandler, hd, ha, hw, if_true]
  rw [if_neg (by simp [hf, he])]

/-- Backspace and the keys without a meaning have nothing to show. -/
theorem keyboardOutputDealer_settled {s : State} {c : Byte} (hs : Settled s)
    (hk : keyOp s c = .backspace ∨ keyOp s c = .other) : Settled (keyboardOutputDealer s c) := by
  apply (keyboardOutputDealer_dealt s c).settled hs
  · rcases hk with hk | hk <;> simp [hk]
  · rcases hk with hk | hk <;> simp [hk]

theorem keyboardHandler_backspace {s : State} {c : Byte} (hs : Settled s) (hk : keyOp s c = .backspace) :
    keyboardHandler s c = if s.bufIndex s.terminalNum > -1 then
      backspacePressed { s with
        bufIndex := Function.update s.bufIndex s.terminalNum (s.bufIndex s.terminalNum - 1) } else s := by
  have hd := keyboardOutputDealer_dealt s c
  rw [hk, Dealt] at hd
  rw [keyboardHandler_quiet (keyboardOutputDealer_settled hs (.inl hk)), hd]

/-- A character that the full line has no room for. -/
theorem keyboardHandler_full {s : State} {c b : Byte} (hs : Settled s) (hk : keyOp s c = .type b)
    (hi : ¬ s.bufIndex s.terminalNum < 126) : keyboardOutputDealer s c = s ∧ keyboardHandler s c = s := by
  have hd := keyboardOutputDealer_dealt s c
  rw [hk, Dealt, if_neg hi] at hd
  refine ⟨hd, ?_⟩
  rw [keyboardHandler_quiet, hd]
  rw [hd]
  exact hs

theorem keyboardHandler_other {s : State} {c : Byte} (hs : Settled s) (hk : keyOp s c = .other) :
    FlagFrame s (keyboardHandler s c) := by
  have hd := keyboardOutputDealer_dealt s c
  rw [hk, Dealt] at hd
  rw [keyboardHandler_quiet (keyboardOutputDealer_settled hs (.inr hk))]
  exact hd

/-! ## Typing and erasing -/

/-- A character, Backspace, or a key that does neither type nor end the line. -/
def KeyOp.Edits : KeyOp → Prop
  | .type _ => True
  | .backspace => True
  | .other => True
  | _ => False

instance : ∀ op : KeyOp, Decidable op.Edits
  | .type _ => .isTrue trivial
  | .backspace => .isTrue trivial
  | .other => .isTrue trivial
  | .enter => .isFalse id
  | .clear => .isFalse id
  | .switch _ => .isFalse id

/-- A key pressed while the line is edited. -/
def editStep (s : State) (c : Byte) : Option State :=
  if (keyOp s c).Edits then some (keyboardHandler s c) else none

/-- The calls of `scroll_screen` for a byte of output. -/
def byteScrolls (s : State) (c : Byte) : Nat :=
  let enter := checkOutOfBound s = SCROLL_ENTER_PRESSED ∧ c = 0x0a#8
  let s' := if enter then scrollScreen s else s
  (if enter then 1 else 0) + if checkOutOfBound s' = SCROLL_LAST_LETTER then 1 else 0

/-- The calls of `scroll_screen` for a key. -/
def keyScrolls (s : State) (c : Byte) : Nat :=
  let s := keyboardOutputDealer s c
  if s.isAdd then byteScrolls s (s.charBuf.byte (s.bufIndex s.terminalNum).toNat) else 0

/-- The calls of `scroll_screen` so far. -/
def scrollsSoFar (s : State) (c : Byte) (n : Nat) : Nat := n + keyScrolls s c

/-- The cell under the cursor of the displayed terminal. -/
def cursorAtCell (s : State) : Int := 80 * s.screenY s.terminalNum + s.screenX s.terminalNum

/-- The line stands on the screen from cell `start` up to the cursor. -/
structure LineShown (s : State) (start : Nat) : Prop where
  inRange : InRange s s.terminalNum
  cursor : cursorAtCell s = start + s.bufIndex s.terminalNum + 1
  cells : ∀ i : Nat, (i : Int) ≤ s.bufIndex s.terminalNum → cell s s.terminalNum (start + i) = s.charBuf.byte i

theorem LineShown.line {s : State} {start : Nat} (h : LineShown s start) (hi : -1 ≤ s.bufIndex s.terminalNum) :
    (screensOf s s.terminalNum).Line start (s.bufIndex s.terminalNum + 1).toNat s.charBuf.byte := by
  have hcell := h.cursor
  have hx := h.inRange.x
  have hy := h.inRange.y
  refine ⟨?_, fun i hn => h.cells i (by omega)⟩
  simp only [Screen.cursorCell, screensOf, cursorAtCell] at hcell ⊢
  omega

theorem Screen.Line.lineShown {s : State} {scr : Screen} {start n : Nat} (h : scr.Line start n s.charBuf.byte)
    (hs : Shows s s.terminalNum scr) (hi : s.bufIndex s.terminalNum + 1 = n) : LineShown s start := by
  have hcell := h.cursor
  have hx := hs.x_lt
  have hy := hs.y_lt
  simp only [Screen.cursorCell] at hcell
  refine ⟨hs.inRange, ?_, fun i hn => ?_⟩
  · rw [cursorAtCell, hs.cursor.x, hs.cursor.y]
    omega
  · rw [hs.chars _ (by omega)]
    exact h.chars i (by omega)

/-- For a character the rows move up at the last cell. -/
theorem byteScrolls_char {s : State} {c : Byte} {scr : Screen} (hc : c ≠ 0x0a#8) (h : Shows s s.terminalNum scr) :
    byteScrolls s c = if scr.cursorCell = 1999 then 1 else 0 := by
  have hx := h.x_lt
  have hy := h.y_lt
  have hl : checkOutOfBound s = SCROLL_LAST_LETTER ↔ scr.cursorCell = 1999 := by
    rw [checkOutOfBound_eq h.cursor, Screen.cursorCell]
    split_ifs <;> simp [SCROLL_LAST_LETTER] <;> omega
  simp [byteScrolls, hc, hl]

/-- What a terminal shows is a matter of its page and its cursor. -/
theorem Shows.congr {s s' : State} {t : Nat} {scr : Screen} (h : Shows s t scr) (hv : s'.videoMem = s.videoMem)
    (hm : s'.mem = s.mem) (hx : s'.screenX = s.screenX) (hy : s'.screenY = s.screenY) : Shows s' t scr := by
  refine ⟨⟨?_, ?_⟩, h.x_lt, h.y_lt, fun i hi => ?_⟩
  · rw [hx, h.cursor.x]
  · rw [hy, h.cursor.y]
  · rw [cell, hv, hm]
    exact h.chars i hi

/-- A character with room for it is one byte of output. -/
theorem keyboardHandler_type_shows {s : State} {c b : Byte} {scr : Screen} (hs : Settled s)
    (hk : keyOp s c = .type b) (hi : s.bufIndex s.terminalNum < 126) (h : Shows s s.terminalNum scr) :
    Shows (keyboardHandler s c) s.terminalNum (scr.put b) ∧
      keyScrolls s c = if scr.cursorCell = 1999 then 1 else 0 := by
  have hb := keyOp_type_ne hk
  have h₁ : Shows (pushChar { s with isAdd := true } b) s.terminalNum scr := h.congr rfl rfl rfl rfl
  refine ⟨?_, ?_⟩
  · rw [keyboardHandler_type hs hk hi]
    exact (terminalWriteByte_shows hb.2 h₁).congr rfl rfl rfl rfl
  · have hd := keyboardOutputDealer_dealt s c
    rw [hk, Dealt, if_pos hi] at hd
    rw [← byteScrolls_char hb.1 h₁]
    simp [keyScrolls, hd, pushChar]

theorem keyboardHandler_backspace_shows {s : State} {c : Byte} {scr : Screen} (hs : Settled s)
    (hk : keyOp s c = .backspace) (hi : s.bufIndex s.terminalNum > -1) (h : Shows s s.terminalNum scr) :
    Shows (keyboardHandler s c) s.terminalNum scr.backspace := by
  rw [keyboardHandler_backspace hs hk, if_pos hi]
  exact backspacePressed_shows (h.congr rfl rfl rfl rfl)

theorem scrollsSoFar_quiet {s : State} {c : Byte} (h : Settled (keyboardOutputDealer s c)) (n : Nat) :
    scrollsSoFar s c n = n := by
  simp [scrollsSoFar, keyScrolls, h.isAdd]

/-- A line under edit, that began at the cell `cell₀` of the terminal `t`. -/
structure Editing (t : Nat) (cell₀ : Int) (p : State × Nat) : Prop where
  terminal : p.1.terminalNum = t
  settled : Settled p.1
  index : -1 ≤ p.1.bufIndex t ∧ p.1.bufIndex t ≤ 126
  line : ∃ start : Nat, start + 80 * p.2 = cell₀ ∧ LineShown p.1 start

namespace Editing

variable {t : Nat} {cell₀ : Int} {s : State} {n : Nat} {c b : Byte}

/-- A character with room for it. -/
theorem type (h : Editing t cell₀ (s, n)) (hk : keyOp s c = .type b) (hi : s.bufIndex t < 126) :
    Editing t cell₀ (keyboardHandler s c, scrollsSoFar s c n) := by
  obtain ⟨rfl, hs, ⟨hi₀, -⟩, start, hstart, hl⟩ := h
  simp only at hs hi₀ hstart hl hi
  obtain ⟨hsh, hscrolls⟩ := keyboardHandler_type_shows hs hk hi (screensOf_shows hl.inRange)
  have hin := (keyboardHandler_input c hs.enterFlag).1
  rw [hk, Input.press, if_pos (show s.input.index < 126 from hi)] at hin
  have hterm : (keyboardHandler s c).terminalNum = s.terminalNum := congrArg Input.terminalNum hin
  have hbuf : (keyboardHandler s c).charBuf = s.charBuf.store (s.bufIndex s.terminalNum + 1).toNat b :=
    congrArg Input.charBuf hin
  have hidx : (keyboardHandler s c).bufIndex s.terminalNum = s.bufIndex s.terminalNum + 1 := by
    rw [show (keyboardHandler s c).bufIndex = (s.input.push b).bufIndex from congrArg Input.bufIndex hin]
    exact Function.update_self _ _ _
  -- the buffer has the character after the line, where the screen is to show it
  have hline : (screensOf s s.terminalNum).Line start (s.bufIndex s.terminalNum + 1).toNat
      (keyboardHandler s c).charBuf.byte := by
    apply (hl.line hi₀).congr
    intro i hi
    rw [hbuf, Mem.store_byte_of_ne _ _ (by omega)]
  have hchar : (keyboardHandler s c).charBuf.byte (s.bufIndex s.terminalNum + 1).toNat = b := by
    rw [hbuf, Mem.store_byte_self]
  have hx := (screensOf_shows hl.inRange).x_lt
  have hy := (screensOf_shows hl.inRange).y_lt
  generalize screensOf s s.terminalNum = scr at *
  have hcell := hline.cursor
  have hput := hline.put (by rw [hchar]; exact (keyOp_type_ne hk).1) hx hy (by omega)
  rw [hchar] at hput
  refine ⟨hterm, keyboardHandler_settled s c, ?_, _, ?_, hput.lineShown ?_ ?_⟩
  · rw [hidx]
    omega
  · rw [scrollsSoFar, hscrolls]
    split <;> omega
  · rw [hterm]
    exact hsh
  · rw [hterm, hidx]
    omega

/-- Backspace on a line that is not empty. -/
theorem backspace (h : Editing t cell₀ (s, n)) (hk : keyOp s c = .backspace) (hi : s.bufIndex t > -1) :
    Editing t cell₀ (keyboardHandler s c, scrollsSoFar s c n) := by
  obtain ⟨rfl, hs, ⟨hi₀, hi₁⟩, start, hstart, hl⟩ := h
  simp only at hs hi₀ hi₁ hstart hl hi
  have hsh := keyboardHandler_backspace_shows hs hk hi (screensOf_shows hl.inRange)
  have hin := (keyboardHandler_input c hs.enterFlag).1
  rw [hk, Input.press, if_pos (show s.input.index > -1 from hi)] at hin
  have hterm : (keyboardHandler s c).terminalNum = s.terminalNum := congrArg Input.terminalNum hin
  have hbuf : (keyboardHandler s c).charBuf = s.charBuf := congrArg Input.charBuf hin
  have hidx : (keyboardHandler s c).bufIndex s.terminalNum = s.bufIndex s.terminalNum - 1 := by
    rw [show (keyboardHandler s c).bufIndex = (s.input.setIndex (s.input.index - 1)).bufIndex from
      congrArg Input.bufIndex hin]
    exact Function.update_self _ _ _
  have hline := hl.line hi₀
  rw [show (s.bufIndex s.terminalNum + 1).toNat = (s.bufIndex s.terminalNum).toNat + 1 by omega, ← hbuf] at hline
  rw [scrollsSoFar_quiet (keyboardOutputDealer_settled hs (.inl hk))]
  refine ⟨hterm, keyboardHandler_settled s c, ?_, start, hstart,
    (hline.backspace (screensOf_shows hl.inRange).x_lt).lineShown ?_ ?_⟩
  · rw [hidx]
    omega
  · rw [hterm]
    exact hsh
  · rw [hterm, hidx]
    omega

/-- A key that leaves the line. -/
theorem other (h : Editing t cell₀ (s, n)) (hk : keyOp s c = .other) :
    Editing t cell₀ (keyboardHandler s c, scrollsSoFar s c n) := by
  obtain ⟨rfl, hs, hi, start, hstart, hl⟩ := h
  simp only at hs hi hstart hl
  have hf := (keyboardHandler_other hs hk).1
  rw [scrollsSoFar_quiet (keyboardOutputDealer_settled hs (.inr hk))]
  refine ⟨by rw [hf], keyboardHandler_settled s c, by rw [hf]; exact hi, start, hstart, ?_⟩
  rw [hf]
  exact ⟨⟨hl.inRange.x, hl.inRange.y⟩, hl.cursor, hl.cells⟩

theorem step (t : Nat) (cell₀ : Int) (p : State × Nat) (c : Byte) (p' : State × Nat) (h : Editing t cell₀ p)
    (hp : withHistory editStep scrollsSoFar p c = some p') : Editing t cell₀ p' := by
  obtain ⟨hs, hn⟩ := withHistory_eq_some hp
  obtain ⟨s, n⟩ := p
  obtain ⟨s', n'⟩ := p'
  simp only [editStep] at hs hn
  split at hs
  · rename_i hop
    obtain rfl := Option.some.inj hs
    subst hn
    have hset := h.settled
    have hterm := h.terminal
    cases hk : keyOp s c with
    | type b =>
      by_cases hi : s.bufIndex t < 126
      · exact h.type hk hi
      · simp only at hset hterm
        rw [← hterm] at hi
        obtain ⟨hd, hh⟩ := keyboardHandler_full hset hk hi
        rw [hh, scrollsSoFar_quiet (by rw [hd]; exact hset)]
        exact h
    | backspace =>
      by_cases hi : s.bufIndex t > -1
      · exact h.backspace hk hi
      · simp only at hset hterm
        rw [← hterm] at hi
        rw [keyboardHandler_backspace hset hk, if_neg hi,
          scrollsSoFar_quiet (keyboardOutputDealer_settled hset (.inl hk))]
        exact h
    | other => exact h.other hk
    | enter =>
      rw [hk] at hop
      cases hop
    | clear =>
      rw [hk] at hop
      cases hop
    | switch newTty =>
      rw [hk] at hop
      cases hop
  · cases hs

end Editing

/-- Backspace on an empty line, and a character beyond the 127th, change nothing. -/
def IdleKeys (s : State) : Prop :=
  (s.bufIndex s.terminalNum = -1 → ∀ c, keyOp s c = .backspace → keyboardHandler s c = s) ∧
    (s.bufIndex s.terminalNum = 126 → ∀ c b, keyOp s c = .type b → keyboardHandler s c = s)

/-- From any cursor on the screen with an empty line, after every key that types
or erases: the line stands on the screen, from the cell where the cursor was,
moved up a row for each scroll, to the cursor. -/
theorem editing_lineShown (s : State) (hs : Settled s) (hr : InRange s s.terminalNum)
    (hi : s.bufIndex s.terminalNum = -1) (cs : List Byte) :
    Always (withHistory editStep scrollsSoFar) (fun p =>
      p.1.terminalNum = s.terminalNum ∧
      (∃ start : Nat, start + 80 * p.2 = cursorAtCell s ∧ LineShown p.1 start) ∧ IdleKeys p.1) (s, 0) cs := by
  refine always_inv (I := Editing s.terminalNum (cursorAtCell s)) (fun p h => ?_) (Editing.step _ _) ?_
  · refine ⟨h.terminal, h.line, fun hidx c hk => ?_, fun hidx c b hk => ?_⟩
    · rw [keyboardHandler_backspace h.settled hk, if_neg (by omega)]
    · exact (keyboardHandler_full h.settled hk (by omega)).2
  · have hx := hr.x
    have hy := hr.y
    have hcell : ((cursorAtCell s).toNat : Int) = cursorAtCell s := by
      rw [cursorAtCell]
      omega
    refine ⟨rfl, hs, by simp only [hi]; decide, (cursorAtCell s).toNat, ?_, hr, ?_, fun i hle => ?_⟩
    · simp only [hcell]
      omega
    · show cursorAtCell s = (cursorAtCell s).toNat + s.bufIndex s.terminalNum + 1
      rw [hcell, hi]
      omega
    · rw [hi] at hle
      omega

/-- The kernel at boot, with the cursor on the last row. -/
def lastRow : State := { boot with screenY := fun _ => 24 }

/-- Backspace on the empty line, a row of `a` and one more, Backspace twice and `b`. -/
def longLine : List Byte := 0x0e#8 :: (List.replicate 81 0x1e#8 ++ [0x0e#8, 0x0e#8, 0x30#8])

/-- The line has scrolled the screen. -/
theorem editing_lineShown_lastRow :
    ((run (withHistory editStep scrollsSoFar) (lastRow, 0) longLine).map fun p =>
      (p.1.bufIndex 0, p.1.charBuf.byte 79, p.2)) = some (79, 0x62#8, 1) ∧
    Always (withHistory editStep scrollsSoFar) (fun p =>
      p.1.terminalNum = 0 ∧ (∃ start : Nat, start + 80 * p.2 = cursorAtCell lastRow ∧ LineShown p.1 start) ∧
      IdleKeys p.1) (lastRow, 0) longLine :=
  ⟨by decide +kernel, editing_lineShown lastRow ⟨rfl, rfl⟩
    (CursorAt.inRange (x := 0) (y := 24) ⟨rfl, rfl⟩ (by decide) (by decide)) rfl _⟩

end LimeOS
