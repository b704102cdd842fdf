import LimeOS.Proof.Screen

/-!
# What a terminal shows

The cells and the cursor of a terminal as a scrolling terminal of its own
(`Shows`). Output on the terminal `terminalNum` does there what the scrolling
terminal does (`terminalWrite_shows`, `backspacePressed_shows`,
`clearReset_shows`) and leaves the others alone (`Output.shows_other`).
-/


namespace LimeOS

/-! ## Scrolling before or after -/

namespace Screen

theorem put_newline {scr : Screen} (hy : scr.y < 24) : scr.put 0x0a#8 = scr.newline := by
  simp only [put, newline, if_true]
  rw [if_neg (by omega)]

/-- The rows move up before a newline on the last row, or after it. -/
theorem put_newline_last {scr : Screen} (hy : scr.y = 24) : scr.put 0x0a#8 = scr.scroll.newline := by
  simp only [put, newline, scroll, if_true, hy]

theorem put_char {scr : Screen} {c : Byte} (hc : c ≠ 0x0a#8) (hx : scr.x < 80) (hy : scr.cursorCell < 1999) :
    scr.put c = scr.advance c := by
  simp only [cursorCell] at hy
  simp only [put, hc, if_false, advance]
  by_cases h : scr.x + 1 = 80
  · rw [if_pos h, if_neg (show scr.y + 1 ≠ 25 by omega)]
  · rw [if_neg h, if_neg (show scr.y ≠ 25 by omega)]

/-- The rows move up before a character at the last cell, or after it. -/
theorem put_char_last {scr : Screen} {c : Byte} (hc : c ≠ 0x0a#8) (hx : scr.x = 79) (hy : scr.y = 24) :
    scr.put c = scr.scroll.advance c := by
  simp only [put, hc, if_false, advance, hx, hy, cursorCell, scroll, if_true, mk.injEq, and_true]
  funext i
  simp only [Function.update_apply]
  split_ifs <;> first | rfl | (exfalso; omega)

end Screen

/-! ## What one terminal shows -/

/-- The cells and the cursor of terminal `t` are those of the screen. -/
structure Shows (s : State) (t : Nat) (scr : Screen) : Prop where
  cursor : CursorAt s t scr.x scr.y
  x_lt : scr.x < 80
  y_lt : scr.y < 25
  chars : ∀ i < 2000, cell s t i = scr.chars i

theorem scrollScreen_shows {s : State} {scr : Screen} (h : Shows s s.terminalNum scr) (hy : 0 < scr.y) :
    Shows (scrollScreen s) s.terminalNum scr.scroll := by
  obtain ⟨hc, hx, hy', hs⟩ := h
  refine ⟨scrollScreen_cursor ?_, hx, ?_, fun i hi => ?_⟩
  · simp only [Screen.scroll]
    rwa [Nat.sub_add_cancel hy]
  · simp only [Screen.scroll]
    omega
  · rw [scrollScreen_cell s hi]
    simp only [Screen.scroll]
    split
    · exact hs _ (by omega)
    · rfl

theorem putc_shows_newline {s : State} {scr : Screen} (h : Shows s s.terminalNum scr) (hy : scr.y < 24) :
    Shows (putc s 0x0a#8) s.terminalNum scr.newline := by
  obtain ⟨hm, hc⟩ := putc_return (.inl rfl) h.cursor
  refine ⟨hc, Nat.zero_lt_succ _, ?_, fun i hi => ?_⟩
  · simp only [Screen.newline]
    omega
  · rw [cell, hm, (putc_frame s _).videoMem]
    exact h.chars i hi

theorem putc_shows_char {s : State} {c : Byte} {scr : Screen} (hc : c ≠ 0x0a#8 ∧ c ≠ 0x0d#8)
    (h : Shows s s.terminalNum scr) (hy : scr.cursorCell < 1999) :
    Shows (putc s c) s.terminalNum (scr.advance c) := by
  obtain ⟨hm, hp⟩ := putc_char hc h.x_lt hy h.cursor
  have hx := h.x_lt
  simp only [Screen.cursorCell] at hy
  have hchars : ∀ i < 2000,
      cell (putc s c) s.terminalNum i = Function.update scr.chars scr.cursorCell c i := fun i hi => by
    rw [cell, hm, (putc_frame s c).videoMem, Mem.store_byte_of_ne _ _ (by omega),
      Mem.store_byte_of_ne _ _ (by omega), Mem.store_byte, Function.update_apply, Screen.cursorCell]
    by_cases hi' : i = 80 * scr.y + scr.x
    · rw [if_pos (by omega), if_pos hi']
    · rw [if_neg (by omega), if_neg hi']
      exact h.chars i hi
  unfold Screen.advance
  split
  · rw [if_pos (by omega), if_pos (by omega)] at hp
    refine ⟨hp, ?_, ?_, hchars⟩
    · exact Nat.zero_lt_succ _
    · show scr.y + 1 < 25
      omega
  · rw [if_neg (by omega), if_neg (by omega)] at hp
    refine ⟨hp, ?_, ?_, hchars⟩
    · show scr.x + 1 < 80
      omega
    · exact h.y_lt

theorem terminalWriteByte_shows {s : State} {c : Byte} {scr : Screen} (hc : c ≠ 0x0d#8)
    (h : Shows s s.terminalNum scr) : Shows (terminalWriteByte s c) s.terminalNum (scr.put c) := by
  have hx := h.x_lt
  have hy := h.y_lt
  rw [terminalWriteByte_eq c h.cursor]
  by_cases hn : c = 0x0a#8
  · subst hn
    by_cases hl : scr.y = 24
    · rw [if_pos ⟨hl, .inl rfl⟩, Screen.put_newline_last hl]
      refine putc_shows_newline (scrollScreen_shows h (by omega)) ?_
      simp only [Screen.scroll]
      omega
    · rw [if_neg (fun h => hl h.1), Screen.put_newline (by omega)]
      exact putc_shows_newline h (by omega)
  · by_cases hl : scr.y = 24 ∧ scr.x = 79
    · rw [if_pos ⟨hl.1, .inr hl.2⟩, Screen.put_char_last hn hl.2 hl.1]
      refine putc_shows_char ⟨hn, hc⟩ (scrollScreen_shows h (by omega)) ?_
      simp only [Screen.cursorCell, Screen.scroll]
      omega
    · have hcell : scr.cursorCell < 1999 := by
        simp only [Screen.cursorCell]
        omega
      rw [if_neg (by simp only [hn, false_or]; exact hl), Screen.put_char hn hx hcell]
      exact putc_shows_char ⟨hn, hc⟩ h hcell

theorem backspacePressed_shows {s : State} {scr : Screen} (h : Shows s s.terminalNum scr) :
    Shows (backspacePressed s) s.terminalNum scr.backspace := by
  obtain ⟨hm, hc⟩ := backspacePressed_eq h.cursor
  obtain ⟨hx, hy⟩ := back_lt h.x_lt h.y_lt
  refine ⟨hc, hx, hy, fun i hi => ?_⟩
  rw [cell, hm, (backspacePressed_frame s).videoMem, Mem.store_byte_of_ne _ _ (by omega), Mem.store_byte]
  simp only [Screen.backspace, Function.update_apply]
  by_cases hi' : i = 80 * (Screen.back scr.x scr.y).2 + (Screen.back scr.x scr.y).1
  · rw [if_pos (by omega), if_pos hi']
  · rw [if_neg (by omega), if_neg hi']
    exact h.chars i hi

/-- `clear` and `reset_screen`, whatever was shown. -/
theorem clearReset_shows (s : State) : Shows (resetScreen (clear s)) s.terminalNum Screen.blank := by
  have hc := resetScreen_cursor (clear s)
  rw [(clear_frame s).terminalNum] at hc
  refine ⟨hc, ?_, ?_, fun i hi => ?_⟩
  · exact Nat.zero_lt_succ _
  · exact Nat.zero_lt_succ _
  · rw [cell, resetScreen_mem, (resetScreen_frame _).videoMem]
    exact clear_cell s hi

/-! ## The other terminals -/

/-- From `s` to `s'` there was output on the terminal `terminalNum`: only its
cells and its cursor changed. -/
structure Output (s s' : State) : Prop where
  frame : ScreenFrame s s'
  stores : Mem.Stores (InCells (s.videoMem s.terminalNum)) s.mem s'.mem
  cursor : ∀ u ≠ s.terminalNum, s'.screenX u = s.screenX u ∧ s'.screenY u = s.screenY u

namespace Output

theorem refl (s : State) : Output s s := ⟨.refl s, .refl _ _, fun _ _ => ⟨rfl, rfl⟩⟩

theorem trans {s s₁ s₂ : State} (h₁ : Output s s₁) (h₂ : Output s₁ s₂) : Output s s₂ := by
  obtain ⟨hf, hs, hc⟩ := h₂
  rw [h₁.frame.videoMem, h₁.frame.terminalNum] at hs
  rw [h₁.frame.terminalNum] at hc
  refine ⟨h₁.frame.trans hf, h₁.stores.trans hs, fun u hu => ?_⟩
  rw [(hc u hu).1, (hc u hu).2]
  exact h₁.cursor u hu

end Output

theorem putc_cursor_other (s : State) (c : Byte) {u : Nat} (hu : u ≠ s.terminalNum) :
    (putc s c).screenX u = s.screenX u ∧ (putc s c).screenY u = s.screenY u := by
  unfold putc
  simp only
  split <;> simp [hu]

theorem scrollScreen_cursor_other (s : State) {u : Nat} (hu : u ≠ s.terminalNum) :
    (scrollScreen s).screenX u = s.screenX u ∧ (scrollScreen s).screenY u = s.screenY u := by
  simp only [scrollScreen, Function.update_of_ne hu, and_self]

theorem terminalWriteByte_output {s : State} {c : Byte} (hc : c ≠ 0x0d#8) (h : InRange s s.terminalNum) :
    Output s (terminalWriteByte s c) := by
  refine ⟨terminalWriteByte_frame s c, (terminalWriteByte_inRange h fun hs => hc hs.1).2, fun u hu => ?_⟩
  obtain ⟨x, y, -, -, hp⟩ := h.cursorAt
  rw [terminalWriteByte_eq c hp]
  split
  · rw [(putc_cursor_other _ c (by rwa [(scrollScreen_frame s).terminalNum])).1,
      (putc_cursor_other _ c (by rwa [(scrollScreen_frame s).terminalNum])).2]
    exact scrollScreen_cursor_other s hu
  · exact putc_cursor_other s c hu

theorem backspacePressed_output {s : State} (h : InRange s s.terminalNum) : Output s (backspacePressed s) := by
  refine ⟨backspacePressed_frame s, (backspacePressed_inRange h).2, fun u hu => ?_⟩
  simp [backspacePressed, hu]

theorem clearReset_output (s : State) : Output s (resetScreen (clear s)) := by
  refine ⟨(clear_frame s).trans (resetScreen_frame _), ?_, fun u hu => ?_⟩
  · rw [resetScreen_mem]
    exact clear_stores s
  · simp only [resetScreen, updateCursor_screenX, updateCursor_screenY, (clear_frame s).terminalNum,
      Function.update_of_ne hu]
    simp only [clear, and_self]

theorem Shows.inRange {s : State} {t : Nat} {scr : Screen} (h : Shows s t scr) : InRange s t :=
  h.cursor.inRange h.x_lt h.y_lt

/-- Output of bytes none of which is a carriage return. -/
theorem terminalWrite_shows : ∀ (l : List Byte) {s : State} {scr : Screen}, (∀ c ∈ l, c ≠ 0x0d#8) →
    Shows s s.terminalNum scr →
    Shows (l.foldl terminalWriteByte s) s.terminalNum (l.foldl Screen.put scr) ∧
      Output s (l.foldl terminalWriteByte s)
  | [], s, _, _, h => ⟨h, .refl s⟩
  | c :: l, s, scr, hl, h => by
    have hc := hl c List.mem_cons_self
    have hb := terminalWriteByte_output hc h.inRange
    have h' := terminalWriteByte_shows hc h
    rw [← hb.frame.terminalNum] at h'
    obtain ⟨h₁, h₂⟩ := terminalWrite_shows l (fun d hd => hl d (List.mem_cons_of_mem _ hd)) h'
    rw [hb.frame.terminalNum] at h₁
    exact ⟨h₁, hb.trans h₂⟩

/-- No cell of one terminal is a cell of another. -/
def PagesApart (s : State) : Prop :=
  ∀ t < 3, ∀ u < 3, t ≠ u → s.videoMem t + 4000 ≤ s.videoMem u ∨ s.videoMem u + 4000 ≤ s.videoMem t

/-- Output leaves what the other terminals show. -/
theorem Output.shows_other {s s' : State} (h : Output s s') (hp : PagesApart s) (ht : s.terminalNum < 3)
    {u : Nat} (hu : u < 3) (hne : u ≠ s.terminalNum) {scr : Screen} (hs : Shows s u scr) : Shows s' u scr := by
  obtain ⟨hx, hy⟩ := h.cursor u hne
  refine ⟨⟨by rw [hx, hs.cursor.x], by rw [hy, hs.cursor.y]⟩, hs.x_lt, hs.y_lt, fun i hi => ?_⟩
  rw [← hs.chars i hi, cell, cell, h.frame.videoMem]
  refine h.stores.byte_eq fun hc => ?_
  have := hp u hu _ ht hne
  unfold InCells at hc
  omega

end LimeOS
