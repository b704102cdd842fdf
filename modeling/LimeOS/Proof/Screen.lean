import LimeOS.Spec.Screen
import LimeOS.Proof.ScreenFrame

/-!
# The screen functions on one terminal

What the screen functions do to the terminal they work on (`terminalNum`),
whose cursor is in range: they store inside its cells (`InCells`) and move
its characters and its cursor. The code scrolls before it writes, on two
conditions; together they are one (`terminalWriteByte_eq`).
-/

namespace LimeOS

/-- An address in the 80 by 25 cells, of two bytes each, from `base` on. -/
def InCells (base a : Nat) : Prop := base ≤ a ∧ a < base + 4000

/-- The character of cell `i` of terminal `t`, through its page. -/
def cell (s : State) (t i : Nat) : Byte := s.mem.byte (s.videoMem t + 2 * i)

theorem charAddr_natCast (s : State) (i : Nat) : charAddr s i = s.videoMem s.terminalNum + 2 * i := by
  simp only [charAddr]
  omega

/-! ## Scrolling -/

/-- The addresses of the cells' characters. -/
def cellsOf (base : Nat) (m : Mem) (i : Nat) : Byte := m.byte (base + 2 * i)

theorem cellsOf_store (base j : Nat) (m : Mem) (b : Byte) (i : Nat) :
    cellsOf base (m.store (base + 2 * j) b) i = if i = j then b else cellsOf base m i := by
  simp only [cellsOf, Mem.store_byte]
  by_cases h : i = j
  · simp [h]
  · rw [if_neg h, if_neg (by omega)]

theorem scrollCell_eq (s : State) {y : Nat} (hy : 0 < y) (x : Nat) (m : Mem) :
    scrollCell s y x m =
      let base := s.videoMem s.terminalNum
      let m := m.store (base + 2 * (80 * (y - 1) + x)) (cellsOf base m (80 * y + x))
      if y = 24 then m.store (base + 2 * (80 * y + x)) 0x20#8 else m := by
  have h₁ : charAddr s (80 * ((y : Int) - 1) + x) = s.videoMem s.terminalNum + 2 * (80 * (y - 1) + x) := by
    rw [← charAddr_natCast]
    congr 1
    omega
  have h₂ : charAddr s (80 * (y : Int) + x) = s.videoMem s.terminalNum + 2 * (80 * y + x) := by
    rw [← charAddr_natCast]
    congr 1
  simp only [scrollCell, h₁, h₂, cellsOf]

/-- The first `k` columns of a row. -/
theorem scrollRow_cells (s : State) {y : Nat} (hy : 0 < y) (m : Mem) :
    ∀ k ≤ 80, ∀ i, cellsOf (s.videoMem s.terminalNum)
        ((List.range k).foldl (fun m x => scrollCell s y x m) m) i =
      if 80 * (y - 1) ≤ i ∧ i < 80 * (y - 1) + k then cellsOf (s.videoMem s.terminalNum) m (i + 80)
      else if y = 24 ∧ 1920 ≤ i ∧ i < 1920 + k then 0x20#8
      else cellsOf (s.videoMem s.terminalNum) m i
  | 0, _, i => by rw [if_neg (by omega), if_neg (by omega)]; rfl
  | k + 1, hk, i => by
    rw [List.range_succ, List.foldl_append]
    simp only [List.foldl_cons, List.foldl_nil]
    have ih := scrollRow_cells s hy m k (by omega)
    -- the cell that moves up has not been stored to yet
    have hm := ih (80 * y + k)
    rw [if_neg (by omega), if_neg (by omega)] at hm
    rw [scrollCell_eq s hy]
    simp only [hm]
    split
    · rw [cellsOf_store, cellsOf_store, ih]
      clear ih
      split_ifs <;> first | (exfalso; omega) | rfl | (congr 1; omega)
    · rw [cellsOf_store, ih]
      clear ih
      split_ifs <;> first | (exfalso; omega) | rfl | (congr 1; omega)

/-- The first `n` rows. -/
theorem scrollRows_cells (s : State) (m : Mem) :
    ∀ n ≤ 24, ∀ i, cellsOf (s.videoMem s.terminalNum)
        ((List.range' 1 n).foldl (fun m y => scrollRow s y m) m) i =
      if i < 80 * n then cellsOf (s.videoMem s.terminalNum) m (i + 80)
      else if n = 24 ∧ i < 2000 then 0x20#8
      else cellsOf (s.videoMem s.terminalNum) m i
  | 0, _, i => by simp
  | n + 1, hn, i => by
    rw [List.range'_concat, List.foldl_append]
    simp only [List.foldl_cons, List.foldl_nil, Nat.one_mul]
    have ih := scrollRows_cells s m n (by omega)
    rw [scrollRow, scrollRow_cells s (by omega) _ 80 (by omega), ih, ih]
    clear ih
    split_ifs <;> first | (exfalso; omega) | rfl

theorem scrollScreen_cell (s : State) {i : Nat} (hi : i < 2000) :
    cell (scrollScreen s) s.terminalNum i = if i < 1920 then cell s s.terminalNum (i + 80) else 0x20#8 := by
  have h := scrollRows_cells s s.mem 24 (by omega) i
  rw [if_congr (show i < 80 * 24 ↔ i < 1920 by omega) rfl rfl] at h
  simp only [hi, and_self, if_true] at h
  exact h

theorem scrollCell_stores (s : State) {y x : Nat} (hy : 0 < y ∧ y < 25) (hx : x < 80) (m : Mem) :
    Mem.Stores (InCells (s.videoMem s.terminalNum)) m (scrollCell s y x m) := by
  rw [scrollCell_eq s hy.1]
  simp only
  split
  · exact (Mem.Stores.store ⟨by omega, by omega⟩ m _).trans (Mem.Stores.store ⟨by omega, by omega⟩ _ _)
  · exact Mem.Stores.store ⟨by omega, by omega⟩ m _

theorem scrollScreen_stores (s : State) :
    Mem.Stores (InCells (s.videoMem s.terminalNum)) s.mem (scrollScreen s).mem := by
  refine Mem.Stores.foldl_mem _ (fun m y hy => ?_) s.mem
  refine Mem.Stores.foldl_mem _ (fun m x hx => ?_) m
  rw [List.mem_range'_1] at hy
  exact scrollCell_stores s (by omega) (List.mem_range.mp hx) m

/-! ## One byte of output -/

/-- The cursor of terminal `t` is at column `x` of row `y`. -/
structure CursorAt (s : State) (t x y : Nat) : Prop where
  x : s.screenX t = x
  y : s.screenY t = y

theorem scrollScreen_cursor {s : State} {x y : Nat} (h : CursorAt s s.terminalNum x (y + 1)) :
    CursorAt (scrollScreen s) s.terminalNum x y :=
  ⟨h.x, by simp [scrollScreen, h.y]⟩

/-- `putc` of a newline or a carriage return. -/
theorem putc_return {s : State} {c : Byte} (hc : c = 0x0a#8 ∨ c = 0x0d#8) {x y : Nat}
    (h : CursorAt s s.terminalNum x y) :
    (putc s c).mem = s.mem ∧ CursorAt (putc s c) s.terminalNum 0 (y + 1) := by
  unfold putc
  simp only [hc, if_true, true_and]
  exact ⟨by simp, by simp [h.y]⟩

/-- `putc` of a character, not at the last cell. -/
theorem putc_char {s : State} {c : Byte} (hc : c ≠ 0x0a#8 ∧ c ≠ 0x0d#8) {x y : Nat} (hx : x < 80)
    (hy : 80 * y + x < 1999) (h : CursorAt s s.terminalNum x y) :
    let a := s.videoMem s.terminalNum + 2 * (80 * y + x)
    (putc s c).mem = ((s.mem.store a c).store (a + 1) (screenColor s.terminalNum)).store (a + 3)
        (screenColor s.terminalNum) ∧
      CursorAt (putc s c) s.terminalNum (if x = 79 then 0 else x + 1) (if x = 79 then y + 1 else y) := by
  have h0 : charAddr s (80 * (y : Int) + x) = s.videoMem s.terminalNum + 2 * (80 * y + x) :=
    charAddr_natCast s (80 * y + x)
  have h1 : charAddr s (80 * (y : Int) + x + 1) = s.videoMem s.terminalNum + 2 * (80 * y + x + 1) :=
    charAddr_natCast s (80 * y + x + 1)
  unfold putc
  simp only [hc.1, hc.2, or_self, if_false, h.x, h.y, NUM_COLS, NUM_ROWS, h0, h1]
  refine ⟨by congr 1, ⟨?_, ?_⟩⟩
  · simp only [Function.update_self]
    rw [Int.tmod_eq_emod_of_nonneg (by omega)]
    split_ifs <;> omega
  · simp only [Function.update_self]
    rw [Int.tdiv_eq_ediv_of_nonneg (by omega), Int.tmod_eq_emod_of_nonneg (by omega)]
    split_ifs <;> omega

theorem checkOutOfBound_eq {s : State} {x y : Nat} (h : CursorAt s s.terminalNum x y) :
    checkOutOfBound s = if y = 24 then if x = 79 then 2 else 1 else 0 := by
  simp only [checkOutOfBound, h.x, h.y, NUM_COLS, NUM_ROWS]
  split_ifs <;> first | rfl | (exfalso; omega)

/-- The two tests before a byte are one: the rows move up for a newline on the
last row, and for any byte at the last cell. -/
theorem terminalWriteByte_eq {s : State} (c : Byte) {x y : Nat} (h : CursorAt s s.terminalNum x y) :
    terminalWriteByte s c = putc (if y = 24 ∧ (c = 0x0a#8 ∨ x = 79) then scrollScreen s else s) c := by
  unfold terminalWriteByte
  simp only [checkOutOfBound_eq h]
  by_cases hy : y = 24
  · subst hy
    by_cases hx : x = 79
    · simp [hx, checkOutOfBound_eq h]
    · by_cases hn : c = 0x0a#8
      · have h' : CursorAt (scrollScreen s) (scrollScreen s).terminalNum x 23 := scrollScreen_cursor h
        simp [hx, hn, checkOutOfBound_eq h']
      · simp [hx, hn, checkOutOfBound_eq h, SCROLL_LAST_LETTER]
  · simp [hy, checkOutOfBound_eq h]

/-! ## The cursor and the stores -/

/-- A cursor on the screen. -/
structure InRange (s : State) (t : Nat) : Prop where
  x : 0 ≤ s.screenX t ∧ s.screenX t < 80
  y : 0 ≤ s.screenY t ∧ s.screenY t < 25

theorem InRange.cursorAt {s : State} {t : Nat} (h : InRange s t) :
    ∃ x y, x < 80 ∧ y < 25 ∧ CursorAt s t x y :=
  ⟨(s.screenX t).toNat, (s.screenY t).toNat, by have := h.x; omega, by have := h.y; omega,
    by have := h.x; omega, by have := h.y; omega⟩

theorem CursorAt.inRange {s : State} {t x y : Nat} (h : CursorAt s t x y) (hx : x < 80) (hy : y < 25) :
    InRange s t :=
  ⟨by rw [h.x]; omega, by rw [h.y]; omega⟩

/-- A carriage return on the last row, but for its last column: `terminal_write`
does not scroll for it and `putc` moves the cursor off the screen. -/
def StrayReturn (s : State) (c : Byte) : Prop :=
  c = 0x0d#8 ∧ s.screenY s.terminalNum = 24 ∧ s.screenX s.terminalNum ≠ 79

theorem putc_stores {s : State} (c : Byte) {x y : Nat} (hx : x < 80) (hy : 80 * y + x < 1999)
    (h : CursorAt s s.terminalNum x y) :
    Mem.Stores (InCells (s.videoMem s.terminalNum)) s.mem (putc s c).mem := by
  by_cases hc : c = 0x0a#8 ∨ c = 0x0d#8
  · rw [(putc_return hc h).1]
    exact .refl _ _
  · rw [not_or] at hc
    rw [(putc_char hc hx hy h).1]
    exact ((Mem.Stores.store ⟨by omega, by omega⟩ _ _).trans (.store ⟨by omega, by omega⟩ _ _)).trans
      (.store ⟨by omega, by omega⟩ _ _)

theorem putc_inRange {s : State} {c : Byte} {x y : Nat} (hx : x < 80) (hy : 80 * y + x < 1999)
    (h : CursorAt s s.terminalNum x y) (hc : (c = 0x0a#8 ∨ c = 0x0d#8) → y < 24) :
    InRange (putc s c) s.terminalNum := by
  by_cases hr : c = 0x0a#8 ∨ c = 0x0d#8
  · exact (putc_return hr h).2.inRange (by omega) (by have := hc hr; omega)
  · refine (putc_char (not_or.mp hr) hx hy h).2.inRange ?_ ?_
    · split_ifs <;> omega
    · split_ifs <;> omega

/-- A byte of output keeps the cursor on the screen and stores inside the cells. -/
theorem terminalWriteByte_inRange {s : State} {c : Byte} (h : InRange s s.terminalNum)
    (hc : ¬ StrayReturn s c) :
    InRange (terminalWriteByte s c) s.terminalNum ∧
      Mem.Stores (InCells (s.videoMem s.terminalNum)) s.mem (terminalWriteByte s c).mem := by
  obtain ⟨x, y, hx, hy, hp⟩ := h.cursorAt
  have hcr : c = 0x0d#8 → y = 24 → x = 79 := fun e ey => by
    by_contra hn
    exact hc ⟨e, by rw [hp.y]; omega, by rw [hp.x]; omega⟩
  rw [terminalWriteByte_eq c hp]
  by_cases hs : y = 24 ∧ (c = 0x0a#8 ∨ x = 79)
  · rw [if_pos hs]
    have hp' : CursorAt (scrollScreen s) (scrollScreen s).terminalNum x 23 :=
      scrollScreen_cursor (by obtain ⟨rfl, -⟩ := hs; exact hp)
    exact ⟨putc_inRange hx (by omega) hp' fun _ => by omega,
      (scrollScreen_stores s).trans (putc_stores c hx (by omega) hp')⟩
  · rw [if_neg hs]
    have hl : 80 * y + x < 1999 := by omega
    refine ⟨putc_inRange hx hl hp fun hr => ?_, putc_stores c hx hl hp⟩
    rcases hr with e | e
    · have : y ≠ 24 := fun ey => hs ⟨ey, .inl e⟩
      omega
    · have : y ≠ 24 := fun ey => hs ⟨ey, .inr (hcr e ey)⟩
      omega

/-- A stray carriage return moves the cursor to row 25. -/
theorem terminalWriteByte_stray {s : State} {c : Byte} (h : InRange s s.terminalNum)
    (hc : StrayReturn s c) : (terminalWriteByte s c).screenY s.terminalNum = 25 := by
  obtain ⟨x, y, hx, hy, hp⟩ := h.cursorAt
  have hy' : y = 24 := by have := hc.2.1; rw [hp.y] at this; omega
  have hx' : x ≠ 79 := fun e => hc.2.2 (by rw [hp.x]; omega)
  rw [terminalWriteByte_eq c hp, if_neg (by rw [hc.1]; simp [hx'])]
  rw [(putc_return (.inr hc.1) hp).2.y, hy']
  rfl

/-! ## Backspace and clearing -/

theorem backspaceCursor_natCast (x y : Nat) :
    backspaceCursor x y = (((Screen.back x y).1 : Int), ((Screen.back x y).2 : Int)) := by
  simp only [backspaceCursor, NUM_COLS, Screen.back]
  split_ifs <;> first | (exfalso; omega) | rw [Prod.mk.injEq]
  all_goals omega

theorem back_lt {x y : Nat} (hx : x < 80) (hy : y < 25) : (Screen.back x y).1 < 80 ∧ (Screen.back x y).2 < 25 := by
  simp only [Screen.back]
  split_ifs <;> omega

theorem backspacePressed_eq {s : State} {x y : Nat} (h : CursorAt s s.terminalNum x y) :
    let p := Screen.back x y
    let a := s.videoMem s.terminalNum + 2 * (80 * p.2 + p.1)
    (backspacePressed s).mem = (s.mem.store a 0x20#8).store (a + 1) ATTRIB ∧
      CursorAt (backspacePressed s) s.terminalNum p.1 p.2 := by
  have ha : charAddr s (80 * ((Screen.back x y).2 : Int) + (Screen.back x y).1) =
      s.videoMem s.terminalNum + 2 * (80 * (Screen.back x y).2 + (Screen.back x y).1) :=
    charAddr_natCast s (80 * (Screen.back x y).2 + (Screen.back x y).1)
  unfold backspacePressed
  simp only [h.x, h.y, backspaceCursor_natCast, NUM_COLS, ha, updateCursor_mem]
  exact ⟨trivial, by simp, by simp⟩

theorem backspacePressed_inRange {s : State} (h : InRange s s.terminalNum) :
    InRange (backspacePressed s) s.terminalNum ∧
      Mem.Stores (InCells (s.videoMem s.terminalNum)) s.mem (backspacePressed s).mem := by
  obtain ⟨x, y, hx, hy, hp⟩ := h.cursorAt
  obtain ⟨hm, hc⟩ := backspacePressed_eq hp
  obtain ⟨hx', hy'⟩ := back_lt hx hy
  refine ⟨hc.inRange hx' hy', ?_⟩
  rw [hm]
  exact (Mem.Stores.store ⟨by omega, by omega⟩ _ _).trans (.store ⟨by omega, by omega⟩ _ _)

theorem clear_stores (s : State) :
    Mem.Stores (InCells (s.videoMem s.terminalNum)) s.mem (clear s).mem := by
  simp only [clear]
  refine Mem.Stores.foldl_mem _ (fun m i hi => ?_) s.mem
  rw [List.mem_range] at hi
  rw [charAddr_natCast]
  exact (Mem.Stores.store ⟨by omega, by omega⟩ _ _).trans (.store ⟨by omega, by omega⟩ _ _)

/-- The first `n` cells. -/
theorem clearCells (s : State) (m : Mem) :
    ∀ n i, cellsOf (s.videoMem s.terminalNum) ((List.range n).foldl (fun m (i : Nat) =>
        (m.store (charAddr s i) 0x20#8).store (charAddr s i + 1) (screenColor s.terminalNum)) m) i =
      if i < n then 0x20#8 else cellsOf (s.videoMem s.terminalNum) m i
  | 0, i => by simp
  | n + 1, i => by
    rw [List.range_succ, List.foldl_append]
    simp only [List.foldl_cons, List.foldl_nil, charAddr_natCast]
    have ih := clearCells s m n i
    simp only [cellsOf, Mem.store_byte, charAddr_natCast] at ih ⊢
    rw [ih]
    split_ifs <;> first | rfl | (exfalso; omega)

theorem clear_cell (s : State) {i : Nat} (hi : i < 2000) : cell (clear s) s.terminalNum i = 0x20#8 := by
  have h := clearCells s s.mem 2000 i
  rw [if_pos hi] at h
  simpa only [cell, clear, cellsOf] using h

theorem resetScreen_cursor (s : State) : CursorAt (resetScreen s) s.terminalNum 0 0 := by
  unfold resetScreen
  exact ⟨by simp, by simp⟩

theorem resetScreen_mem (s : State) : (resetScreen s).mem = s.mem := by
  unfold resetScreen
  simp

end LimeOS
