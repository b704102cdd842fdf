import LimeOS.Impl.Memory
import LimeOS.Proof.Memcpy

/-!
# `memset` and `memcpy` a word at a time

What the two move is counted: `W k` is the work of `k` bytes, a byte does `W 1`
and an iteration of the string instruction `W 4` (`Wordwise`). The head, the
words and the tail then do the work of their counts, and the code ends with that
of all bytes (`Wordwise.runs`), whatever the alignment.
-/

namespace LimeOS

/-- What the byte moves and the string instruction do: `W k` is the work of `k` bytes,
and neither of the counters is in it. -/
structure Wordwise (move : List ByteInstr) (rep : ByteInstr) (W : Nat → ByteCpu → ByteCpu → Prop) : Prop where
  other : ∀ c c', (∀ r, r ≠ .ecx → r ≠ .edx → c'.reg r = c.reg r) → c'.mem = c.mem → W 0 c c'
  trans : ∀ i j c c₁ c₂, W i c c₁ → W j c₁ c₂ → W (i + j) c c₂
  byte : ∀ c, ∃ c', move.foldlM ByteCpu.exec c = some c' ∧ W 1 c c' ∧ c'.reg .ecx = c.reg .ecx ∧
    c'.reg .edx = c.reg .edx
  word : ∀ c, c.df = false → ∃ c', c.iteration rep = some c' ∧ W 4 c c' ∧ c'.df = false ∧
    c'.reg .ecx = c.reg .ecx ∧ c'.reg .edx = c.reg .edx

/-! ## The code -/

section

variable (move : List ByteInstr) (rep : ByteInstr)

theorem wordwise_top : [.testl .ecx .ecx, .jz (17 + 2 * move.length)] <+: (wordwise move rep).drop 0 := by
  simp [wordwise]

theorem wordwise_test : [.testlImm 0x3 .edi, .jz (6 + move.length)] <+: (wordwise move rep).drop 2 := by
  simp [wordwise]

theorem wordwise_head : move ++ [.subl 1 .ecx] ++ [.jmp 0] <+: (wordwise move rep).drop 4 := by
  simp [wordwise]

/-- The code after its head. -/
theorem wordwise_drop : (wordwise move rep).drop (6 + move.length) =
    [.movwFromDs .edx, .movwToEs .edx, .movl .ecx .edx, .shrl 2 .ecx, .andl 0x3 .edx, .cld, rep] ++
      ([.testl .edx .edx, .jz (17 + 2 * move.length)] ++ (move ++ [.subl 1 .edx] ++ [.jmp (13 + move.length)])) := by
  have hl : ([.testl .ecx .ecx, .jz (17 + 2 * move.length), .testlImm 0x3 .edi, .jz (6 + move.length)] ++ move ++
      [.subl 1 .ecx, .jmp 0] : List ByteInstr).length = 6 + move.length := by
    simp
    omega
  rw [wordwise, List.append_assoc, List.append_assoc, List.append_assoc, List.drop_left' hl]
  simp

theorem wordwise_aligned :
    [.movwFromDs .edx, .movwToEs .edx, .movl .ecx .edx, .shrl 2 .ecx, .andl 0x3 .edx, .cld] <+:
      (wordwise move rep).drop (6 + move.length) := by
  rw [wordwise_drop]
  simp

theorem wordwise_rep : (wordwise move rep)[12 + move.length]? = some rep := by
  rw [show 12 + move.length = 6 + move.length + 6 by omega, ← List.getElem?_drop, wordwise_drop]
  rfl

theorem wordwise_bottom : [.testl .edx .edx, .jz (17 + 2 * move.length)] <+:
    (wordwise move rep).drop (13 + move.length) := by
  rw [show 13 + move.length = 6 + move.length + 7 by omega, ← List.drop_drop, wordwise_drop]
  simp

theorem wordwise_tail : move ++ [.subl 1 .edx] ++ [.jmp (13 + move.length)] <+:
    (wordwise move rep).drop (15 + move.length) := by
  rw [show 15 + move.length = 6 + move.length + 9 by omega, ← List.drop_drop, wordwise_drop]
  simp

end

/-! ## Its three loops -/

namespace Wordwise

variable {move : List ByteInstr} {rep : ByteInstr} {W : Nat → ByteCpu → ByteCpu → Prop}

/-- Work done from a state that differs in the counters and flags alone. -/
theorem after (h : Wordwise move rep W) {n : Nat} {c c₁ c' : ByteCpu} (hw : W n c₁ c')
    (hr : ∀ r, r ≠ .ecx → r ≠ .edx → c₁.reg r = c.reg r) (hm : c₁.mem = c.mem) : W n c c' := by
  rw [← Nat.zero_add n]
  exact h.trans 0 n c c₁ c' (h.other c c₁ hr hm) hw

/-- A byte and the counter `r` after it. -/
theorem counted (h : Wordwise move rep W) (c : ByteCpu) {r : Reg} (hr : r = .ecx ∨ r = .edx) :
    ∃ c', (move ++ [ByteInstr.subl 1 r]).foldlM ByteCpu.exec c = some c' ∧ W 1 c c' ∧ c'.reg r = c.reg r - 1 := by
  obtain ⟨c₁, h₁, hw, hcx, hdx⟩ := h.byte c
  refine ⟨(c₁.set r (c₁.reg r - 1)).setZf (c₁.reg r - 1), ?_, ?_, ?_⟩
  · rw [List.foldlM_append, h₁]
    rfl
  · apply h.trans 1 0 c c₁ _ hw
    apply h.other
    · intro q hq₁ hq₂
      apply Function.update_of_ne
      rcases hr with rfl | rfl
      · exact hq₁
      · exact hq₂
    · rfl
  · show Function.update c₁.reg r (c₁.reg r - 1) r = c.reg r - 1
    rw [Function.update_self]
    rcases hr with rfl | rfl
    · rw [hcx]
    · rw [hdx]

/-- The tail, by the count in `edx`. -/
theorem bottom (h : Wordwise move rep W) {n : Nat} {c : ByteCpu} (hn : (c.reg .edx).toNat = n) :
    ∃ c', Reaches (wordwise move rep) ⟨c, 13 + move.length⟩ ⟨c', 17 + 2 * move.length⟩ ∧ W n c c' := by
  induction n generalizing c with
  | zero =>
    have htest := Reaches.testlJz (c := c) (wordwise_bottom move rep)
    rw [if_pos (show c.reg .edx = 0 by bv_omega)] at htest
    exact ⟨_, htest, h.other _ _ (fun _ _ _ => rfl) rfl⟩
  | succ n ih =>
    have htest := Reaches.testlJz (c := c) (wordwise_bottom move rep)
    rw [if_neg (show c.reg .edx ≠ 0 by bv_omega), show 13 + move.length + 2 = 15 + move.length by omega] at htest
    obtain ⟨c₁, h₁, hw, hdx⟩ := h.counted (c.setZf (c.reg .edx)) (.inr rfl)
    have hdx₁ : c₁.reg .edx = c.reg .edx - 1 := hdx
    obtain ⟨c', hr, hw'⟩ := ih (c := c₁) (by bv_omega)
    have hjmp := Reaches.blockJmp (wordwise_tail move rep) h₁
    have hall := h.trans 1 n _ _ _ hw hw'
    rw [Nat.add_comm n 1]
    exact ⟨c', (htest.trans hjmp).trans hr, h.after hall (fun _ _ _ => rfl) rfl⟩

/-- The string instruction, by the count in `ecx`; the tail's count stays. -/
theorem words (h : Wordwise move rep W) {n : Nat} {c : ByteCpu} (hn : (c.reg .ecx).toNat = n) (hd : c.df = false) :
    ∃ c', Reaches (wordwise move rep) ⟨c, 12 + move.length⟩ ⟨c', 13 + move.length⟩ ∧ W (4 * n) c c' ∧
      c'.reg .edx = c.reg .edx := by
  induction n generalizing c with
  | zero =>
    obtain ⟨c₁, h₁, -⟩ := h.word c hd
    have hend := Reaches.iterated (wordwise_rep move rep) h₁ (by bv_omega)
    rw [show 12 + move.length + 1 = 13 + move.length by omega] at hend
    exact ⟨c, hend, h.other _ _ (fun _ _ _ => rfl) rfl, rfl⟩
  | succ n ih =>
    obtain ⟨c₁, h₁, hw, hdf, hcx, hdx⟩ := h.word c hd
    have hstep := Reaches.iterate (wordwise_rep move rep) h₁ (by bv_omega)
    have hset : (c₁.set .ecx (c₁.reg .ecx - 1)).reg .ecx = c.reg .ecx - 1 := by
      show Function.update c₁.reg .ecx (c₁.reg .ecx - 1) .ecx = _
      rw [Function.update_self, hcx]
    obtain ⟨c', hr, hw', hdx'⟩ := ih (c := c₁.set .ecx (c₁.reg .ecx - 1)) (by rw [hset]; bv_omega) hdf
    have hrest := h.after hw' (fun r hr₁ _ => Function.update_of_ne hr₁ _ _) rfl
    refine ⟨c', hstep.trans hr, ?_, ?_⟩
    · rw [show 4 * (n + 1) = 4 + 4 * n by omega]
      exact h.trans 4 (4 * n) _ _ _ hw hrest
    · rw [hdx', ← hdx]
      rfl

/-- From `.aligned` on: the count is split between the words and the tail. -/
theorem aligned (h : Wordwise move rep W) (c : ByteCpu) :
    ∃ c', Reaches (wordwise move rep) ⟨c, 6 + move.length⟩ ⟨c', 17 + 2 * move.length⟩ ∧
      W (c.reg .ecx).toNat c c' := by
  obtain ⟨c₀, h₀, hreg, hmem, hdf, hcx, hdx⟩ : ∃ c₀, [ByteInstr.movwFromDs .edx, .movwToEs .edx, .movl .ecx .edx,
      .shrl 2 .ecx, .andl 0x3 .edx, .cld].foldlM ByteCpu.exec c = some c₀ ∧
      (∀ r, r ≠ .ecx → r ≠ .edx → c₀.reg r = c.reg r) ∧ c₀.mem = c.mem ∧ c₀.df = false ∧
      c₀.reg .ecx = c.reg .ecx >>> 2 ∧ c₀.reg .edx = c.reg .ecx &&& 0x3 := by
    refine ⟨_, rfl, ?_, rfl, rfl, rfl, rfl⟩
    intro r hr₁ hr₂
    simp only [ByteCpu.set, ByteCpu.setZf, Function.update_of_ne hr₁, Function.update_of_ne hr₂]
  have hblock := Reaches.block (wordwise_aligned move rep) h₀
  obtain ⟨c₁, hr₁, hw₁, hdx₁⟩ := h.words rfl hdf
  obtain ⟨c', hr', hw'⟩ := h.bottom (c := c₁) rfl
  refine ⟨c', ?_, ?_⟩
  · rw [show 12 + move.length = 6 + move.length + 6 by omega] at hr₁
    exact (hblock.trans hr₁).trans hr'
  · have hall := h.after (h.trans _ _ _ _ _ hw₁ hw') hreg hmem
    have hcount : 4 * (c₀.reg .ecx).toNat + (c₁.reg .edx).toNat = (c.reg .ecx).toNat := by
      rw [hdx₁, hcx, hdx, BitVec.toNat_ushiftRight, BitVec.toNat_and, Nat.shiftRight_eq_div_pow,
        show (0x3 : Word).toNat = 2 ^ 2 - 1 by rfl, Nat.and_two_pow_sub_one_eq_mod]
      exact Nat.div_add_mod _ _
    rwa [hcount] at hall

/-- The code ends with the work of all bytes. -/
theorem runs (h : Wordwise move rep W) {n : Nat} {c : ByteCpu} (hn : (c.reg .ecx).toNat = n) :
    ∃ c', Reaches (wordwise move rep) ⟨c, 0⟩ ⟨c', 17 + 2 * move.length⟩ ∧ W n c c' := by
  induction n generalizing c with
  | zero =>
    have htop := Reaches.testlJz (c := c) (wordwise_top move rep)
    rw [if_pos (show c.reg .ecx = 0 by bv_omega)] at htop
    exact ⟨_, htop, h.other _ _ (fun _ _ _ => rfl) rfl⟩
  | succ n ih =>
    have htop := Reaches.testlJz (c := c) (wordwise_top move rep)
    rw [if_neg (show c.reg .ecx ≠ 0 by bv_omega)] at htop
    have htest := Reaches.testJz (c := c.setZf (c.reg .ecx)) (v := c.reg .edi &&& 0x3) (wordwise_test move rep) rfl
    by_cases ha : c.reg .edi &&& 0x3 = 0
    · rw [if_pos ha] at htest
      obtain ⟨c', hr, hw⟩ := h.aligned ((c.setZf (c.reg .ecx)).setZf (c.reg .edi &&& 0x3))
      refine ⟨c', (htop.trans htest).trans hr, ?_⟩
      rw [← hn]
      exact h.after hw (fun _ _ _ => rfl) rfl
    · rw [if_neg ha] at htest
      obtain ⟨c₁, h₁, hw, hcx⟩ := h.counted ((c.setZf (c.reg .ecx)).setZf (c.reg .edi &&& 0x3)) (.inl rfl)
      have hcx₁ : c₁.reg .ecx = c.reg .ecx - 1 := hcx
      obtain ⟨c', hr, hw'⟩ := ih (c := c₁) (by bv_omega)
      have hjmp := Reaches.blockJmp (wordwise_head move rep) h₁
      have hall := h.trans 1 n _ _ _ hw hw'
      rw [Nat.add_comm n 1]
      exact ⟨c', ((htop.trans htest).trans hjmp).trans hr, h.after hall (fun _ _ _ => rfl) rfl⟩

end Wordwise

/-! ## `memset` -/

/-- `k` bytes of `memset` with a byte `b` four times in `eax`. -/
structure Fills (b : Byte) (k : Nat) (c c' : ByteCpu) : Prop where
  eax : c'.reg .eax = c.reg .eax
  edi : c'.reg .edi = c.reg .edi + BitVec.ofNat 32 k
  filled : (∀ j < 4, byteOf (c.reg .eax) j = b) → (c.reg .edi).toNat + k ≤ 2 ^ 32 →
    Mem.Filled (c.reg .edi).toNat k b c.mem c'.mem

theorem Fills.trans {b : Byte} {i j : Nat} {c c₁ c₂ : ByteCpu} (h₁ : Fills b i c c₁) (h₂ : Fills b j c₁ c₂) :
    Fills b (i + j) c c₂ := by
  refine ⟨h₂.eax.trans h₁.eax, ?_, fun hb hle => ?_⟩
  · rw [h₂.edi, h₁.edi, BitVec.add_assoc, BitVec.ofNat_add]
  · have hf := h₂.filled (by rwa [h₁.eax])
    rw [h₁.edi, toNat_add_ofNat] at hf
    refine (h₁.filled hb (by omega)).append fun x => ?_
    rw [hf (by omega) x]
    by_cases hj : j = 0
    · -- the pointer may have come round to zero, with no byte left
      subst hj
      rw [if_neg (by omega), if_neg (by omega)]
    · rw [Nat.mod_eq_of_lt (by omega)]

theorem stosl_filled {c : ByteCpu} {b : Byte} (hb : ∀ j < 4, byteOf (c.reg .eax) j = b)
    (hle : (c.reg .edi).toNat + 4 ≤ 2 ^ 32) : Mem.Filled (c.reg .edi).toNat 4 b c.mem c.stosl.mem := by
  intro x
  have h₁ : (c.reg .edi + 1).toNat = (c.reg .edi).toNat + 1 := by bv_omega
  have h₂ : (c.reg .edi + 2).toNat = (c.reg .edi).toNat + 2 := by bv_omega
  have h₃ : (c.reg .edi + 3).toNat = (c.reg .edi).toNat + 3 := by bv_omega
  simp only [ByteCpu.stosl, ByteCpu.advance, ByteCpu.set, ByteCpu.store4, Mem.store_byte, h₁, h₂, h₃, hb 0 (by omega),
    hb 1 (by omega), hb 2 (by omega), hb 3 (by omega)]
  split_ifs <;> first | (exfalso; omega) | rfl

theorem memset_wordwise (b : Byte) : Wordwise [.movbTo .eax .edi, .addl 1 .edi] .repStosl (Fills b) where
  other c c' hr hm := by
    refine ⟨hr _ (by decide) (by decide), ?_, fun _ _ => ?_⟩
    · rw [hr _ (by decide) (by decide), BitVec.add_zero]
    · rw [hm]
      exact .zero _ _ _
  trans i j c c₁ c₂ h₁ h₂ := h₁.trans h₂
  byte c := by
    refine ⟨_, rfl, ⟨rfl, rfl, fun hb _ => ?_⟩, rfl, rfl⟩
    rw [← hb 0 (by omega)]
    exact .one _ _ _
  word c hd := by
    refine ⟨_, rfl, ⟨rfl, ?_, stosl_filled⟩, hd, rfl, rfl⟩
    exact ByteCpu.advance_reg hd .edi

/-- `memset` from its entry to its end. -/
theorem memsetCode_fills (cpu : ByteCpu) (s c n : Word) (h : s.toNat + n.toNat ≤ 2 ^ 32) :
    ∃ cpu', Reaches memsetCode ⟨memsetEntry cpu s c n, 0⟩ ⟨cpu', memsetCode.length⟩ ∧
      Mem.Filled s.toNat n.toNat (c.setWidth 8) cpu.mem cpu'.mem := by
  obtain ⟨cpu', hr, hw⟩ := (memset_wordwise (c.setWidth 8)).runs (c := memsetEntry cpu s c n) rfl
  refine ⟨cpu', hr, hw.filled (fun j hj => ?_) h⟩
  have hbyte := fun i => byteOf_shiftLeft c (j := i) hj
  show byteOf ((c &&& 0xFF) <<< 24 ||| (c &&& 0xFF) <<< 16 ||| (c &&& 0xFF) <<< 8 ||| (c &&& 0xFF)) j = _
  rw [byteOf_or, byteOf_or, byteOf_or, hbyte 3, hbyte 2, hbyte 1, ← BitVec.shiftLeft_zero (c &&& 0xFF), hbyte 0]
  rcases (show j = 0 ∨ j = 1 ∨ j = 2 ∨ j = 3 by omega) with rfl | rfl | rfl | rfl <;> simp

/-! ## `memcpy` -/

/-- `k` bytes of `memcpy`. -/
structure Copies (k : Nat) (c c' : ByteCpu) : Prop where
  edi : c'.reg .edi = c.reg .edi + BitVec.ofNat 32 k
  esi : c'.reg .esi = c.reg .esi + BitVec.ofNat 32 k
  copied : Apart (c.reg .esi).toNat (c.reg .edi).toNat k →
    Mem.Copied (c.reg .edi).toNat (c.reg .esi).toNat k c.mem c'.mem

theorem Copies.trans {i j : Nat} {c c₁ c₂ : ByteCpu} (h₁ : Copies i c c₁) (h₂ : Copies j c₁ c₂) :
    Copies (i + j) c c₂ := by
  refine ⟨?_, ?_, fun ha => ?_⟩
  · rw [h₂.edi, h₁.edi, BitVec.add_assoc, BitVec.ofNat_add]
  · rw [h₂.esi, h₁.esi, BitVec.add_assoc, BitVec.ofNat_add]
  · have hc := h₂.copied
    rw [h₁.edi, h₁.esi, toNat_add_ofNat, toNat_add_ofNat] at hc
    exact ha.copied (h₁.copied ha.first) (hc ha.rest)

/-- An iteration of `movsl` is the one of `memcpy`'s registers. -/
theorem movsl_mem (c : ByteCpu) (ecx : Nat) :
    c.movsl.mem = (Copy.movsl ⟨ecx, (c.reg .esi).toNat, (c.reg .edi).toNat, c.mem⟩).mem := by
  have hsi := toNat_add_ofNat (c.reg .esi)
  have hdi := toNat_add_ofNat (c.reg .edi)
  simp only [Copy.movsl, ← hsi, ← hdi, ByteCpu.movsl, ByteCpu.advance, ByteCpu.set, ByteCpu.store4, BitVec.add_zero]
  rfl

theorem memcpy_wordwise :
    Wordwise [.movbFrom .esi .eax, .movbTo .eax .edi, .addl 1 .edi, .addl 1 .esi] .repMovsl Copies where
  other c c' hr hm := by
    refine ⟨?_, ?_, fun _ => ?_⟩
    · rw [hr _ (by decide) (by decide), BitVec.add_zero]
    · rw [hr _ (by decide) (by decide), BitVec.add_zero]
    · rw [hm]
      exact .zero _ _ _
  trans i j c c₁ c₂ h₁ h₂ := h₁.trans h₂
  byte c := by
    refine ⟨_, rfl, ⟨rfl, rfl, fun _ => ?_⟩, rfl, rfl⟩
    show Mem.Copied _ _ 1 c.mem (c.mem.store (c.reg .edi).toNat
      (byteOf ((c.reg .eax).extractLsb' 8 24 ++ c.mem.byte (c.reg .esi).toNat) 0))
    rw [byteOf_append]
    exact .one _ _ _
  word c hd := by
    refine ⟨_, rfl, ⟨?_, ?_, fun ha => ?_⟩, hd, rfl, rfl⟩
    · exact ByteCpu.advance_reg hd .edi
    · exact ByteCpu.advance_reg hd .esi
    · rw [movsl_mem c 0]
      exact Copy.movsl_copied _ ha

/-- `memcpy` from its entry to its end. -/
theorem memcpyCode_copies (cpu : ByteCpu) (dest src n : Word) (h : Apart src.toNat dest.toNat n.toNat) :
    ∃ cpu', Reaches memcpyCode ⟨memcpyEntry cpu dest src n, 0⟩ ⟨cpu', memcpyCode.length⟩ ∧
      Mem.Copied dest.toNat src.toNat n.toNat cpu.mem cpu'.mem := by
  obtain ⟨cpu', hr, hw⟩ := memcpy_wordwise.runs (c := memcpyEntry cpu dest src n) rfl
  exact ⟨cpu', hr, hw.copied h⟩

/-- The instructions leave the bytes that `memcpy` of the kernel's state leaves. -/
theorem memcpyCode_memcpy (cpu : ByteCpu) (dest src n : Word) (h : Apart src.toNat dest.toNat n.toNat) :
    ∃ cpu', Reaches memcpyCode ⟨memcpyEntry cpu dest src n, 0⟩ ⟨cpu', memcpyCode.length⟩ ∧
      cpu'.mem.byte = (memcpy cpu.mem dest.toNat src.toNat n.toNat).byte := by
  obtain ⟨cpu', hr, hc⟩ := memcpyCode_copies cpu dest src n h
  refine ⟨cpu', hr, funext fun x => ?_⟩
  rw [hc x, memcpy_copied h src.isLt dest.isLt x]

/-- **Memory routines.** From every processor, `memset` comes to its end with the `n` bytes from `s` the low byte
of `c`, and `memcpy` with the `n` bytes from `dest` those from `src`, and neither changes another byte. -/
theorem memset_memcpy_bytes (cpu : ByteCpu) :
    (∀ s c n : Word, s.toNat + n.toNat ≤ 2 ^ 32 → ∃ cpu',
      Reaches memsetCode ⟨memsetEntry cpu s c n, 0⟩ ⟨cpu', memsetCode.length⟩ ∧
        Mem.Filled s.toNat n.toNat (c.setWidth 8) cpu.mem cpu'.mem) ∧
    ∀ dest src n : Word, Apart src.toNat dest.toNat n.toNat → ∃ cpu',
      Reaches memcpyCode ⟨memcpyEntry cpu dest src n, 0⟩ ⟨cpu', memcpyCode.length⟩ ∧
        Mem.Copied dest.toNat src.toNat n.toNat cpu.mem cpu'.mem :=
  ⟨memsetCode_fills cpu, memcpyCode_copies cpu⟩

/-- A processor with its registers zero and strings going down. -/
def downCpu : ByteCpu := ⟨fun _ => 0, false, true, 0x18, 0x18, .fresh fun a => BitVec.ofNat 8 a⟩

/-- Two bytes from an address three before an aligned one, and nine bytes to one that is not aligned either. -/
theorem memset_memcpy_bytes_downCpu :
    (∃ cpu', Reaches memsetCode ⟨memsetEntry downCpu 0x1001 0x141 2, 0⟩ ⟨cpu', memsetCode.length⟩ ∧
      Mem.Filled 0x1001 2 0x41 downCpu.mem cpu'.mem) ∧
    ∃ cpu', Reaches memcpyCode ⟨memcpyEntry downCpu 0x2003 0x1001 9, 0⟩ ⟨cpu', memcpyCode.length⟩ ∧
      Mem.Copied 0x2003 0x1001 9 downCpu.mem cpu'.mem := by
  obtain ⟨hset, hcpy⟩ := memset_memcpy_bytes downCpu
  exact ⟨hset 0x1001 0x141 2 (by decide), hcpy 0x2003 0x1001 9 ⟨by decide, by decide, by decide⟩⟩

end LimeOS
