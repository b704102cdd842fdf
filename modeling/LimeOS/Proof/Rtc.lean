import LimeOS.Impl.Terminal

/-!
# The rate of the real-time clock

`changeFreq_RTC` finds the rate of a frequency by trying the rates from 1 to 15
(`searchRate_eq_some`), and leaves register A alone if none has it
(`changeFreqRTC_eq_self`). `write_RTC` does not learn whether one was found: it does
what it should exactly for the frequencies that have a rate (`writeRTC_iff`).
-/

namespace LimeOS

/-- The frequencies that can be set: the powers of two from 2 to 1024. -/
def HasRate (freq : Nat) : Prop := ∃ k, 1 ≤ k ∧ k ≤ 10 ∧ freq = 2 ^ k

/-- The word in a buffer. -/
def frequencyOf (buf : Nat → Byte) : Nat :=
  (buf 0).toNat + 2 ^ 8 * (buf 1).toNat + 2 ^ 16 * (buf 2).toNat + 2 ^ 24 * (buf 3).toNat

/-! ## The search -/

/-- The search ends by its own test: with steps to spare it comes to the same. -/
theorem searchRate_steps (freq : Nat) {n m rate : Nat} (hr : rate ≤ 15) (hn : 15 < rate + n) (hm : n ≤ m) :
    searchRate freq m rate = searchRate freq n rate := by
  induction n generalizing m rate with
  | zero => omega
  | succ n ih =>
    obtain ⟨m, rfl⟩ : ∃ m', m = m' + 1 := ⟨m - 1, by omega⟩
    simp only [searchRate]
    split
    · rfl
    · split
      · rfl
      · apply ih
        · omega
        · omega
        · omega

theorem searchRate_eq_some {freq n i rate : Nat} (h : searchRate freq n i = some rate) (hi : i ≤ 15) :
    i ≤ rate ∧ rate ≤ 15 ∧ FREQ_FOR_RATE_CALC >>> (rate - 1) = freq := by
  induction n generalizing i with
  | zero => cases h
  | succ n ih =>
    rw [searchRate] at h
    split at h
    · rename_i hf
      obtain rfl := Option.some.inj h
      exact ⟨Nat.le_refl i, hi, hf⟩
    · split at h
      · cases h
      · obtain ⟨h₁, h₂, h₃⟩ := ih h (by omega)
        exact ⟨by omega, h₂, h₃⟩

theorem FREQ_shiftRight {rate : Nat} (h₁ : 1 ≤ rate) (h₂ : rate ≤ 15) :
    FREQ_FOR_RATE_CALC >>> (rate - 1) = 2 ^ (16 - rate) := by
  have hall : ∀ r < 16, 1 ≤ r → FREQ_FOR_RATE_CALC >>> (r - 1) = 2 ^ (16 - r) := by decide
  exact hall rate (by omega) h₁

/-- A frequency with a rate is found. -/
theorem searchRate_of_hasRate {k : Nat} (h₁ : 1 ≤ k) (h₂ : k ≤ 10) : searchRate (2 ^ k) 15 1 = some (16 - k) := by
  have hall : ∀ k < 11, 1 ≤ k → searchRate (2 ^ k) 15 1 = some (16 - k) := by decide
  exact hall k (by omega) h₁

/-- No other frequency changes register A. -/
theorem changeFreqRTC_eq_self (s : State) {freq : Nat} (h : ¬ HasRate freq) : changeFreqRTC s freq = s := by
  unfold changeFreqRTC
  split
  · rfl
  · rename_i hmax
    cases hs : searchRate freq 15 1 with
    | none => rfl
    | some rate =>
      obtain ⟨hr₁, hr₂, hf⟩ := searchRate_eq_some hs (by decide)
      rw [FREQ_shiftRight hr₁ hr₂] at hf
      have hle : 2 ^ (16 - rate) ≤ 2 ^ 10 := by
        rw [hf]
        exact Nat.not_lt.mp hmax
      have hk : 16 - rate ≤ 10 := (Nat.pow_le_pow_iff_right (by decide)).mp hle
      exact absurd ⟨16 - rate, by omega, hk, hf.symm⟩ h

/-! ## `write_RTC` -/

/-- What a write of the four bytes in a buffer should come to. -/
structure SetsRate (s : State) (buf : Nat → Byte) : Prop where
  /-- The search has come to its end by its fifteenth step. -/
  ends : ∀ n, 15 ≤ n → searchRate (frequencyOf buf) n 1 = searchRate (frequencyOf buf) 15 1
  set : HasRate (frequencyOf buf) → (writeRTC s buf 4).1 = 4 ∧ ∃ r : Nat, 1 ≤ r ∧ r < 16 ∧
    FREQ_FOR_RATE_CALC >>> (r - 1) = frequencyOf buf ∧ (writeRTC s buf 4).2.rtcRegA &&& 0x0F = BitVec.ofNat 8 r ∧
    (writeRTC s buf 4).2.rtcRegA &&& 0xF0 = s.rtcRegA &&& 0xF0
  refuse : ¬ HasRate (frequencyOf buf) → (writeRTC s buf 4).1 = -1 ∧ (writeRTC s buf 4).2.rtcRegA = s.rtcRegA

theorem writeRTC_four (s : State) (buf : Nat → Byte) : writeRTC s buf 4 = (4, changeFreqRTC s (frequencyOf buf)) := rfl

/-- The low bits of register A are replaced, the others kept. -/
theorem rtcRegA_bits (a : Byte) {r : Nat} (hr : r < 16) :
    ((a &&& 0xF0) ||| BitVec.ofNat 8 r) &&& 0x0F = BitVec.ofNat 8 r ∧
      ((a &&& 0xF0) ||| BitVec.ofNat 8 r) &&& 0xF0 = a &&& 0xF0 := by
  have hlow : BitVec.ofNat 8 r &&& 0x0F = BitVec.ofNat 8 r ∧ BitVec.ofNat 8 r &&& 0xF0 = 0#8 := by
    revert r
    decide
  have hmask : (0xF0 : Byte) &&& 0x0F = 0#8 := by decide
  rw [BitVec.and_or_distrib_right, BitVec.and_or_distrib_right, hlow.1, hlow.2, BitVec.and_assoc, hmask,
    BitVec.and_assoc, BitVec.and_self, BitVec.and_zero, BitVec.zero_or, BitVec.or_zero]
  exact ⟨rfl, rfl⟩

theorem changeFreqRTC_of_hasRate (s : State) {k : Nat} (h₁ : 1 ≤ k) (h₂ : k ≤ 10) :
    changeFreqRTC s (2 ^ k) = { s with rtcRegA := (s.rtcRegA &&& 0xF0) ||| BitVec.ofNat 8 (16 - k) } := by
  have hmax : 2 ^ k ≤ 2 ^ 10 := Nat.pow_le_pow_right (by decide) h₂
  unfold changeFreqRTC
  rw [if_neg (show ¬ 2 ^ k > MAX_FREQ by simp only [MAX_FREQ]; omega), searchRate_of_hasRate h₁ h₂]

/-- **RTC rate setting.** `write_RTC` of four bytes does what it should exactly when they are a frequency
that has a rate: for every other it reports success too. -/
theorem writeRTC_iff (s : State) (buf : Nat → Byte) : SetsRate s buf ↔ HasRate (frequencyOf buf) := by
  constructor
  · intro h
    by_contra hn
    have hret := (h.refuse hn).1
    rw [writeRTC_four] at hret
    exact absurd hret (show (4 : Int) ≠ -1 by decide)
  · intro h
    refine ⟨fun n hn => searchRate_steps _ (by decide) (by decide) hn, fun _ => ?_, fun hn => absurd h hn⟩
    obtain ⟨k, h₁, h₂, hf⟩ := h
    rw [writeRTC_four, hf, changeFreqRTC_of_hasRate s h₁ h₂]
    obtain ⟨hlow, hhigh⟩ := rtcRegA_bits s.rtcRegA (show 16 - k < 16 by omega)
    refine ⟨rfl, 16 - k, by omega, by omega, ?_, hlow, hhigh⟩
    rw [FREQ_shiftRight (by omega) (by omega), show 16 - (16 - k) = k by omega]

/-- The frequency 3, which is not set and not refused. -/
theorem writeRTC_three : ¬ SetsRate boot (fun i => if i = 0 then 3#8 else 0#8) := by
  intro h
  have hn : ¬ HasRate 3 := by
    rintro ⟨k, h₁, h₂, h₃⟩
    have hall : ∀ k < 11, 3 ≠ 2 ^ k := by decide
    exact hall k (by omega) h₃
  have hret := (h.refuse hn).1
  exact absurd hret (by decide)

end LimeOS
