import LimeOS.Impl.Lib

/-!
# `memcpy` copies its bytes

The unaligned head, the words and the tail each copy the bytes they count
(`Copy.top_copied`, `Copy.repMovsl_copied`, `Copy.bottom_copied`), so that
together they copy all `n` (`memcpy_copied`): for ranges that do not wrap
around the address space and do not overlap.
-/

namespace LimeOS

/-- `n` bytes from `src` and from `dst`, neither range past the end of memory, apart. -/
structure Apart (src dst n : Nat) : Prop where
  src_le : src + n ≤ 2 ^ 32
  dst_le : dst + n ≤ 2 ^ 32
  apart : src + n ≤ dst ∨ dst + n ≤ src

namespace Apart

variable {src dst n k : Nat}

/-- The first bytes. -/
theorem first (h : Apart src dst (k + n)) : Apart src dst k := by
  obtain ⟨h₁, h₂, h₃⟩ := h
  exact ⟨by omega, by omega, by omega⟩

/-- The rest of the bytes, at the pointers after the first `k`. -/
theorem rest (h : Apart src dst (k + n)) : Apart ((src + k) % 2 ^ 32) ((dst + k) % 2 ^ 32) n := by
  obtain ⟨h₁, h₂, h₃⟩ := h
  exact ⟨by omega, by omega, by omega⟩

/-- A copy of the first `k` bytes and one of the rest. -/
theorem copied (h : Apart src dst (k + n)) {m m₁ m₂ : Mem} (h₁ : Mem.Copied dst src k m m₁)
    (h₂ : Mem.Copied ((dst + k) % 2 ^ 32) ((src + k) % 2 ^ 32) n m₁ m₂) :
    Mem.Copied dst src (k + n) m m₂ := by
  obtain ⟨hs, hd, ha⟩ := h
  refine h₁.append (fun x => ?_) (by omega)
  rw [h₂ x]
  by_cases hn : n = 0
  · subst hn
    rw [if_neg (by omega), if_neg (by omega)]
  · rw [Nat.mod_eq_of_lt (a := dst + k) (by omega), Nat.mod_eq_of_lt (a := src + k) (by omega)]

end Apart

namespace Copy

theorem bottom_copied : ∀ (n : Nat) (c : Copy), Apart c.esi c.edi n →
    Mem.Copied c.edi c.esi n c.mem (bottom n c).mem
  | 0, c, _ => .zero _ _ _
  | n + 1, c, h => by
    rw [Nat.add_comm n 1] at h
    have := h.copied (.one _ _ _) (bottom_copied n c.movb h.rest)
    rwa [Nat.add_comm 1 n] at this

theorem movsl_copied (c : Copy) (h : Apart c.esi c.edi 4) :
    Mem.Copied c.edi c.esi 4 c.mem c.movsl.mem := by
  obtain ⟨h₁, h₂, -⟩ := h
  have e : ∀ k < 4, (c.esi + k) % 2 ^ 32 = c.esi + k ∧ (c.edi + k) % 2 ^ 32 = c.edi + k :=
    fun k hk => ⟨Nat.mod_eq_of_lt (by omega), Nat.mod_eq_of_lt (by omega)⟩
  intro x
  simp only [movsl, Mem.store_byte, e 0 (by omega), e 1 (by omega), e 2 (by omega), e 3 (by omega)]
  split_ifs <;> first | (exfalso; omega) | rfl | (congr 1; omega)

theorem repMovsl_copied : ∀ (n : Nat) (c : Copy), c.esi < 2 ^ 32 → c.edi < 2 ^ 32 →
    Apart c.esi c.edi (4 * n) →
    Mem.Copied c.edi c.esi (4 * n) c.mem (repMovsl n c).mem ∧
      (repMovsl n c).esi = (c.esi + 4 * n) % 2 ^ 32 ∧ (repMovsl n c).edi = (c.edi + 4 * n) % 2 ^ 32
  | 0, c, hs, hd, _ => ⟨.zero _ _ _, (Nat.mod_eq_of_lt hs).symm, (Nat.mod_eq_of_lt hd).symm⟩
  | n + 1, c, hs, hd, h => by
    rw [show 4 * (n + 1) = 4 + 4 * n by omega] at h ⊢
    obtain ⟨ih, e₁, e₂⟩ := repMovsl_copied n c.movsl (Nat.mod_lt _ (by decide)) (Nat.mod_lt _ (by decide)) h.rest
    refine ⟨h.copied (movsl_copied c h.first) ih, ?_, ?_⟩
    · rw [repMovsl, e₁]
      simp only [movsl]
      omega
    · rw [repMovsl, e₂]
      simp only [movsl]
      omega

/-- The head copies the bytes it takes off the count. -/
theorem top_copied : ∀ (n : Nat) (c : Copy), c.esi < 2 ^ 32 → c.edi < 2 ^ 32 → Apart c.esi c.edi n →
    ∃ k, n = k + (top n c).ecx ∧ Mem.Copied c.edi c.esi k c.mem (top n c).mem ∧
      (top n c).esi = (c.esi + k) % 2 ^ 32 ∧ (top n c).edi = (c.edi + k) % 2 ^ 32
  | 0, c, hs, hd, _ => ⟨0, rfl, .zero _ _ _, (Nat.mod_eq_of_lt hs).symm, (Nat.mod_eq_of_lt hd).symm⟩
  | n + 1, c, hs, hd, h => by
    unfold top
    split
    · exact ⟨0, by simp, .zero _ _ _, (Nat.mod_eq_of_lt hs).symm, (Nat.mod_eq_of_lt hd).symm⟩
    · rw [Nat.add_comm n 1] at h
      obtain ⟨k, hk, hc, e₁, e₂⟩ := top_copied n c.movb (Nat.mod_lt _ (by decide)) (Nat.mod_lt _ (by decide)) h.rest
      have hk' : Apart c.esi c.edi (1 + k) := by
        rw [hk, ← Nat.add_assoc] at h
        exact h.first
      refine ⟨1 + k, by omega, hk'.copied (.one _ _ _) hc, ?_, ?_⟩
      · rw [e₁]
        simp only [movb]
        omega
      · rw [e₂]
        simp only [movb]
        omega

end Copy

theorem memcpy_copied {m : Mem} {dest src n : Nat} (h : Apart src dest n) (hs : src < 2 ^ 32)
    (hd : dest < 2 ^ 32) : Mem.Copied dest src n m (memcpy m dest src n) := by
  obtain ⟨k, hk, h₁, es, ed⟩ := Copy.top_copied n ⟨n, src, dest, m⟩ hs hd h
  generalize hc : Copy.top n ⟨n, src, dest, m⟩ = c at *
  simp only at es ed h₁
  rw [hk] at h
  have hr : Apart c.esi c.edi (4 * (c.ecx / 4) + c.ecx % 4) := by
    rw [es, ed, Nat.div_add_mod]
    exact h.rest
  obtain ⟨h₂, es', ed'⟩ := Copy.repMovsl_copied (c.ecx / 4) c (by rw [es]; exact Nat.mod_lt _ (by decide))
    (by rw [ed]; exact Nat.mod_lt _ (by decide)) hr.first
  have h₃ := Copy.bottom_copied (c.ecx % 4) (Copy.repMovsl (c.ecx / 4) c) (by rw [es', ed']; exact hr.rest)
  rw [es', ed'] at h₃
  have h₄ := hr.copied h₂ h₃
  rw [Nat.div_add_mod, es, ed] at h₄
  have := h.copied h₁ h₄
  rw [← hk] at this
  simpa only [memcpy, hc] using this

end LimeOS
