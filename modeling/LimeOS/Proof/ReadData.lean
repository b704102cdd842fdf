import LimeOS.Impl.Filesystem

/-!
# `read_data` walks the blocks of a file

Byte `k` of a file is in its block `k / 4096`. The walk keeps its block and
byte numbers in step with the offset (`Walk.At`), so what it copies are the
bytes of the file from the offset on, until the count or the file ends
(`readData_eq`): for every image, also one that is not well formed.
-/

namespace LimeOS

theorem toU32_natCast {n : Nat} (h : n < 2 ^ 32) : toU32 n = n := by
  simp only [toU32]
  omega

theorem toI32_natCast {n : Nat} (h : n < 2 ^ 31) : toI32 n = n := by
  simp only [toI32, toU32_natCast (show n < 2 ^ 32 by omega), if_pos h]

theorem toU32_of_nonneg {x : Int} (h₀ : 0 ≤ x) (h : x < 2 ^ 32) : toU32 x = x.toNat := by
  simp only [toU32]
  omega

theorem toI32_of_nonneg {x : Int} (h₀ : 0 ≤ x) (h : x < 2 ^ 31) : toI32 x = x := by
  obtain ⟨n, rfl⟩ := Int.eq_ofNat_of_zero_le h₀
  exact toI32_natCast (by omega)

theorem toI32_lt (x : Int) : toI32 x < 2 ^ 31 := by
  have : toU32 x < 2 ^ 32 := by
    simp only [toU32]
    omega
  simp only [toI32]
  split <;> omega

section

variable (img : Image) (inode : Nat)

/-- Byte `k` of a file, through its blocks. -/
def fileByte (k : Nat) : Byte := img.at32 (dataBlockAddress img inode (k / FOUR_KB) + k % FOUR_KB)

/-- `k` bytes of a file from an offset on. -/
def fileSlice : Nat → Nat → List Byte
  | _, 0 => []
  | o, k + 1 => fileByte img inode o :: fileSlice (o + 1) k

@[simp] theorem length_fileSlice : ∀ o k, (fileSlice img inode o k).length = k
  | _, 0 => rfl
  | o, k + 1 => by rw [fileSlice, List.length_cons, length_fileSlice (o + 1) k]

theorem getElem_fileSlice : ∀ o k {i : Nat} (h : i < (fileSlice img inode o k).length),
    (fileSlice img inode o k)[i] = fileByte img inode (o + i)
  | _, k + 1, 0, _ => rfl
  | o, k + 1, i + 1, h => by
    have := getElem_fileSlice (o + 1) k (i := i) (by simpa [fileSlice] using h)
    rw [show o + (i + 1) = o + 1 + i by omega, ← this]
    rfl

theorem fileSlice_append : ∀ o j k, fileSlice img inode o j ++ fileSlice img inode (o + j) k =
    fileSlice img inode o (j + k)
  | o, 0, k => by rw [fileSlice, List.nil_append, Nat.add_zero, Nat.zero_add]
  | o, j + 1, k => by
    rw [fileSlice, List.cons_append, show o + (j + 1) = o + 1 + j by omega, fileSlice_append (o + 1) j k,
      show j + 1 + k = j + k + 1 by omega, fileSlice]

theorem splitOffset_eq : ∀ (n b d : Nat), b ≤ n → splitOffset n b d = (b % FOUR_KB, d + b / FOUR_KB)
  | 0, b, d, h => by
    have : b = 0 := by omega
    subst this
    simp [splitOffset]
  | n + 1, b, d, h => by
    unfold splitOffset
    simp only [FOUR_KB]
    split
    · rw [splitOffset_eq n _ _ (by omega)]
      simp only [FOUR_KB, Prod.mk.injEq]
      omega
    · simp only [Prod.mk.injEq]
      omega

/-- The walk stands at its offset. -/
structure Walk.At (w : Walk) : Prop where
  byteNumber : w.byteNumber = w.offset % FOUR_KB
  dataBlockIndex : w.dataBlockIndex = w.offset / FOUR_KB
  dataBlockAddress : w.dataBlockAddress = LimeOS.dataBlockAddress img inode (w.offset / FOUR_KB)

variable {img inode}

theorem Walk.At.next {w : Walk} (h : w.At img inode) :
    (w.next img inode).At img inode ∧ (w.next img inode).offset = w.offset + 1 ∧
      (w.next img inode).copiedCount = w.copiedCount + 1 ∧
      (w.next img inode).buf = w.buf.store w.copiedCount (fileByte img inode w.offset) := by
  obtain ⟨h₁, h₂, h₃⟩ := h
  have hb : img.at32 (w.dataBlockAddress + w.byteNumber) = fileByte img inode w.offset := by
    rw [fileByte, h₁, h₃]
  unfold Walk.next
  simp only [hb, FOUR_KB] at *
  split
  · have hd : (w.offset + 1) / 4096 = w.offset / 4096 + 1 := by omega
    exact ⟨⟨by simp only [FOUR_KB]; omega, by simp only [FOUR_KB]; omega, by simp only [FOUR_KB]; rw [hd, h₂]⟩, rfl, rfl, rfl⟩
  · have hd : (w.offset + 1) / 4096 = w.offset / 4096 := by omega
    exact ⟨⟨by simp only [FOUR_KB]; omega, by simp only [FOUR_KB]; omega, by simp only [FOUR_KB]; rw [hd, h₃]⟩, rfl, rfl, rfl⟩

/-- The copying loop with `n` bytes to go, before the end of the file. -/
theorem Walk.copy_eq : ∀ (n : Nat) {w : Walk}, w.At img inode → w.offset < inodeLength img inode →
    let k := min n (inodeLength img inode - w.offset)
    (Walk.copy img inode n w).copiedCount = w.copiedCount + k ∧
      (Walk.copy img inode n w).buf = w.buf.storeList w.copiedCount (fileSlice img inode w.offset k)
  | 0, w, _, _ => by
    rw [Nat.zero_min]
    exact ⟨rfl, rfl⟩
  | n + 1, w, hw, ho => by
    obtain ⟨ha, h₁, h₂, h₃⟩ := hw.next
    rw [Walk.copy]
    simp only
    split
    · rename_i he
      rw [h₁] at he
      rw [show min (n + 1) (inodeLength img inode - w.offset) = 0 + 1 by omega]
      exact ⟨h₂, h₃⟩
    · rename_i he
      rw [h₁] at he
      obtain ⟨ih₁, ih₂⟩ := Walk.copy_eq n ha (by omega)
      rw [h₁] at ih₁ ih₂
      rw [show min (n + 1) (inodeLength img inode - w.offset) =
        min n (inodeLength img inode - (w.offset + 1)) + 1 by omega]
      refine ⟨?_, ?_⟩
      · rw [ih₁, h₂]
        omega
      · rw [ih₂, h₂, h₃]
        rfl

end

/-- `read_data` copies what the file has from the offset on, as much as it is asked for. -/
theorem readData_eq (img : Image) (inode offset : Nat) (buf : Mem) (length : Nat) :
    let k := min length (inodeLength img inode - offset)
    readData img inode offset buf length = (toI32 k, buf.storeList 0 (fileSlice img inode offset k)) := by
  intro k
  unfold readData
  split
  · rw [show k = 0 by omega]
    rfl
  · rename_i ho
    rw [splitOffset_eq offset offset 0 (Nat.le_refl _)]
    simp only [Nat.zero_add]
    have hat : Walk.At img inode
        ⟨0, offset % FOUR_KB, offset, offset / FOUR_KB, dataBlockAddress img inode (offset / FOUR_KB), buf⟩ :=
      ⟨rfl, rfl, rfl⟩
    obtain ⟨h₁, h₂⟩ := Walk.copy_eq length hat (by simpa using ho)
    rw [h₁, h₂]
    simp only [Nat.zero_add]
    rfl

/-- A byte that a read returns. -/
theorem readData_byte {img : Image} {inode offset : Nat} (buf : Mem) {length k : Nat}
    (hk : k < min length (inodeLength img inode - offset)) :
    (readData img inode offset buf length).2.byte k = fileByte img inode (offset + k) := by
  rw [readData_eq]
  generalize min length (inodeLength img inode - offset) = n at hk
  have hb := Mem.storeList_byte (fileSlice img inode offset n) buf 0 (j := k) (by rwa [length_fileSlice])
  rw [Nat.zero_add] at hb
  rw [hb, getElem_fileSlice]

end LimeOS
