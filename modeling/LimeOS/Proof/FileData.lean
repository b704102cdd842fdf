import LimeOS.Proof.ReadData
import LimeOS.Spec.Files

/-!
# What `read_data` returns and what it reads

In an image that fits the address space no address wraps, so the bytes that
`read_data` walks are those of the file's content (`HasFile.fileByte_eq`): it
returns exactly the part of the file it is asked for (`readData_exact`). It
checks none of the numbers it computes addresses from. The states of its loop
(`readStates`) tell which block numbers and bytes it reads, and they are in the
image exactly when the numbers it is given are (`readData_inside_iff`).
-/

namespace LimeOS

/-! ## The content of a file -/

section

variable {img : Image} {blocks inode : Nat}

theorem word_eq_le32 {a : Nat} (h : a + 4 ≤ 2 ^ 32) : img.word a = img.le32 a := by
  simp only [Image.word, Image.at32, Image.le32]
  rw [Nat.mod_eq_of_lt (a := a) (by omega), Nat.mod_eq_of_lt (a := a + 1) (by omega),
    Nat.mod_eq_of_lt (a := a + 2) (by omega), Nat.mod_eq_of_lt (a := a + 3) (by omega)]

namespace Image.HasFile

theorem inodePtr_eq (h : img.HasFile blocks inode) :
    inodePtr inode = 4096 * (1 + inode) ∧ 4096 * (1 + inode) + 4096 ≤ 2 ^ 32 := by
  have h₁ := h.inode_lt
  have h₂ := h.size
  simp only [inodePtr, FOUR_KB]
  omega

theorem length_eq (h : img.HasFile blocks inode) : inodeLength img inode = (img.content inode).length := by
  obtain ⟨hp, hle⟩ := h.inodePtr_eq
  rw [inodeLength, hp, word_eq_le32 (by omega), Image.content, List.length_map, List.length_range]

/-- The bytes of the walk are at their places in the image. -/
theorem fileByte_eq (h : img.HasFile blocks inode) {o : Nat} (ho : o < inodeLength img inode) :
    fileByte img inode o = img (img.place inode o) := by
  obtain ⟨hp, hle⟩ := h.inodePtr_eq
  have hlen := h.length
  have hblock := h.block (o / 4096) (by omega)
  have hsize := h.size
  have hnum : dataBlockNumber img inode (o / 4096) = img.le32 (4096 * (1 + inode) + 4 + 4 * (o / 4096)) := by
    rw [dataBlockNumber, hp, word_eq_le32 (by omega)]
  have hcount : img.inodeCount = img.le32 4 := word_eq_le32 (by decide)
  have haddr : dataBlockAddress img inode (o / 4096) + o % 4096 = img.place inode o := by
    rw [dataBlockAddress, Image.place, ← hnum, ← hcount]
    simp only [FOUR_KB]
    rw [Nat.mod_eq_of_lt (by omega)]
    omega
  have hlt : img.place inode o < 2 ^ 32 := by
    rw [Image.place, ← hnum, ← hcount]
    omega
  simp only [fileByte, FOUR_KB]
  rw [haddr, Image.at32, Nat.mod_eq_of_lt hlt]

/-- What a file holds up to an offset. -/
theorem fileSlice_eq_take (h : img.HasFile blocks inode) {n : Nat} (hn : n ≤ inodeLength img inode) :
    fileSlice img inode 0 n = (img.content inode).take n := by
  have hlen := h.length_eq
  refine List.ext_getElem (by rw [length_fileSlice, List.length_take]; omega) fun k h₁ h₂ => ?_
  rw [length_fileSlice] at h₁
  rw [getElem_fileSlice, Nat.zero_add, h.fileByte_eq (by omega), List.getElem_take]
  simp only [Image.content, List.getElem_map, List.getElem_range]

/-- A read after `n` bytes goes on where they end. -/
theorem take_append (h : img.HasFile blocks inode) {n k : Nat} (hn : n + k ≤ inodeLength img inode) :
    (img.content inode).take n ++ fileSlice img inode n k = (img.content inode).take (n + k) := by
  have := fileSlice_append img inode 0 n k
  rw [Nat.zero_add] at this
  rw [← h.fileSlice_eq_take (by omega), this, h.fileSlice_eq_take hn]

end Image.HasFile

end

/-- `read_data` returns as much of the file from the offset on as it is asked for, in the first bytes
of the buffer, and stores nothing else. -/
theorem readData_exact {img : Image} {blocks inode : Nat} (h : img.HasFile blocks inode) (offset length : Nat)
    (buf : Mem) :
    ∃ (n : Nat) (buf' : Mem), readData img inode offset buf length = ((n : Int), buf') ∧
      n = (if offset ≥ (img.content inode).length then 0 else min length ((img.content inode).length - offset)) ∧
      (∀ k < n, buf'.byte k = img (img.place inode (offset + k))) ∧ Mem.Stores (· < n) buf buf' := by
  have hle := h.length
  have hr := readData_eq img inode offset buf length
  rw [← h.length_eq]
  refine ⟨min length (inodeLength img inode - offset), (readData img inode offset buf length).2, ?_, ?_,
    fun k hk => ?_, ?_⟩
  · rw [hr, toI32_natCast (by omega)]
  · split <;> omega
  · rw [readData_byte buf hk, h.fileByte_eq (by omega)]
  · rw [hr]
    refine .storeList _ buf 0 fun a _ ha => ?_
    rwa [length_fileSlice, Nat.zero_add] at ha

/-- An image with one file of 4100 bytes, in its second and then its first data block. -/
def crossingImage : Image := fun a =>
  if a = 4 then 1#8
  else if a = 8 then 2#8
  else if a = 4096 then 0x04#8
  else if a = 4097 then 0x10#8
  else if a = 4100 then 1#8
  else if 8192 ≤ a then BitVec.ofNat 8 a
  else 0#8

theorem crossingImage_hasFile : crossingImage.HasFile 2 0 := by
  refine ⟨by decide +kernel, by decide +kernel, by decide +kernel, fun k hk => ?_⟩
  have hlen : inodeLength crossingImage 0 = 4100 := by decide +kernel
  obtain rfl | rfl : k = 0 ∨ k = 1 := by omega
  · decide +kernel
  · decide +kernel

/-- Across the end of a block, and to the end of the file. -/
theorem readData_exact_crossing : crossingImage.HasFile 2 0 ∧
    ∃ buf', readData crossingImage 0 4094 (.fresh fun _ => 0xff#8) 10 = (6, buf') ∧
      (∀ k < 6, buf'.byte k = crossingImage (crossingImage.place 0 (4094 + k))) ∧
      Mem.Stores (· < 6) (.fresh fun _ => 0xff#8) buf' := by
  obtain ⟨n, buf', hr, hn, hb, hs⟩ := readData_exact crossingImage_hasFile 4094 10 (.fresh fun _ => 0xff#8)
  have hlen : (crossingImage.content 0).length = 4100 := by
    rw [← crossingImage_hasFile.length_eq]
    decide +kernel
  rw [hlen] at hn
  obtain rfl : n = 6 := hn
  exact ⟨crossingImage_hasFile, buf', hr, hb, hs⟩

/-! ## What is read -/

section

variable (img : Image) (inode : Nat)

/-- The states of the copying loop with `n` bytes to go: before each iteration, and the last one. -/
def Walk.states : Nat → Walk → List Walk
  | 0, w => [w]
  | n + 1, w =>
    let w' := w.next img inode
    w :: if w'.offset = inodeLength img inode then [w'] else states n w'

/-- The states of the loop of a call; none where it returns before. -/
def readStates (offset : Nat) (buf : Mem) (length : Nat) : List Walk :=
  if offset ≥ inodeLength img inode then []
  else
    let p := splitOffset offset offset 0
    Walk.states img inode length ⟨0, p.1, offset, p.2, dataBlockAddress img inode p.2, buf⟩

/-- An address in one of the image's data blocks. -/
def Image.InData (a : Nat) : Prop :=
  ∃ d < img.blockCount, ∃ r < 4096, a % 2 ^ 32 = 4096 * (1 + img.inodeCount + d) + r

/-- A call reads one of the image's inodes, block numbers that an inode has, and bytes of data blocks. -/
structure ReadsInside (offset : Nat) (buf : Mem) (length : Nat) : Prop where
  ptr : ∃ i < img.inodeCount, inodePtr inode = 4096 * (1 + i)
  index : ∀ w ∈ readStates img inode offset buf length, w.dataBlockIndex < 1023
  byte : ∀ w ∈ (readStates img inode offset buf length).dropLast, img.InData (w.dataBlockAddress + w.byteNumber)

/-- The block of the image at the address of the `i`-th block of a file: addresses are 32 bits wide,
so numbers of blocks count modulo `2²⁰`. -/
def blockAt (i : Nat) : Nat := (1 + img.inodeCount + dataBlockNumber img inode i) % 2 ^ 20

/-- The numbers a call is given: the inode is one of the image's, the offset of the byte after the
last one copied is in a block that an inode has a number for, and those of the bytes copied are in
data blocks of the image. -/
structure NumbersInside (offset length : Nat) : Prop where
  inodeNumber : 1 ≤ (1 + inode) % 2 ^ 20 ∧ (1 + inode) % 2 ^ 20 < 1 + img.inodeCount
  last : offset < inodeLength img inode → (offset + min length (inodeLength img inode - offset)) / 4096 < 1023
  blockNumber : ∀ o, offset ≤ o → o < offset + min length (inodeLength img inode - offset) →
    1 + img.inodeCount ≤ blockAt img inode (o / 4096) ∧
      blockAt img inode (o / 4096) < 1 + img.inodeCount + img.blockCount

variable {img inode}

/-- The last state is the one in which the loop ends. -/
theorem Walk.getLast?_states : ∀ (n : Nat) (w : Walk),
    (Walk.states img inode n w).getLast? = some (Walk.copy img inode n w)
  | 0, w => rfl
  | n + 1, w => by
    rw [Walk.states, Walk.copy]
    split
    · rfl
    · have ih := getLast?_states n (w.next img inode)
      rw [List.getLast?_cons, ih]
      rfl

/-- The result of a call, from the last state of its loop. -/
theorem readData_eq_last (offset : Nat) (buf : Mem) (length : Nat) : readData img inode offset buf length =
    ((readStates img inode offset buf length).getLast?.elim (0, buf) fun w => (toI32 w.copiedCount, w.buf)) := by
  unfold readData readStates
  split
  · rfl
  · rw [Walk.getLast?_states]
    rfl

/-- The states stand at the offsets from the first one on, one after the other. -/
theorem Walk.At.states : ∀ (n : Nat) {w : Walk}, w.At img inode → w.offset < inodeLength img inode →
    (Walk.states img inode n w).map Walk.offset =
        List.range' w.offset (min n (inodeLength img inode - w.offset) + 1) ∧
      ∀ w' ∈ Walk.states img inode n w, w'.At img inode
  | 0, w, hw, _ => by
    refine ⟨by simp [Walk.states], fun w' h => ?_⟩
    rw [List.mem_singleton.mp h]
    exact hw
  | n + 1, w, hw, ho => by
    obtain ⟨ha, h₁, -, -⟩ := hw.next
    rw [Walk.states]
    split
    · rename_i he
      rw [h₁] at he
      refine ⟨?_, fun w' h => ?_⟩
      · rw [show min (n + 1) (inodeLength img inode - w.offset) = 1 by omega]
        simp [h₁, List.range'_succ]
      · rcases List.mem_cons.mp h with rfl | h
        · exact hw
        · rw [List.mem_singleton.mp h]
          exact ha
    · rename_i he
      rw [h₁] at he
      obtain ⟨ih₁, ih₂⟩ := ha.states n (by omega)
      have hk : min (n + 1) (inodeLength img inode - w.offset) =
          min n (inodeLength img inode - (w.offset + 1)) + 1 := by omega
      refine ⟨?_, fun w' h => ?_⟩
      · rw [List.map_cons, ih₁, h₁, hk, List.range'_succ (s := w.offset)]
      · rcases List.mem_cons.mp h with rfl | h
        · exact hw
        · exact ih₂ w' h

/-- The states of a call: of each offset it comes to, and of no other. -/
theorem readStates_spec {offset : Nat} (buf : Mem) (length : Nat) (ho : offset < inodeLength img inode) :
    let k := min length (inodeLength img inode - offset)
    (readStates img inode offset buf length).map Walk.offset = List.range' offset (k + 1) ∧
      (readStates img inode offset buf length).dropLast.map Walk.offset = List.range' offset k ∧
      ∀ w ∈ readStates img inode offset buf length, w.At img inode := by
  intro k
  have hat : Walk.At img inode
      ⟨0, offset % FOUR_KB, offset, offset / FOUR_KB, dataBlockAddress img inode (offset / FOUR_KB), buf⟩ :=
    ⟨rfl, rfl, rfl⟩
  obtain ⟨h₁, h₂⟩ := hat.states length ho
  have hs : readStates img inode offset buf length = Walk.states img inode length
      ⟨0, offset % FOUR_KB, offset, offset / FOUR_KB, dataBlockAddress img inode (offset / FOUR_KB), buf⟩ := by
    rw [readStates, if_neg (by omega), splitOffset_eq offset offset 0 (Nat.le_refl _), Nat.zero_add]
  rw [hs]
  refine ⟨h₁, ?_, h₂⟩
  rw [List.map_dropLast, h₁, List.range'_concat, List.dropLast_concat]

/-- A byte of a data block, by the number of the block. -/
theorem inData_iff (i : Nat) {r : Nat} (hr : r < 4096) :
    img.InData (dataBlockAddress img inode i + r) ↔
      1 + img.inodeCount ≤ blockAt img inode i ∧ blockAt img inode i < 1 + img.inodeCount + img.blockCount := by
  have hb : dataBlockAddress img inode i = 4096 * blockAt img inode i := by
    simp only [dataBlockAddress, FOUR_KB, blockAt]
    omega
  have hlt : blockAt img inode i < 2 ^ 20 := Nat.mod_lt _ (by decide)
  rw [Image.InData, hb, Nat.mod_eq_of_lt (by omega)]
  constructor
  · rintro ⟨d, hd, r', hr', e⟩
    omega
  · rintro ⟨h₁, h₂⟩
    exact ⟨blockAt img inode i - (1 + img.inodeCount), by omega, r, hr, by omega⟩

/-- The address of an inode of the image. -/
theorem inodePtr_inside : (∃ i < img.inodeCount, inodePtr inode = 4096 * (1 + i)) ↔
    1 ≤ (1 + inode) % 2 ^ 20 ∧ (1 + inode) % 2 ^ 20 < 1 + img.inodeCount := by
  have hp : inodePtr inode = 4096 * ((1 + inode) % 2 ^ 20) := by
    simp only [inodePtr, FOUR_KB]
    omega
  rw [hp]
  constructor
  · rintro ⟨i, hi, e⟩
    omega
  · rintro ⟨h₁, h₂⟩
    exact ⟨(1 + inode) % 2 ^ 20 - 1, by omega, by omega⟩

/-- The block numbers that a call reads, before the end of the file. -/
theorem index_inside {offset : Nat} (buf : Mem) (length : Nat) (ho : offset < inodeLength img inode) :
    (∀ w ∈ readStates img inode offset buf length, w.dataBlockIndex < 1023) ↔
      (offset + min length (inodeLength img inode - offset)) / 4096 < 1023 := by
  obtain ⟨h₁, -, hat⟩ := readStates_spec buf length ho
  generalize min length (inodeLength img inode - offset) = k at h₁ ⊢
  constructor
  · intro h
    have hm : offset + k ∈ (readStates img inode offset buf length).map Walk.offset := by
      rw [h₁, List.mem_range'_1]
      omega
    obtain ⟨w, hw, e⟩ := List.mem_map.mp hm
    have := h w hw
    rwa [(hat w hw).dataBlockIndex, e] at this
  · intro h w hw
    have hm := List.mem_map_of_mem (f := Walk.offset) hw
    rw [h₁, List.mem_range'_1] at hm
    rw [(hat w hw).dataBlockIndex]
    simp only [FOUR_KB]
    omega

/-- The bytes that a call copies, before the end of the file. -/
theorem byte_inside {offset : Nat} (buf : Mem) (length : Nat) (ho : offset < inodeLength img inode) :
    (∀ w ∈ (readStates img inode offset buf length).dropLast, img.InData (w.dataBlockAddress + w.byteNumber)) ↔
      ∀ o, offset ≤ o → o < offset + min length (inodeLength img inode - offset) →
        1 + img.inodeCount ≤ blockAt img inode (o / 4096) ∧
          blockAt img inode (o / 4096) < 1 + img.inodeCount + img.blockCount := by
  obtain ⟨-, h₁, hat⟩ := readStates_spec buf length ho
  generalize min length (inodeLength img inode - offset) = k at h₁ ⊢
  have hin : ∀ w ∈ (readStates img inode offset buf length).dropLast,
      (img.InData (w.dataBlockAddress + w.byteNumber) ↔ 1 + img.inodeCount ≤ blockAt img inode (w.offset / 4096) ∧
        blockAt img inode (w.offset / 4096) < 1 + img.inodeCount + img.blockCount) := by
    intro w hw
    have ha := hat w (List.dropLast_subset _ hw)
    rw [ha.dataBlockAddress, ha.byteNumber]
    exact inData_iff _ (Nat.mod_lt _ (by decide))
  constructor
  · intro h o h₀ h₂
    have hm : o ∈ (readStates img inode offset buf length).dropLast.map Walk.offset := by
      rw [h₁, List.mem_range'_1]
      omega
    obtain ⟨w, hw, e⟩ := List.mem_map.mp hm
    rw [← e]
    exact (hin w hw).mp (h w hw)
  · intro h w hw
    have hm := List.mem_map_of_mem (f := Walk.offset) hw
    rw [h₁, List.mem_range'_1] at hm
    exact (hin w hw).mpr (h w.offset hm.1 hm.2)

end

/-- The result `-1` never comes with a buffer that is untouched: what is read is in the image exactly
when the numbers are. -/
theorem readData_inside_iff (img : Image) (inode offset : Nat) (buf : Mem) (length : Nat) :
    (readData img inode offset buf length).1 = -1 ∧ (readData img inode offset buf length).2 = buf ∨
        ReadsInside img inode offset buf length ↔
      NumbersInside img inode offset length := by
  have hneg : ¬ ((readData img inode offset buf length).1 = -1 ∧ (readData img inode offset buf length).2 = buf) := by
    rintro ⟨h₁, h₂⟩
    rw [readData_eq] at h₁ h₂
    have hs := congrArg (fun m => m.stored.length) h₂
    simp only [Mem.length_storeList_stored, length_fileSlice] at hs
    rw [show min length (inodeLength img inode - offset) = 0 by omega] at h₁
    cases h₁
  by_cases ho : offset < inodeLength img inode
  · constructor
    · rintro (h | ⟨h₁, h₂, h₃⟩)
      · exact absurd h hneg
      · exact ⟨inodePtr_inside.mp h₁, fun _ => (index_inside buf length ho).mp h₂, (byte_inside buf length ho).mp h₃⟩
    · rintro ⟨h₁, h₂, h₃⟩
      exact .inr ⟨inodePtr_inside.mpr h₁, (index_inside buf length ho).mpr (h₂ ho),
        (byte_inside buf length ho).mpr h₃⟩
  · have hs : readStates img inode offset buf length = [] := if_pos (by omega)
    constructor
    · rintro (h | ⟨h₁, -, -⟩)
      · exact absurd h hneg
      · exact ⟨inodePtr_inside.mp h₁, fun h => absurd h ho, fun o _ _ => by omega⟩
    · rintro ⟨h₁, -, -⟩
      exact .inr ⟨inodePtr_inside.mpr h₁, by simp [hs], by simp [hs]⟩

/-- The first data block is read as a second inode, which the image does not have. -/
theorem readData_crossing_not_inside :
    ¬ ((readData crossingImage 1 0 (.fresh fun _ => 0#8) 4).1 = -1 ∧
        (readData crossingImage 1 0 (.fresh fun _ => 0#8) 4).2 = .fresh (fun _ => 0#8) ∨
      ReadsInside crossingImage 1 0 (.fresh fun _ => 0#8) 4) := by
  rintro (⟨h, -⟩ | ⟨⟨i, hi, e⟩, -, -⟩)
  · exact absurd h (by decide +kernel)
  · have hc : crossingImage.inodeCount = 1 := by decide +kernel
    simp only [inodePtr, FOUR_KB] at e
    omega

end LimeOS
