import LimeOS.Proof.Execute
import LimeOS.Proof.FileData

/-!
# Program loading

`execute` stores a file that its page has room for from `LOAD_ADDR` on, byte by
byte and nothing else, and jumps to the word its header has at byte 24. The
room is smaller than the largest file, and a file may end before that word: it
is loaded as it should be exactly when it has 28 bytes and fits (`load_iff`).
-/

namespace LimeOS

/-- The checks of `execute` pass for a command and the entry of the directory it names. -/
structure Accepted (img : Image) (k : ExecuteFrame) (c : CString) (program : Dentry) : Prop where
  fits : (Parse.command k c).overruns = false
  found : readDentryByName img (Mem.cstr (Parse.command k c).fileName.byte MAX_NAME_LENGTH) = some program
  magic : strncmp (readData img (toU32 program.inodeNumber) 0 (Mem.fresh k.buffer) BUF_SIZE).2.byte magicNumber
    BUF_SIZE = 0

section

variable {img : Image} {k : ExecuteFrame} {c : CString} {program : Dentry} {s : State} {newPid : Nat}

/-- Four bytes are not so many that their count is taken for an error. -/
theorem readData_ne_neg_one (img : Image) (inode offset : Nat) (buf : Mem) :
    (readData img inode offset buf BUF_SIZE).1 ≠ -1 := by
  rw [readData_eq, toI32_natCast (by simp only [BUF_SIZE]; omega)]
  simp only [ne_eq]
  omega

theorem Accepted.execute_eq (h : Accepted img k c program) (hf : freePid s = some newPid) :
    execute img s (some c) k = startProcess img s k (Parse.command k c) program
      (readData img (toU32 program.inodeNumber) 0 (Mem.fresh k.buffer) BUF_SIZE).2 newPid := by
  have hr := readData_ne_neg_one img (toU32 program.inodeNumber) 0 (Mem.fresh k.buffer)
  simp only [execute, h.fits, Bool.false_eq_true, if_false, h.found, hr, h.magic, ne_eq, not_true, hf]

/-- A file in memory and the address its program starts at. -/
structure Loaded (content : List Byte) (m : Mem) (target : Nat) : Prop where
  byte : ∀ j (hj : j < content.length), m.byte (LOAD_ADDR + j) = content[j]
  stored : ∀ a, a ∈ m.stored ↔ LOAD_ADDR ≤ a ∧ a < LOAD_ADDR + content.length
  inside : ∀ a ∈ m.stored, a < VIRTUAL_BLOCK_BOTTOM
  entry : ∃ b₀ b₁ b₂ b₃, (content.drop 24).take 4 = [b₀, b₁, b₂, b₃] ∧
    target = b₀.toNat + 2 ^ 8 * b₁.toNat + 2 ^ 16 * b₂.toNat + 2 ^ 24 * b₃.toNat

variable (img k c program s newPid) in
/-- The loading loop ends with the file of an entry in the page of the new process, which runs from
the file's entry point. -/
def LoadsFile : Prop :=
  ∃ m s' target,
    loadProgram img (toU32 program.inodeNumber)
      (readData img (toU32 program.inodeNumber) 0 (Mem.fresh k.buffer) BUF_SIZE).2 LOAD_STEPS 0
      (Mem.fresh (s.frame newPid)) = .ok m ∧
    Loaded (img.content (toU32 program.inodeNumber)) m target ∧
    execute img s (some c) k = .ok (.starts s' target) ∧ s'.frame newPid = m.byte

/-- The entry point of a file that has one. -/
theorem entryTarget_eq {blocks inode : Nat} (h : img.HasFile blocks inode) (hlen : 28 ≤ inodeLength img inode) :
    ∃ b₀ b₁ b₂ b₃, ((img.content inode).drop 24).take 4 = [b₀, b₁, b₂, b₃] ∧
      entryTarget img k inode = b₀.toNat + 2 ^ 8 * b₁.toNat + 2 ^ 16 * b₂.toNat + 2 ^ 24 * b₃.toNat := by
  have htake := h.take_append (n := 24) (k := 4) (by omega)
  have hl := h.length_eq
  have hslice : ((img.content inode).drop 24).take 4 = fileSlice img inode 24 4 := by
    rw [List.take_drop, ← htake, List.drop_append_of_le_length (by rw [List.length_take]; omega),
      List.drop_of_length_le (by rw [List.length_take]; omega), List.nil_append]
  refine ⟨_, _, _, _, hslice, ?_⟩
  have hmin : min BUF_SIZE (inodeLength img inode - ENTRY_POINT_LOCATION) = 4 := by
    simp only [BUF_SIZE, ENTRY_POINT_LOCATION]
    omega
  have hbyte : ∀ j < 4, (readData img inode ENTRY_POINT_LOCATION (Mem.fresh k.entryPoint) BUF_SIZE).2.byte j =
      fileByte img inode (24 + j) := fun j hj => readData_byte _ (by rwa [hmin])
  simp only [entryTarget]
  rw [hbyte 0 (by decide), hbyte 1 (by decide), hbyte 2 (by decide), hbyte 3 (by decide)]

/-- **Program loading.** An accepted file is loaded as it should be exactly when it has the 28 bytes that
its entry point ends at and fits the page from `LOAD_ADDR` on. -/
theorem load_iff {blocks : Nat} (h : img.HasFile blocks (toU32 program.inodeNumber)) (ha : Accepted img k c program)
    (hf : freePid s = some newPid) :
    LoadsFile img k c program s newPid ↔ 28 ≤ (img.content (toU32 program.inodeNumber)).length ∧
      (img.content (toU32 program.inodeNumber)).length ≤ VIRTUAL_BLOCK_BOTTOM - LOAD_ADDR := by
  have hl := h.length_eq
  rw [← hl]
  constructor
  · rintro ⟨m, s', target, hload, hm, -⟩
    obtain ⟨b₀, b₁, b₂, b₃, hb, -⟩ := hm.entry
    have hlen := congrArg List.length hb
    rw [List.length_take, List.length_drop, ← hl] at hlen
    refine ⟨by simp only [List.length_cons, List.length_nil] at hlen; omega, ?_⟩
    by_contra hroom
    obtain ⟨m', hfault⟩ := loadProgram_fault (Nat.not_le.mp hroom) LOAD_STEPS 0
      (readData img (toU32 program.inodeNumber) 0 (Mem.fresh k.buffer) BUF_SIZE).2 (Mem.fresh (s.frame newPid)) (by omega)
    rw [hfault] at hload
    cases hload
  · rintro ⟨h₂₈, hroom⟩
    obtain ⟨b₀, b₁, b₂, b₃, hb, ht⟩ := entryTarget_eq (k := k) h h₂₈
    have hslice := h.fileSlice_eq_take (Nat.le_refl _)
    rw [hl, List.take_length] at hslice
    refine ⟨_, _, _, loadProgram_eq hroom LOAD_STEPS 0 _ _ (by omega)
      (by simp only [LOAD_STEPS, VIRTUAL_BLOCK_BOTTOM, LOAD_ADDR, BUF_SIZE] at *; omega), ?_,
      (ha.execute_eq hf).trans (startProcess_ok (freePid_eq_some hf).1 hroom), ?_⟩
    · simp only [Nat.zero_mul, Nat.add_zero, Nat.sub_zero]
      rw [hl, hslice]
      refine ⟨fun j hj => Mem.storeList_byte _ _ _ hj, fun a => ?_, fun a hmem => ?_, b₀, b₁, b₂, b₃, hb, ht⟩
      · rw [Mem.mem_storeList_stored, Mem.fresh_stored]
        simp
      · rw [Mem.mem_storeList_stored, Mem.fresh_stored, ← hl] at hmem
        simp only [List.not_mem_nil, or_false, VIRTUAL_BLOCK_BOTTOM, LOAD_ADDR] at hmem hroom ⊢
        omega
    · simp only [Nat.zero_mul, Nat.add_zero, Nat.sub_zero, started, Function.update_self]

end

theorem shellImage_hasFile : shellImage.HasFile 1 0 := by
  refine ⟨by decide +kernel, by decide +kernel, by decide +kernel, fun k hk => ?_⟩
  have hlen : inodeLength shellImage 0 = 28 := by decide +kernel
  obtain rfl : k = 0 := by omega
  decide +kernel

/-- The shell of 28 bytes. -/
theorem load_shellImage : LoadsFile shellImage emptyFrame shellCommand (dentryAt shellImage 0) boot 0 :=
  have hfile : shellImage.HasFile 1 (toU32 (dentryAt shellImage 0).inodeNumber) := shellImage_hasFile
  (load_iff hfile ⟨by decide +kernel, by decide +kernel, by decide +kernel⟩ (by decide +kernel)).mpr
    ⟨by decide +kernel, by decide +kernel⟩

/-- The image with a shell of `0x3b801c` bytes, all of its blocks the same. -/
def bigImage : Image := fun a => if a = 4097 then 0x80#8 else if a = 4098 then 0x3b#8 else shellImage a

theorem bigImage_zero {a : Nat} (h₁ : 4100 ≤ a) (h₂ : a < 8192) : bigImage a = 0#8 := by
  simp only [bigImage, shellImage]
  repeat rw [if_neg (by omega)]

theorem bigImage_hasFile : bigImage.HasFile 1 0 := by
  refine ⟨by decide +kernel, by decide +kernel, by decide +kernel, fun k hk => ?_⟩
  have hlen : inodeLength bigImage 0 = 0x3b801c := by decide +kernel
  have hptr : inodePtr 0 = 4096 := by decide
  simp only [dataBlockNumber, Image.word, Image.at32, hptr]
  rw [bigImage_zero (by omega) (by omega), bigImage_zero (by omega) (by omega), bigImage_zero (by omega) (by omega),
    bigImage_zero (by omega) (by omega)]
  decide

/-- A file that the image's format allows, and whose loading stores past its page. -/
theorem load_bigImage : bigImage.HasFile 1 0 ∧ Accepted bigImage emptyFrame shellCommand (dentryAt bigImage 0) ∧
    freePid boot = some 0 ∧ ¬ LoadsFile bigImage emptyFrame shellCommand (dentryAt bigImage 0) boot 0 := by
  refine ⟨bigImage_hasFile, ⟨by decide +kernel, by decide +kernel, by decide +kernel⟩, by decide +kernel, ?_⟩
  rintro ⟨m, s', target, hload, -⟩
  have hlong : VIRTUAL_BLOCK_BOTTOM - LOAD_ADDR < inodeLength bigImage (toU32 (dentryAt bigImage 0).inodeNumber) := by
    decide +kernel
  obtain ⟨m', hfault⟩ := loadProgram_fault hlong LOAD_STEPS 0
    (readData bigImage (toU32 (dentryAt bigImage 0).inodeNumber) 0 (Mem.fresh emptyFrame.buffer) BUF_SIZE).2
    (Mem.fresh (boot.frame (0 : Nat))) (by decide)
  rw [hfault] at hload
  cases hload

end LimeOS
