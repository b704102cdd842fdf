import LimeOS.Proof.Load
import LimeOS.Proof.Lookup

/-!
# Which commands `execute` accepts

A command should start a program when its first word names a regular file that
begins with the magic number and a pid is free (`Acceptable`), and return `-1`
with every process as it was otherwise (`ExecuteOk`). What `execute` does instead
comes from its checks: the file type is not one of them, the magic number is
compared with the stack where the file is shorter, a full table returns 0, and
neither the lengths of the words nor that of the file is looked at. It does as it
should exactly where none of this tells (`executeOk_iff`).
-/

namespace LimeOS

/-! ## The magic number -/

section

variable (img : Image) (k : ExecuteFrame) (inode : Nat)

/-- A byte that is compared with the magic number: the file's, or the stack's where the file is shorter. -/
def headerByte (i : Nat) : Byte := if i < inodeLength img inode then fileByte img inode i else k.buffer i

theorem readData_header {i : Nat} (hi : i < 4) :
    (readData img inode 0 (Mem.fresh k.buffer) BUF_SIZE).2.byte i = headerByte img k inode i := by
  rw [headerByte]
  split
  · rw [readData_byte _ (by simp only [BUF_SIZE]; omega), Nat.zero_add]
  · rw [readData_eq]
    refine (Mem.Stores.storeList (P := (· < min BUF_SIZE (inodeLength img inode - 0))) _ _ 0 fun a _ ha => ?_).byte_eq
      (by omega)
    rwa [length_fileSlice, Nat.zero_add] at ha

theorem magic_iff : strncmp (readData img inode 0 (Mem.fresh k.buffer) BUF_SIZE).2.byte magicNumber BUF_SIZE = 0 ↔
    ∀ i < 4, headerByte img k inode i = magicNumber i := by
  rw [strncmp, strncmpFrom_eq_zero BUF_SIZE 0]
  · constructor
    · intro h i hi
      rw [← readData_header img k inode hi]
      exact h i (Nat.zero_le i) (by omega)
    · intro h i _ hi
      rw [Nat.zero_add] at hi
      rw [readData_header img k inode hi]
      exact h i hi
  · decide

end

/-! ## The commands -/

/-- The first word of a command. -/
def commandWord (c : CString) : CString := ⟨commandName c.1, Parse.not_mem_commandName c⟩

/-- The entry a name stands for is a regular file that begins with the magic number. -/
structure Image.Executable (img : Image) (fname : CString) (j : Nat) : Prop where
  named : img.Named fname j
  first : ∀ i < j, ¬ img.Named fname i
  file : (dentryAt img j).fileType = 2
  length : 4 ≤ inodeLength img (img.inodeOf j)
  magic : ∀ i < 4, fileByte img (img.inodeOf j) i = magicNumber i

/-- A command that names an executable, with a pid free for it. -/
def Acceptable (img : Image) (s : State) (command : Option CString) : Prop :=
  ∃ c, command = some c ∧ (∃ j, img.Executable (commandWord c) j) ∧ ∃ n : Nat, n < MAX_PID ∧ s.pidFlags n = .FREE

section

variable (img : Image) (s : State) (command : Option CString) (k : ExecuteFrame)

/-- `execute` starts a program for the acceptable commands, and returns `-1` with the processes as
they were for all others. -/
structure ExecuteOk : Prop where
  starts : (∃ s' target, execute img s command k = .ok (.starts s' target)) ↔ Acceptable img s command
  fails : ¬ Acceptable img s command → ∃ s', execute img s command k = .ok (.returns (-1) s') ∧
    s'.pidFlags = s.pidFlags ∧ s'.pcb = s.pcb ∧ s'.currentPid = s.currentPid ∧ s'.executePid = s.executePid ∧
    s'.programPde = s.programPde ∧ s'.tssEsp0 = s.tssEsp0

/-- The words of a command fit their arrays, the name of an executable has no byte of `0x80` or above,
and an entry that passes the check of its first bytes is a regular file that has them and fits its page, with
a pid free for it. -/
structure Unmistaken (c : CString) : Prop where
  name : (commandName c.1).length < MAX_NAME_LENGTH
  args : (commandArgs c.1).length < MAX_LENGTH_ARG
  bytes : Acceptable img s (some c) → ∀ b ∈ commandName c.1, b.toNat < 128
  entry : (∀ b ∈ commandName c.1, b.toNat < 128) → ∀ j, img.Named (commandWord c) j →
    (∀ i < j, ¬ img.Named (commandWord c) i) → (∀ i < 4, headerByte img k (img.inodeOf j) i = magicNumber i) →
    (dentryAt img j).fileType = 2 ∧ 4 ≤ inodeLength img (img.inodeOf j) ∧
      inodeLength img (img.inodeOf j) ≤ VIRTUAL_BLOCK_BOTTOM - LOAD_ADDR ∧
      ∃ n : Nat, n < MAX_PID ∧ s.pidFlags n = .FREE

variable {img s command k}

theorem executeOk_of_rejected (h : execute img s command k = .ok (.returns (-1) s)) :
    ExecuteOk img s command k ↔ ¬ Acceptable img s command := by
  constructor
  · intro hok ha
    obtain ⟨s', target, e⟩ := hok.starts.mpr ha
    rw [h] at e
    cases e
  · intro ha
    refine ⟨⟨?_, fun h' => absurd h' ha⟩, fun _ => ⟨s, h, rfl, rfl, rfl, rfl, rfl, rfl⟩⟩
    rintro ⟨s', target, e⟩
    rw [h] at e
    cases e

theorem executeOk_of_started {s' : State} {target : Nat} (h : execute img s command k = .ok (.starts s' target)) :
    ExecuteOk img s command k ↔ Acceptable img s command :=
  ⟨fun hok => hok.starts.mp ⟨s', target, h⟩, fun ha => ⟨⟨fun _ => ha, fun _ => ⟨s', target, h⟩⟩, fun hn => absurd ha hn⟩⟩

/-- Neither a start nor a `-1`. -/
theorem not_executeOk (h₁ : ∀ s' target, execute img s command k ≠ .ok (.starts s' target))
    (h₂ : ∀ s', execute img s command k ≠ .ok (.returns (-1) s')) : ¬ ExecuteOk img s command k := by
  intro hok
  by_cases ha : Acceptable img s command
  · obtain ⟨s', target, e⟩ := hok.starts.mpr ha
    exact h₁ s' target e
  · obtain ⟨s', e, -⟩ := hok.fails ha
    exact h₂ s' e

/-! ## What each check comes to -/

theorem exists_free_iff : (∃ n : Nat, n < MAX_PID ∧ s.pidFlags n = .FREE) ↔ (freePid s).isSome := by
  cases hf : freePid s with
  | none =>
    refine ⟨?_, fun h => by cases h⟩
    rintro ⟨n, hn, hfree⟩
    rw [freePid_eq_none hf n hn] at hfree
    cases hfree
  | some n => exact ⟨fun _ => rfl, fun _ => ⟨n, (freePid_eq_some hf).1, (freePid_eq_some hf).2.1⟩⟩

variable {c : CString} {program : Dentry}

theorem execute_unnamed (ho : (Parse.command k c).overruns = false)
    (hd : readDentryByName img (Mem.cstr (Parse.command k c).fileName.byte MAX_NAME_LENGTH) = none) :
    execute img s (some c) k = .ok (.returns (-1) s) := by
  simp only [execute, ho, Bool.false_eq_true, if_false, hd]

theorem execute_unmagic (ho : (Parse.command k c).overruns = false)
    (hd : readDentryByName img (Mem.cstr (Parse.command k c).fileName.byte MAX_NAME_LENGTH) = some program)
    (hm : ¬ strncmp (readData img (toU32 program.inodeNumber) 0 (Mem.fresh k.buffer) BUF_SIZE).2.byte magicNumber
      BUF_SIZE = 0) :
    execute img s (some c) k = .ok (.returns (-1) s) := by
  simp only [execute, ho, Bool.false_eq_true, if_false, hd, hm, ne_eq, not_false_eq_true, if_true, ite_self]

theorem Accepted.execute_full (h : Accepted img k c program) (hf : freePid s = none) :
    ∃ s', execute img s (some c) k = .ok (.returns 0 s') := by
  have hr := readData_ne_neg_one img (toU32 program.inodeNumber) 0 (Mem.fresh k.buffer)
  simp only [execute, h.fits, Bool.false_eq_true, if_false, h.found, hr, h.magic, ne_eq, not_true, hf]
  exact ⟨_, rfl⟩

/-- The name that is looked up, when the words fit. -/
theorem command_word (ho : (Parse.command k c).overruns = false) :
    Mem.cstr (Parse.command k c).fileName.byte MAX_NAME_LENGTH = commandWord c ∧
      (commandWord c).1.take 32 = commandName c.1 :=
  ⟨Subtype.ext (Parse.command_fileName ho), List.take_of_length_le (Nat.le_of_lt (Parse.length_lt ho).1)⟩

/-- The entry a name stands for is one. -/
theorem firstNamed_unique {fname : CString} {i j : Nat} (hi : img.Named fname i) (hi' : ∀ m < i, ¬ img.Named fname m)
    (hj : img.Named fname j) (hj' : ∀ m < j, ¬ img.Named fname m) : i = j := by
  rcases Nat.lt_trichotomy i j with h | h | h
  · exact absurd hi (hj' i h)
  · exact h
  · exact absurd hj (hi' j h)

/-- A file that has four bytes shows them. -/
theorem headerByte_eq {inode i : Nat} (hlen : 4 ≤ inodeLength img inode) (hi : i < 4) :
    headerByte img k inode i = fileByte img inode i := if_pos (by omega)

theorem acceptable_iff {j : Nat} (hj : img.Named (commandWord c) j) (hfirst : ∀ i < j, ¬ img.Named (commandWord c) i) :
    Acceptable img s (some c) ↔ (dentryAt img j).fileType = 2 ∧ 4 ≤ inodeLength img (img.inodeOf j) ∧
      (∀ i < 4, headerByte img k (img.inodeOf j) i = magicNumber i) ∧ (freePid s).isSome := by
  constructor
  · rintro ⟨c', hc, ⟨i, hi⟩, hf⟩
    obtain rfl := Option.some.inj hc
    obtain rfl := firstNamed_unique hi.named hi.first hj hfirst
    exact ⟨hi.file, hi.length, fun m hm => (headerByte_eq hi.length hm).trans (hi.magic m hm), exists_free_iff.mp hf⟩
  · rintro ⟨h₁, h₂, h₃, h₄⟩
    exact ⟨c, rfl, ⟨j, hj, hfirst, h₁, h₂, fun m hm => (headerByte_eq h₂ hm).symm.trans (h₃ m hm)⟩,
      exists_free_iff.mpr h₄⟩

/-- Where the lookup finds the entry that the name stands for. -/
theorem executeOk_of_found (ho : (Parse.command k c).overruns = false) (hb : ∀ b ∈ commandName c.1, b.toNat < 128)
    {j : Nat} (hj : img.Named (commandWord c) j) (hfirst : ∀ i < j, ¬ img.Named (commandWord c) i) :
    ExecuteOk img s (some c) k ↔ Unmistaken img s k c := by
  obtain ⟨hw, htake⟩ := command_word ho
  have hd : readDentryByName img (Mem.cstr (Parse.command k c).fileName.byte MAX_NAME_LENGTH) =
      some (dentryAt img j) := by
    rw [hw]
    exact readDentryByName_eq_some img (by rwa [htake]) hj hfirst
  have hacc := acceptable_iff (s := s) (k := k) hj hfirst
  have hu : Unmistaken img s k c ↔ ((∀ i < 4, headerByte img k (img.inodeOf j) i = magicNumber i) →
      (dentryAt img j).fileType = 2 ∧ 4 ≤ inodeLength img (img.inodeOf j) ∧
        inodeLength img (img.inodeOf j) ≤ VIRTUAL_BLOCK_BOTTOM - LOAD_ADDR ∧ (freePid s).isSome) := by
    rw [← exists_free_iff]
    refine ⟨fun h => h.entry hb j hj hfirst, fun h => ⟨(Parse.length_lt ho).1, (Parse.length_lt ho).2, fun _ => hb, ?_⟩⟩
    intro _ i hi hi'
    obtain rfl := firstNamed_unique hi hi' hj hfirst
    exact h
  rw [hu]
  by_cases hm : ∀ i < 4, headerByte img k (img.inodeOf j) i = magicNumber i
  · have ha : Accepted img k c (dentryAt img j) := ⟨ho, hd, (magic_iff img k (img.inodeOf j)).mpr hm⟩
    cases hf : freePid s with
    | none =>
      obtain ⟨s', he⟩ := ha.execute_full hf
      refine iff_of_false (not_executeOk (by simp [he]) (by simp [he])) fun h => ?_
      exact absurd (h hm).2.2.2 (by simp)
    | some n =>
      have hn := (freePid_eq_some hf).1
      by_cases hroom : inodeLength img (img.inodeOf j) ≤ VIRTUAL_BLOCK_BOTTOM - LOAD_ADDR
      · rw [executeOk_of_started ((ha.execute_eq hf).trans (startProcess_ok hn hroom)), hacc, hf]
        exact ⟨fun h _ => ⟨h.1, h.2.1, hroom, rfl⟩, fun h => ⟨(h hm).1, (h hm).2.1, hm, rfl⟩⟩
      · obtain ⟨page, hp⟩ := startProcess_fault s k (Parse.command k c)
          (readData img (toU32 (dentryAt img j).inodeNumber) 0 (Mem.fresh k.buffer) BUF_SIZE).2 hn
          (Nat.lt_of_not_le hroom)
        have he := (ha.execute_eq hf).trans hp
        exact iff_of_false (not_executeOk (by simp [he]) (by simp [he])) fun h => hroom (h hm).2.2.1
  · have he := execute_unmagic (s := s) ho hd fun h => hm ((magic_iff img k (img.inodeOf j)).mp h)
    rw [executeOk_of_rejected he, hacc]
    exact iff_of_true (fun h => hm h.2.2.1) fun h => absurd h hm

/-- Where it finds nothing. -/
theorem executeOk_of_missing (ho : (Parse.command k c).overruns = false)
    (hn : (∀ b ∈ commandName c.1, b.toNat < 128) → ∀ i, ¬ img.Named (commandWord c) i) :
    ExecuteOk img s (some c) k ↔ Unmistaken img s k c := by
  obtain ⟨hw, htake⟩ := command_word ho
  have hd : readDentryByName img (Mem.cstr (Parse.command k c).fileName.byte MAX_NAME_LENGTH) = none := by
    rw [hw]
    exact readDentryByName_eq_none img fun hb => hn (by rwa [htake] at hb)
  rw [executeOk_of_rejected (execute_unnamed ho hd)]
  constructor
  · intro hna
    exact ⟨(Parse.length_lt ho).1, (Parse.length_lt ho).2, fun ha => absurd ha hna, fun hb j hj => absurd hj (hn hb j)⟩
  · intro hu ha
    have hb := hu.bytes ha
    obtain ⟨c', hc, ⟨j, hj⟩, -⟩ := ha
    obtain rfl := Option.some.inj hc
    exact hn hb j hj.named

/-- **Execute accepts exactly the executables and fails atomically** exactly for the commands that
none of its omissions concerns. -/
theorem executeOk_iff (img : Image) (s : State) (command : Option CString) (k : ExecuteFrame) :
    ExecuteOk img s command k ↔ ∀ c, command = some c → Unmistaken img s k c := by
  cases command with
  | none =>
    refine iff_of_true ?_ fun c hc => by cases hc
    refine (executeOk_of_rejected rfl).mpr ?_
    rintro ⟨c, hc, -⟩
    cases hc
  | some c =>
    simp only [Option.some.injEq, forall_eq']
    cases ho : (Parse.command k c).overruns with
    | true =>
      have he : execute img s (some c) k = .error .overrun := by simp only [execute, ho, if_true]
      refine iff_of_false (not_executeOk (by simp [he]) (by simp [he])) fun hu => ?_
      rw [Parse.overruns_eq_false k hu.name hu.args] at ho
      cases ho
    | false =>
      by_cases h : (∀ b ∈ commandName c.1, b.toNat < 128) ∧ ∃ j, img.Named (commandWord c) j
      · classical
        exact executeOk_of_found ho h.1 (Nat.find_spec h.2) fun i hi => Nat.find_min h.2 hi
      · rw [not_and, not_exists] at h
        exact executeOk_of_missing ho h

end

/-- A full table. -/
theorem executeOk_full :
    ¬ ExecuteOk shellImage { boot with pidFlags := fun _ => .IN_USE } (some shellCommand) emptyFrame := by
  have ha : Accepted shellImage emptyFrame shellCommand (dentryAt shellImage 0) :=
    ⟨by decide +kernel, by decide +kernel, by decide +kernel⟩
  obtain ⟨s', he⟩ := ha.execute_full (s := { boot with pidFlags := fun _ => .IN_USE }) (by decide +kernel)
  exact not_executeOk (by simp [he]) (by simp [he])

end LimeOS
