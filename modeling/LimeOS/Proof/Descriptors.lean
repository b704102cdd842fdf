import LimeOS.Proof.Execute
import LimeOS.Spec.Files

/-!
# The descriptors of a process

A call on descriptors changes at most one entry of the caller's table, in one
of few ways (`FdMove`). An entry in use always has one whole jump table, and
from 2 on an entry of the directory behind it (`Used`), so that no call goes
through a `NULL` pointer (`Slots.no_nullCall`). In an image whose files are
sound the positions stay inside the files (`DescriptorTable.move`).
-/

namespace LimeOS

/-! ## What a call does to the table -/

/-- What a call can do to a table of descriptors. -/
inductive FdMove (img : Image) (t : Nat → FdEntry) : (Nat → FdEntry) → Prop
  | same : FdMove img t t
  | stdin : FdMove img t
      (Function.update t STDIN { t STDIN with operationsPointer := stdinTable, flags := .IN_USE })
  | stdout : FdMove img t
      (Function.update t STDOUT { t STDOUT with operationsPointer := stdoutTable, flags := .IN_USE })
  /-- A descriptor is opened on entry `j` of the directory. -/
  | opens {j i : Nat} {table : Operations} : j < img.dentryCount.toNat → 2 ≤ i → i < MAX_FD_NUM →
      (t i).flags = .FREE → typeTable (dentryAt img j).fileType = some table →
      FdMove img t (Function.update t i ⟨table, (dentryAt img j).inodeNumber, 0, .IN_USE⟩)
  | closes {i : Nat} : 2 ≤ i → i < MAX_FD_NUM → FdMove img t (Function.update t i freeEntry)
  /-- `k` bytes of a file are read, no more than it has. -/
  | reads {i k : Nat} : i < MAX_FD_NUM → (t i).flags = .IN_USE →
      (t i).operationsPointer.READ = some .readFile →
      k ≤ inodeLength img (toU32 (t i).inodeIndex) - toU32 (t i).filePosition →
      FdMove img t (Function.update t i { t i with filePosition := toI32 ((t i).filePosition + toI32 k) })
  /-- One entry of the directory is read. -/
  | lists {i : Nat} : i < MAX_FD_NUM → (t i).flags = .IN_USE →
      (t i).operationsPointer.READ = some .readDirectory → (t i).filePosition < img.dentryCount →
      FdMove img t (Function.update t i { t i with filePosition := toI32 ((t i).filePosition + 1) })

theorem vacantFd_eq_some {s : State} {i : Nat} (h : vacantFd s = some i) :
    2 ≤ i ∧ i < MAX_FD_NUM ∧ (s.curPcb.fdEntry i).flags = .FREE ∧
      ∀ j, 2 ≤ j → j < i → (s.curPcb.fdEntry j).flags = .IN_USE := by
  obtain ⟨h₁, h₂, h₃⟩ := List.find?_range'_eq_some.mp h
  simp only [List.mem_range'_1] at h₂
  refine ⟨h₂.1, by simp only [MAX_FD_NUM] at *; omega, by simpa using h₁, fun j hj hi => ?_⟩
  have := h₃ j hj hi
  exact PidStatus.ne_FREE.mp (by simpa using this)

section

variable {img : Image} {s : State}

theorem sysOpen_move {filename : Option CString} {r : Int × State} (h : sysOpen img s filename = .ok r) :
    FdMove img s.curPcb.fdEntry r.2.curPcb.fdEntry := by
  rcases sysOpen_eq_ok h with rfl | rfl | rfl | ⟨name, d, i, table, f, hd, hi, ht, -, rfl⟩
  · exact .same
  · rw [setFd_fdEntry]
    exact .stdin
  · rw [setFd_fdEntry]
    exact .stdout
  · rw [(callOpen_still _ _).curPcb, setFd_fdEntry]
    obtain ⟨h₂, h₈, hf, -⟩ := vacantFd_eq_some hi
    obtain ⟨j, hj, rfl⟩ := List.mem_map.mp (List.mem_of_find?_eq_some hd)
    exact .opens (List.mem_range.mp hj) h₂ h₈ hf ht

theorem sysClose_move {fd : Int} {r : Int × State} (h : sysClose s fd = .ok r) :
    FdMove img s.curPcb.fdEntry r.2.curPcb.fdEntry := by
  rcases sysClose_eq_ok h with rfl | ⟨n, f, -, h₂, h₈, -, -, rfl⟩
  · exact .same
  · rw [setFd_fdEntry]
    exact .closes h₂ h₈

/-- The table is as it was, or the position of descriptor `fd` moved. -/
def Seeks (img : Image) (fd : Int) (t t' : Nat → FdEntry) : Prop :=
  t' = t ∨ ∃ n pos, fd = (n : Nat) ∧ n < MAX_FD_NUM ∧ (t n).flags = .IN_USE ∧
    t' = Function.update t n { t n with filePosition := pos } ∧ FdMove img t t'

theorem sysRead_seeks {fd : Int} {buf : Option Mem} {nbytes : Int} {line : Nat → Byte} {r : Int × Option Mem × State}
    (h : sysRead img s fd buf nbytes line = .ok r) : Seeks img fd s.curPcb.fdEntry r.2.2.curPcb.fdEntry := by
  rcases sysRead_eq_ok h with rfl | ⟨n, f, hn, h₈, -, hu, hf, hc⟩
  · exact .inl rfl
  cases f with
  | nullFunc =>
    obtain rfl := Except.ok.inj hc
    exact .inl rfl
  | terminalRead => exact .inl (by rw [(terminalRead_still hc).curPcb])
  | readRTC =>
    obtain rfl := Except.ok.inj hc
    exact .inl rfl
  | readFile =>
    refine callRead_store_state (fun s' => Seeks img fd s.curPcb.fdEntry s'.curPcb.fdEntry) (fun m => ?_) hc
    simp only [readFile, readData_eq, setFd_fdEntry]
    exact .inr ⟨n, _, hn, h₈, hu, rfl, .reads h₈ hu hf (Nat.min_le_right _ _)⟩
  | readDirectory =>
    refine callRead_store_state (fun s' => Seeks img fd s.curPcb.fdEntry s'.curPcb.fdEntry) (fun m => ?_) hc
    unfold readDirectory
    simp only
    split
    · exact .inl rfl
    · rename_i hp
      split
      · exact .inl rfl
      · rw [setFd_fdEntry]
        exact .inr ⟨n, _, hn, h₈, hu, rfl, .lists h₈ hu hf (by omega)⟩

theorem Seeks.move {fd : Int} {t t' : Nat → FdEntry} (h : Seeks img fd t t') : FdMove img t t' := by
  rcases h with rfl | ⟨n, pos, -, -, -, -, hm⟩
  · exact .same
  · exact hm

theorem sysWrite_move {fd : Int} {buf : Option Buffer} {nbytes : Int} {r : Int × State}
    (h : sysWrite s fd buf nbytes = .ok r) : FdMove img s.curPcb.fdEntry r.2.curPcb.fdEntry := by
  rw [(sysWrite_still h).curPcb]
  exact .same

/-- A call on descriptors makes one move. -/
theorem fdCall_move {c : FdCall} {r : Int × Option Mem × State} (h : fdCall img s c = .ok r) :
    FdMove img s.curPcb.fdEntry r.2.2.curPcb.fdEntry := by
  cases c with
  | «open» filename =>
    obtain ⟨r', h', rfl⟩ := map_eq_ok.mp h
    exact sysOpen_move h'
  | close fd =>
    obtain ⟨r', h', rfl⟩ := map_eq_ok.mp h
    exact sysClose_move h'
  | read fd buf nbytes line => exact (sysRead_seeks (readThrough_eq_ok h)).move
  | write fd buf nbytes =>
    obtain ⟨r', h', rfl⟩ := map_eq_ok.mp h
    exact sysWrite_move h'

end

/-! ## Entries in use -/

theorem typeTable_eq_some {fileType : Int} {table : Operations} (h : typeTable fileType = some table) :
    fileType = 0 ∧ table = rtcTable ∨ fileType = 1 ∧ table = directoryTable ∨ fileType = 2 ∧ table = fileTable := by
  unfold typeTable at h
  split_ifs at h with h₀ h₁ h₂
  · exact .inl ⟨h₀, (Option.some.inj h).symm⟩
  · exact .inr (.inl ⟨h₁, (Option.some.inj h).symm⟩)
  · exact .inr (.inr ⟨h₂, (Option.some.inj h).symm⟩)

/-- An entry opened on an entry of the directory, with the jump table of its type. -/
structure Opened (img : Image) (e : FdEntry) : Prop where
  flags : e.flags = .IN_USE
  entry : ∃ j < img.dentryCount.toNat, typeTable (dentryAt img j).fileType = some e.operationsPointer ∧
    e.inodeIndex = (dentryAt img j).inodeNumber
  directory : e.operationsPointer = directoryTable → 0 ≤ e.filePosition ∧ e.filePosition ≤ img.dentryCount

/-- Entry `i` in use. -/
def Used (img : Image) : Nat → FdEntry → Prop
  | 0, e => e.flags = .IN_USE ∧ e.operationsPointer = stdinTable
  | 1, e => e.flags = .IN_USE ∧ e.operationsPointer = stdoutTable
  | _ + 2, e => Opened img e

/-- Every entry is free or in use with a whole jump table. -/
def Slots (img : Image) (t : Nat → FdEntry) : Prop := ∀ i < MAX_FD_NUM, t i = freeEntry ∨ Used img i (t i)

section

variable {img : Image} {t t' : Nat → FdEntry} {i : Nat} {e : FdEntry}

theorem Opened.table (h : Opened img e) :
    e.operationsPointer = rtcTable ∨ e.operationsPointer = directoryTable ∨ e.operationsPointer = fileTable := by
  obtain ⟨j, -, ht, -⟩ := h.entry
  rcases typeTable_eq_some ht with ⟨-, h⟩ | ⟨-, h⟩ | ⟨-, h⟩
  · exact .inl h
  · exact .inr (.inl h)
  · exact .inr (.inr h)

/-- Descriptors whose reads go to a file or a directory are opened ones. -/
theorem Used.opened (h : Used img i e) (h₀ : e.operationsPointer ≠ stdinTable) (h₁ : e.operationsPointer ≠ stdoutTable) :
    Opened img e := by
  match i, h with
  | 0, h => exact absurd h.2 h₀
  | 1, h => exact absurd h.2 h₁
  | _ + 2, h => exact h

theorem Used.of_opened (h₂ : 2 ≤ i) (h : Opened img e) : Used img i e := by
  obtain ⟨n, rfl⟩ : ∃ n, i = n + 2 := ⟨i - 2, by omega⟩
  exact h

/-- An entry in use with another position. -/
theorem Used.seek (h : Used img i e) {pos : Int}
    (hp : e.operationsPointer = directoryTable → 0 ≤ pos ∧ pos ≤ img.dentryCount) :
    Used img i { e with filePosition := pos } := by
  match i, h with
  | 0, h => exact h
  | 1, h => exact h
  | _ + 2, h => exact ⟨h.flags, h.entry, hp⟩

namespace Slots

theorem update (h : Slots img t) (he : e = freeEntry ∨ Used img i e) : Slots img (Function.update t i e) := by
  intro j hj
  by_cases hji : j = i
  · subst hji
    rwa [Function.update_self]
  · rw [Function.update_of_ne hji]
    exact h j hj

theorem used (h : Slots img t) (hi : i < MAX_FD_NUM) (hu : (t i).flags = .IN_USE) : Used img i (t i) := by
  rcases h i hi with hf | hf
  · rw [hf] at hu
    cases hu
  · exact hf

/-- A descriptor with another table than those of 0 and 1. -/
theorem opened (h : Slots img t) (hi : i < MAX_FD_NUM) (hu : (t i).flags = .IN_USE) {f : ReadFn}
    (hf : (t i).operationsPointer.READ = some f) (h₀ : f ≠ .terminalRead) (h₁ : f ≠ .nullFunc) : Opened img (t i) := by
  refine (h.used hi hu).opened (fun he => ?_) (fun he => ?_)
  · rw [he] at hf
    exact h₀ (Option.some.inj hf).symm
  · rw [he] at hf
    exact h₁ (Option.some.inj hf).symm

end Slots

theorem FdMove.slots (hm : FdMove img t t') (h : Slots img t) : Slots img t' := by
  cases hm with
  | same => exact h
  | stdin => exact h.update (.inr ⟨rfl, rfl⟩)
  | stdout => exact h.update (.inr ⟨rfl, rfl⟩)
  | opens hj h₂ _ _ ht =>
    exact h.update (.inr (.of_opened h₂ ⟨rfl, ⟨_, hj, ht, rfl⟩, fun _ => ⟨Int.le_refl 0, by simp only; omega⟩⟩))
  | closes _ _ => exact h.update (.inl rfl)
  | reads h₈ hu hf _ =>
    refine h.update (.inr ((h.used h₈ hu).seek fun hd => ?_))
    rw [hd] at hf
    cases hf
  | lists h₈ hu hf hp =>
    refine h.update (.inr ((h.used h₈ hu).seek fun hd => ?_))
    have hpos := (h.opened h₈ hu hf (by decide) (by decide)).directory hd
    have hlt := toI32_lt (img.word 0)
    simp only [Image.dentryCount] at *
    rw [toI32_of_nonneg (by omega) (by omega)]
    omega

/-! ## No call through a `NULL` pointer -/

/-- The pointers of an entry in use are all there. -/
theorem Used.complete (h : Used img i e) :
    ∃ f₁ f₂ f₃ f₄, e.operationsPointer = ⟨some f₁, some f₂, some f₃, some f₄⟩ := by
  match i, h with
  | 0, h => exact ⟨_, _, _, _, h.2⟩
  | 1, h => exact ⟨_, _, _, _, h.2⟩
  | _ + 2, h =>
    rcases h.table with h | h | h
    · exact ⟨_, _, _, _, h⟩
    · exact ⟨_, _, _, _, h⟩
    · exact ⟨_, _, _, _, h⟩

/-- A descriptor in use is closed. -/
theorem Slots.sysClose_eq {s : State} (h : Slots img s.curPcb.fdEntry) {n : Nat} (h₂ : 2 ≤ n) (h₈ : n < MAX_FD_NUM)
    (hf : (s.curPcb.fdEntry n).flags = .IN_USE) : sysClose s n = .ok (0, s.setFd n freeEntry) := by
  obtain ⟨f₁, f₂, f₃, f₄, ho⟩ := (h.used h₈ hf).complete
  have hn : ¬ ((n : Int) < 2 ∨ (n : Int) ≥ MAX_FD_NUM) := by simp only [MAX_FD_NUM] at *; omega
  have hc : ¬ callClose f₄ < 0 := Int.lt_irrefl 0
  simp only [sysClose, hn, Int.toNat_natCast, hf, ho, hc, reduceCtorEq, if_false]

theorem callRead_ne_nullCall {f : ReadFn} {s : State} {fd : Nat} {buf : Option Mem} {nbytes : Int}
    {line : Nat → Byte} : callRead img f s fd buf nbytes line ≠ .error .nullCall := by
  have hstore : ∀ g : Mem → Int × Mem × State, callRead.store s buf g ≠ .error .nullCall := by
    intro g
    cases buf with
    | some m => simp [callRead.store]
    | none =>
      simp only [callRead.store]
      split <;> simp
  cases f with
  | nullFunc => simp [callRead]
  | terminalRead =>
    cases buf with
    | none => simp [callRead, terminalRead]
    | some m =>
      simp only [callRead, terminalRead]
      split <;> simp
  | readRTC => simp [callRead]
  | readFile => exact hstore _
  | readDirectory => exact hstore _

theorem storedThrough_ne_nullCall (s : State) (buf : Option Buffer) (r : Int × Option Mem × State) :
    storedThrough s buf r ≠ .error .nullCall := by
  unfold storedThrough
  split
  · split
    · simp
    · split <;> simp
  · simp

/-- The jump tables of the file types have an `OPEN` slot. -/
theorem sysOpen_ne_nullCall (img : Image) (s : State) (filename : Option CString) :
    sysOpen img s filename ≠ .error .nullCall := by
  cases filename with
  | none => simp [sysOpen]
  | some name =>
    simp only [sysOpen]
    generalize strncmp _ _ STDIN_LEN = c₁
    generalize strncmp _ _ STDOUT_LEN = c₂
    split
    · simp
    split
    · simp
    split
    · simp
    split
    · simp
    split
    · simp
    · rename_i table ht
      rcases typeTable_eq_some ht with ⟨-, rfl⟩ | ⟨-, rfl⟩ | ⟨-, rfl⟩ <;>
        simp [rtcTable, directoryTable, fileTable, callOpen, openRTC]

/-- With every entry free or whole, no call goes through a `NULL` pointer. -/
theorem Slots.no_nullCall {s : State} (h : Slots img s.curPcb.fdEntry) (c : FdCall) :
    fdCall img s c ≠ .error .nullCall := by
  have used : ∀ n < MAX_FD_NUM, (s.curPcb.fdEntry n).flags ≠ .FREE →
      ∃ f₁ f₂ f₃ f₄, (s.curPcb.fdEntry n).operationsPointer = ⟨some f₁, some f₂, some f₃, some f₄⟩ :=
    fun n hn hu => (h.used hn (PidStatus.ne_FREE.mp hu)).complete
  cases c with
  | «open» filename =>
    have hne := sysOpen_ne_nullCall img s filename
    simp only [fdCall]
    cases hr : sysOpen img s filename with
    | ok r => simp [Except.map]
    | error f => simpa [Except.map, hr] using hne
  | close fd =>
    simp only [fdCall, sysClose]
    split
    · simp [Except.map]
    split
    · simp [Except.map]
    · rename_i hfd hu
      obtain ⟨f₁, f₂, f₃, f₄, ho⟩ := used fd.toNat (by simp only [MAX_FD_NUM] at *; omega) hu
      simp [ho, callClose, Except.map]
  | read fd buf nbytes line =>
    have hread : sysRead img s fd (buf.map Buffer.mem) nbytes line ≠ .error .nullCall := by
      simp only [sysRead]
      split
      · simp
      split
      · simp
      · rename_i hfd hu
        obtain ⟨f₁, f₂, f₃, f₄, ho⟩ := used fd.toNat (by simp only [MAX_FD_NUM] at *; omega) hu
        simp only [ho]
        exact callRead_ne_nullCall
    intro h
    simp only [fdCall, readThrough] at h
    cases hr : sysRead img s fd (buf.map Buffer.mem) nbytes line with
    | error f =>
      rw [hr] at h
      cases h
      exact hread hr
    | ok r =>
      rw [hr] at h
      exact storedThrough_ne_nullCall s buf r h
  | write fd buf nbytes =>
    cases buf with
    | none => simp [fdCall, sysWrite, Except.map]
    | some buf =>
      simp only [fdCall, sysWrite]
      split
      · simp [Except.map]
      split
      · simp [Except.map]
      · rename_i hfd hu
        obtain ⟨f₁, f₂, f₃, f₄, ho⟩ := used fd.toNat (by simp only [MAX_FD_NUM] at *; omega) hu
        simp only [ho]
        split <;> simp [Except.map]

/-! ## Positions in files -/

/-- The position of an entry of a file is inside the file. -/
def InFile (img : Image) (e : FdEntry) : Prop :=
  e.operationsPointer = fileTable → 0 ≤ e.filePosition ∧ e.filePosition ≤ inodeLength img (toU32 e.inodeIndex)

/-- A descriptor on a regular file has its inode. -/
theorem Opened.isFile (h : Opened img e) (ht : e.operationsPointer = fileTable) :
    ∃ j, img.IsFile j ∧ toU32 e.inodeIndex = img.inodeOf j := by
  obtain ⟨j, hj, htype, hi⟩ := h.entry
  rw [ht] at htype
  refine ⟨j, ⟨hj, ?_⟩, by rw [hi, Image.inodeOf]⟩
  rcases typeTable_eq_some htype with ⟨-, h⟩ | ⟨-, h⟩ | ⟨h, -⟩
  · cases h
  · cases h
  · exact h

theorem FdMove.inFile (hm : FdMove img t t') (hs : img.Sound) (hslots : Slots img t)
    (h : ∀ i < MAX_FD_NUM, InFile img (t i)) : ∀ i < MAX_FD_NUM, InFile img (t' i) := by
  have upd : ∀ (n : Nat) (e : FdEntry), InFile img e → ∀ i < MAX_FD_NUM, InFile img (Function.update t n e i) := by
    intro n e he i hi
    by_cases hin : i = n
    · subst hin
      rwa [Function.update_self]
    · rw [Function.update_of_ne hin]
      exact h i hi
  cases hm with
  | same => exact h
  | stdin => exact upd _ _ fun ht => by cases ht
  | stdout => exact upd _ _ fun ht => by cases ht
  | opens _ _ _ _ _ => exact upd _ _ fun _ => ⟨Int.le_refl 0, Int.natCast_nonneg _⟩
  | closes _ _ => exact upd _ _ fun ht => by cases ht
  | @reads i k h₈ hu hf hk =>
    refine upd _ _ fun ht => ?_
    obtain ⟨j, hj, hi⟩ := (hslots.opened h₈ hu hf (by decide) (by decide)).isFile ht
    obtain ⟨h₀, h₁⟩ := h i h₈ ht
    have hlen := hs.length j hj
    rw [← hi] at hlen
    rw [toU32_of_nonneg h₀ (by omega)] at hk
    simp only
    rw [toI32_natCast (by omega), toI32_of_nonneg (by omega) (by omega)]
    omega
  | lists _ _ hf _ =>
    refine upd _ _ fun ht => ?_
    simp only at ht
    rw [ht] at hf
    cases hf

end

/-! ## Runs of calls -/

theorem setupPCB_fdEntry {s s' : State} {p : Int} (h : setupPCB s p = some s') :
    (s'.pcb p).fdEntry = standardFds (s.pcb p).fdEntry := by
  unfold setupPCB at h
  split at h
  · cases h
  · obtain rfl := Option.some.inj h
    simp only [State.setPcb, Function.update_self]
    rfl

theorem standardFds_free (old : Nat → FdEntry) {i : Nat} (h₂ : 2 ≤ i) (h₈ : i < MAX_FD_NUM) :
    standardFds old i = freeEntry := by
  rw [standardFds, Function.update_of_ne (by simp only [STDOUT]; omega),
    Function.update_of_ne (by simp only [STDIN]; omega), if_pos h₈]

/-- `setup_PCB` frees the descriptors from 2 on. -/
theorem setupPCB_free {s s' : State} {p : Int} (h : setupPCB s p = some s') {i : Nat} (h₂ : 2 ≤ i)
    (h₈ : i < MAX_FD_NUM) : (s'.pcb p).fdEntry i = freeEntry := by
  rw [setupPCB_fdEntry h, standardFds_free _ h₂ h₈]

/-- A step of the process: a call on its descriptors that does not end it. -/
def fdStep (img : Image) (s : State) (c : FdCall) : Option State := (fdCall img s c).toOption.map (·.2.2)

/-- The table of a process: descriptors 0 and 1 in use, the others free or open,
and each position inside its file or directory. -/
structure DescriptorTable (img : Image) (t : Nat → FdEntry) : Prop where
  stdin : (t STDIN).flags = .IN_USE ∧ (t STDIN).operationsPointer = stdinTable
  stdout : (t STDOUT).flags = .IN_USE ∧ (t STDOUT).operationsPointer = stdoutTable
  slot : ∀ i, 2 ≤ i → i < MAX_FD_NUM → t i = freeEntry ∨ Opened img (t i)
  file : ∀ i, 2 ≤ i → i < MAX_FD_NUM → (t i).operationsPointer = fileTable →
    0 ≤ (t i).filePosition ∧ (t i).filePosition ≤ inodeLength img (toU32 (t i).inodeIndex)

namespace DescriptorTable

variable {img : Image} {t t' : Nat → FdEntry}

theorem slots (h : DescriptorTable img t) : Slots img t := by
  intro i hi
  match i with
  | 0 => exact .inr h.stdin
  | 1 => exact .inr h.stdout
  | i + 2 => exact h.slot (i + 2) (by omega) hi

theorem inFile (h : DescriptorTable img t) : ∀ i < MAX_FD_NUM, InFile img (t i) := by
  intro i hi ht
  match i with
  | 0 =>
    rw [h.stdin.2] at ht
    cases ht
  | 1 =>
    rw [h.stdout.2] at ht
    cases ht
  | i + 2 => exact h.file (i + 2) (by omega) hi ht

/-- The table `setup_PCB` makes. -/
theorem standard (img : Image) (old : Nat → FdEntry) : DescriptorTable img (standardFds old) := by
  refine ⟨⟨rfl, rfl⟩, ⟨rfl, rfl⟩, fun i h₂ h₈ => .inl (standardFds_free old h₂ h₈), fun i h₂ h₈ ht => ?_⟩
  rw [standardFds_free old h₂ h₈] at ht
  cases ht

theorem of_setupPCB (img : Image) {s s' : State} {p : Int} (h : setupPCB s p = some s') :
    DescriptorTable img ({ s' with currentPid := p } : State).curPcb.fdEntry := by
  show DescriptorTable img (s'.pcb p).fdEntry
  rw [setupPCB_fdEntry h]
  exact standard img _

/-- A call keeps the table. -/
theorem move (h : DescriptorTable img t) (hs : img.Sound) (hm : FdMove img t t') : DescriptorTable img t' := by
  have hslots := hm.slots h.slots
  have hfile := hm.inFile hs h.slots h.inFile
  -- an open descriptor is not freed but by `close`, which leaves 0 and 1 alone
  have huse : ∀ i < 2, (t i).flags = .IN_USE → (t' i).flags = .IN_USE := by
    intro i hi hu
    have upd : ∀ (n : Nat) (e : FdEntry), (n < 2 → e.flags = .IN_USE) → (Function.update t n e i).flags = .IN_USE := by
      intro n e he
      by_cases hin : i = n
      · subst hin
        rw [Function.update_self]
        exact he hi
      · rwa [Function.update_of_ne hin]
    cases hm with
    | same => exact hu
    | stdin => exact upd _ _ fun _ => rfl
    | stdout => exact upd _ _ fun _ => rfl
    | opens _ h₂ _ _ _ => exact upd _ _ fun _ => rfl
    | closes h₂ _ => exact upd _ _ fun hn => absurd hn (by omega)
    | reads _ hu' _ _ => exact upd _ _ fun _ => hu'
    | lists _ hu' _ _ => exact upd _ _ fun _ => hu'
  refine ⟨hslots.used (by decide) (huse 0 (by decide) h.stdin.1),
    hslots.used (by decide) (huse 1 (by decide) h.stdout.1), fun i h₂ h₈ => ?_, fun i h₂ h₈ => hfile i h₈⟩
  rcases hslots i h₈ with hf | hu
  · exact .inl hf
  · obtain ⟨n, rfl⟩ : ∃ n, i = n + 2 := ⟨i - 2, by omega⟩
    exact .inr hu

theorem step {s s' : State} {c : FdCall} (h : DescriptorTable img s.curPcb.fdEntry) (hs : img.Sound)
    (hstep : fdStep img s c = some s') : DescriptorTable img s'.curPcb.fdEntry := by
  obtain ⟨r, hr, rfl⟩ := toOption_map_eq_some.mp hstep
  exact h.move hs (fdCall_move hr)

/-- A descriptor that is free is canonically so. -/
theorem free_eq (h : DescriptorTable img t) {i : Nat} (h₂ : 2 ≤ i) (h₈ : i < MAX_FD_NUM) (hf : (t i).flags = .FREE) :
    t i = freeEntry := by
  rcases h.slot i h₂ h₈ with he | ho
  · exact he
  · rw [ho.flags] at hf
    cases hf

/-- `open` takes the lowest free descriptor, and `close` gives back the table. -/
theorem open_close {s s' : State} (h : DescriptorTable img s.curPcb.fdEntry) {filename : Option CString} {fd : Int}
    (ho : sysOpen img s filename = .ok (fd, s')) (h₂ : 2 ≤ fd) :
    ∃ i : Nat, fd = i ∧ i < MAX_FD_NUM ∧ s.curPcb.fdEntry i = freeEntry ∧
      (∀ j, 2 ≤ j → j < i → (s.curPcb.fdEntry j).flags = .IN_USE) ∧
      ∃ s'', sysClose s' fd = .ok (0, s'') ∧ s''.curPcb.fdEntry = s.curPcb.fdEntry := by
  have hm := sysOpen_move ho
  rcases sysOpen_eq_ok ho with he | he | he | ⟨name, d, i, table, f, hd, hi, ht, -, he⟩
  · obtain ⟨rfl, -⟩ := Prod.mk.inj he
    omega
  · obtain ⟨rfl, -⟩ := Prod.mk.inj he
    exact absurd h₂ (by decide)
  · obtain ⟨rfl, -⟩ := Prod.mk.inj he
    exact absurd h₂ (by decide)
  obtain ⟨rfl, rfl⟩ := Prod.mk.inj he
  obtain ⟨hi₂, h₈, hf, hlow⟩ := vacantFd_eq_some hi
  have hfree := h.free_eq hi₂ h₈ hf
  refine ⟨i, rfl, h₈, hfree, hlow, ?_⟩
  refine ⟨_, (hm.slots h.slots).sysClose_eq hi₂ h₈ ?_, ?_⟩
  · simp only [(callOpen_still _ _).curPcb, setFd_fdEntry, Function.update_self]
  · simp only [(callOpen_still _ _).curPcb, setFd_fdEntry, Function.update_idem]
    rw [← hfree, Function.update_eq_self]

end DescriptorTable

theorem shellImage_sound : shellImage.Sound := by
  have h₀ : ∀ j, shellImage.IsFile j → j = 0 := fun j hj => by
    have : j < 1 := hj.1
    omega
  refine ⟨fun j hj => ?_, fun j hj => ?_⟩
  · rw [h₀ j hj]
    decide +kernel
  · rw [h₀ j hj]
    decide +kernel

end LimeOS
