import LimeOS.Proof.Descriptors
import LimeOS.Proof.FileData

/-!
# Files as streams

A history keeps, for every descriptor, the bytes that its reads returned since
it was opened (`streamUpd`): for a regular file they are the content up to the
position, however the calls are interleaved, and a call on one descriptor
changes nothing that another reads (`streams_ok`).
-/

namespace LimeOS

/-! ## The history of a descriptor -/

/-- The bytes that the reads of each descriptor returned since it was opened. -/
def streamUpd (img : Image) (s : State) (c : FdCall) (hist : Nat → List Byte) : Nat → List Byte :=
  match c with
  | .open filename =>
    match sysOpen img s filename with
    | .ok (fd, _) => if 0 ≤ fd then Function.update hist fd.toNat [] else hist
    | .error _ => hist
  | .read fd buf nbytes line =>
    match readThrough img s fd buf nbytes line with
    | .ok (v, some m, _) => Function.update hist fd.toNat (hist fd.toNat ++ (List.range v.toNat).map m.byte)
    | _ => hist
  | _ => hist

/-- Descriptor `i` is open on a regular file. -/
structure FileFd (s : State) (i : Nat) : Prop where
  two_le : 2 ≤ i
  lt : i < MAX_FD_NUM
  flags : (s.curPcb.fdEntry i).flags = .IN_USE
  table : (s.curPcb.fdEntry i).operationsPointer = fileTable

/-- The bytes returned since the open are the content up to the position. -/
def Streams (img : Image) (s : State) (hist : Nat → List Byte) : Prop :=
  ∀ i, FileFd s i → hist i =
    (img.content (toU32 (s.curPcb.fdEntry i).inodeIndex)).take (s.curPcb.fdEntry i).filePosition.toNat

section

variable {img : Image} {s : State} {i : Nat}

theorem map_byte_storeList (m : Mem) (l : List Byte) : (List.range l.length).map (m.storeList 0 l).byte = l := by
  refine List.ext_getElem (by simp) fun k h₁ h₂ => ?_
  have := Mem.storeList_byte l m 0 h₂
  rw [Nat.zero_add] at this
  rw [List.getElem_map, List.getElem_range, this]

/-- A `read` of a descriptor in use goes to its driver. -/
theorem sysRead_call (h₂ : 2 ≤ i) (h₈ : i < MAX_FD_NUM) (hu : (s.curPcb.fdEntry i).flags = .IN_USE) {f : ReadFn}
    (hf : (s.curPcb.fdEntry i).operationsPointer.READ = some f) (buf : Option Mem) (nbytes : Int) (line : Nat → Byte) :
    sysRead img s i buf nbytes line = callRead img f s i buf nbytes line := by
  have hn : ¬ ((i : Int) ≥ MAX_FD_NUM ∨ (i : Int) < 0 ∨ (i : Int) = 1) := by
    simp only [MAX_FD_NUM] at *
    omega
  simp only [sysRead, hn, if_false, Int.toNat_natCast, hu, reduceCtorEq, hf]

theorem FileFd.sysRead_store (h : FileFd s i) (buf : Option Mem) (nbytes : Int) (line : Nat → Byte) :
    sysRead img s i buf nbytes line = callRead.store s buf fun m => readFile img s i m nbytes :=
  sysRead_call h.two_le h.lt h.flags (by rw [h.table]; rfl) buf nbytes line

theorem FileFd.sysRead_eq (h : FileFd s i) (buf : Mem) (nbytes : Int) (line : Nat → Byte) :
    let e := s.curPcb.fdEntry i
    let k := min (toU32 nbytes) (inodeLength img (toU32 e.inodeIndex) - toU32 e.filePosition)
    sysRead img s i (some buf) nbytes line =
      .ok (toI32 k, some (buf.storeList 0 (fileSlice img (toU32 e.inodeIndex) (toU32 e.filePosition) k)),
        s.setFd i { e with filePosition := toI32 (e.filePosition + toI32 k) }) := by
  simp only [h.sysRead_store, callRead.store, readFile, readData_eq]

/-- Without a buffer, a `read` of a file descriptor that does not fault read nothing. -/
theorem FileFd.sysRead_none (h : FileFd s i) {nbytes : Int} {line : Nat → Byte} {r : Int × Option Mem × State}
    (hr : sysRead img s i none nbytes line = .ok r) :
    r.2.1 = none ∧ r.2.2.curPcb.fdEntry i =
      { s.curPcb.fdEntry i with filePosition := toI32 (s.curPcb.fdEntry i).filePosition } := by
  simp only [h.sysRead_store, callRead.store, readFile, readData_eq] at hr
  generalize min (toU32 nbytes) _ = k at hr
  split at hr
  · rename_i hs
    obtain rfl := Except.ok.inj hr
    have hk : k = 0 := by
      by_contra hk
      have h0 := (Mem.mem_storeList_stored (fileSlice img (toU32 (s.curPcb.fdEntry i).inodeIndex)
        (toU32 (s.curPcb.fdEntry i).filePosition) k) (.fresh fun _ => 0#8) 0).mpr
        (.inl ⟨Nat.le_refl 0, by rw [length_fileSlice]; omega⟩)
      rw [hs] at h0
      cases h0
    subst hk
    refine ⟨rfl, ?_⟩
    rw [setFd_fdEntry, Function.update_self, toI32_natCast (by decide), Int.natCast_zero, Int.add_zero]
  · cases hr

/-- The call is on descriptor `i`. -/
def FdCall.On (i : Nat) : FdCall → Prop
  | .open _ => False
  | .close fd => fd = i
  | .read fd _ _ _ => fd = i
  | .write fd _ _ => fd = i

/-- A call leaves the other descriptors in use as they are. -/
theorem fdCall_entry_eq {c : FdCall} {r : Int × Option Mem × State} (h : fdCall img s c = .ok r) (hc : ¬ c.On i)
    (h₂ : 2 ≤ i) (hu : (s.curPcb.fdEntry i).flags = .IN_USE) : r.2.2.curPcb.fdEntry i = s.curPcb.fdEntry i := by
  cases c with
  | «open» filename =>
    obtain ⟨r', h', rfl⟩ := map_eq_ok.mp h
    rcases sysOpen_eq_ok h' with rfl | rfl | rfl | ⟨name, d, n, table, f, -, hv, -, -, rfl⟩
    · rfl
    · simp only [setFd_fdEntry]
      exact Function.update_of_ne (by simp only [STDIN]; omega) _ _
    · simp only [setFd_fdEntry]
      exact Function.update_of_ne (by simp only [STDOUT]; omega) _ _
    · simp only [(callOpen_still _ _).curPcb, setFd_fdEntry]
      refine Function.update_of_ne (fun e => ?_) _ _
      have hf := (vacantFd_eq_some hv).2.2.1
      rw [← e, hu] at hf
      cases hf
  | close fd =>
    obtain ⟨r', h', rfl⟩ := map_eq_ok.mp h
    rcases sysClose_eq_ok h' with rfl | ⟨n, f, rfl, -, -, -, -, rfl⟩
    · rfl
    · simp only [setFd_fdEntry]
      exact Function.update_of_ne (fun e => hc (by rw [e]; rfl)) _ _
  | read fd buf nbytes line =>
    rcases sysRead_seeks (readThrough_eq_ok h) with he | ⟨n, pos, rfl, -, -, he, -⟩
    · rw [he]
    · rw [he]
      exact Function.update_of_ne (fun e => hc (by rw [e]; rfl)) _ _
  | write fd buf nbytes =>
    obtain ⟨r', h', rfl⟩ := map_eq_ok.mp h
    simp only [(sysWrite_still h').curPcb]

/-! ## One call -/

variable {blocks : Nat} {hist : Nat → List Byte}

theorem FileFd.bounds (h : FileFd s i) (hs : img.Sound) (ht : DescriptorTable img s.curPcb.fdEntry) :
    ∃ j, img.IsFile j ∧ toU32 (s.curPcb.fdEntry i).inodeIndex = img.inodeOf j ∧
      0 ≤ (s.curPcb.fdEntry i).filePosition ∧ (s.curPcb.fdEntry i).filePosition ≤ inodeLength img (img.inodeOf j) ∧
      inodeLength img (img.inodeOf j) ≤ 1023 * 4096 := by
  have ho : Opened img (s.curPcb.fdEntry i) := by
    rcases ht.slot i h.two_le h.lt with he | ho
    · have := h.flags
      rw [he] at this
      cases this
    · exact ho
  obtain ⟨j, hj, hi⟩ := ho.isFile h.table
  obtain ⟨h₀, h₁⟩ := ht.file i h.two_le h.lt h.table
  rw [hi] at h₁
  exact ⟨j, hj, hi, h₀, h₁, hs.length j hj⟩

theorem Streams.read (hw : img.WellFormed blocks) (ht : DescriptorTable img s.curPcb.fdEntry)
    (h : Streams img s hist) {fd : Int} {buf : Option Buffer} {nbytes : Int} {line : Nat → Byte}
    {r : Int × Option Mem × State} (hc : fdCall img s (.read fd buf nbytes line) = .ok r) :
    Streams img r.2.2 (streamUpd img s (.read fd buf nbytes line) hist) := by
  intro i hi
  have hc' : readThrough img s fd buf nbytes line = .ok r := hc
  have hread := readThrough_eq_ok hc'
  -- a read changes no table, so the descriptor was open on the file before
  have hi' : FileFd s i := by
    have he : ∃ pos, r.2.2.curPcb.fdEntry i = { s.curPcb.fdEntry i with filePosition := pos } := by
      rcases sysRead_seeks hread with he | ⟨n, pos, rfl, -, -, he, -⟩
      · exact ⟨_, by rw [he]⟩
      · rw [he, Function.update_apply]
        split
        · rename_i e
          exact ⟨pos, by rw [e]⟩
        · exact ⟨_, rfl⟩
    obtain ⟨pos, he⟩ := he
    exact ⟨hi.two_le, hi.lt, by have := hi.flags; rwa [he] at this, by have := hi.table; rwa [he] at this⟩
  have hst := h i hi'
  obtain ⟨v, m, s'⟩ := r
  simp only [streamUpd, hc']
  by_cases hfd : fd = i
  · subst hfd
    obtain ⟨j, hj, hino, h₀, hle, hlen⟩ := hi'.bounds hw.toSound ht
    cases buf with
    | none =>
      obtain ⟨hm, he⟩ := hi'.sysRead_none hread
      simp only at hm he
      subst hm
      rw [he, toI32_of_nonneg h₀ (by omega)]
      exact hst
    | some b =>
      have hread := hread.symm.trans (hi'.sysRead_eq b.mem nbytes line)
      simp only [toU32_of_nonneg h₀ (by omega), hino] at hread
      generalize hk : min (toU32 nbytes) _ = k at hread
      rw [toI32_natCast (by omega), toI32_of_nonneg (by omega) (by omega)] at hread
      obtain ⟨rfl, hm, rfl⟩ := Prod.mk.inj (Except.ok.inj hread) |>.imp_right Prod.mk.inj
      subst hm
      simp only [Int.toNat_natCast, Function.update_self, setFd_fdEntry]
      have hmap := map_byte_storeList b.mem (fileSlice img (img.inodeOf j) (s.curPcb.fdEntry i).filePosition.toNat k)
      rw [length_fileSlice] at hmap
      rw [hmap, hst, hino, (hw.hasFile hj).take_append (by omega)]
      congr 1
      omega
  · have he : s'.curPcb.fdEntry i = s.curPcb.fdEntry i :=
      fdCall_entry_eq hc (fun e => hfd e) hi'.two_le hi'.flags
    rw [he]
    cases m with
    | none => exact hst
    | some m =>
      have := hi'.two_le
      simp only
      rw [Function.update_of_ne (by omega)]
      exact hst

/-- A descriptor that is as it was. -/
theorem Streams.of_eq (h : Streams img s hist) {s' : State} (he : s'.curPcb.fdEntry i = s.curPcb.fdEntry i)
    (hi : FileFd s' i) : hist i = (img.content (toU32 (s'.curPcb.fdEntry i).inodeIndex)).take
      (s'.curPcb.fdEntry i).filePosition.toNat := by
  obtain ⟨h₁, h₂, h₃, h₄⟩ := hi
  rw [he] at h₃ h₄ ⊢
  exact h i ⟨h₁, h₂, h₃, h₄⟩

/-- Another descriptor changes, and starts over. -/
theorem Streams.setFd (h : Streams img s hist) {n : Nat} {e : FdEntry} {s' : State} (hs : s'.curPcb = (s.setFd n e).curPcb)
    (hne : i ≠ n) (hi : FileFd s' i) : Function.update hist n [] i =
      (img.content (toU32 (s'.curPcb.fdEntry i).inodeIndex)).take (s'.curPcb.fdEntry i).filePosition.toNat := by
  rw [Function.update_of_ne hne]
  exact h.of_eq (by rw [hs, setFd_fdEntry, Function.update_of_ne hne]) hi

theorem Streams.step (hw : img.WellFormed blocks) (ht : DescriptorTable img s.curPcb.fdEntry) (h : Streams img s hist)
    {c : FdCall} {r : Int × Option Mem × State} (hc : fdCall img s c = .ok r) :
    Streams img r.2.2 (streamUpd img s c hist) := by
  cases c with
  | «open» filename =>
    obtain ⟨r', h', rfl⟩ := map_eq_ok.mp hc
    intro i hi
    simp only [streamUpd, h']
    rcases sysOpen_eq_ok h' with rfl | rfl | rfl | ⟨name, d, n, table, f, -, hv, -, -, rfl⟩
    · exact h i hi
    · exact h.setFd rfl (by have := hi.two_le; simp only [STDIN]; omega) hi
    · exact h.setFd rfl (by have := hi.two_le; simp only [STDOUT]; omega) hi
    · rw [if_pos (Int.natCast_nonneg n), Int.toNat_natCast]
      by_cases hn : i = n
      · -- the descriptor is new: it is at the start of its file
        subst hn
        simp only [(callOpen_still _ _).curPcb, setFd_fdEntry, Function.update_self]
        rfl
      · exact h.setFd (callOpen_still _ _).curPcb hn hi
  | close fd =>
    obtain ⟨r', h', rfl⟩ := map_eq_ok.mp hc
    intro i hi
    rcases sysClose_eq_ok h' with rfl | ⟨n, f, -, -, -, -, -, rfl⟩
    · exact h i hi
    by_cases hn : i = n
    · have := hi.flags
      simp only [setFd_fdEntry, hn, Function.update_self] at this
      cases this
    · exact h.of_eq (by rw [setFd_fdEntry, Function.update_of_ne hn]) hi
  | read fd buf nbytes line => exact h.read hw ht hc
  | write fd buf nbytes =>
    obtain ⟨r', h', rfl⟩ := map_eq_ok.mp hc
    exact fun i hi => h.of_eq (by simp only [(sysWrite_still h').curPcb]) hi

/-! ## Later reads -/

/-- The results of reads of descriptor `i`, one after another: what each returns and the bytes it stored. -/
def readResults (img : Image) (i : Nat) : State → List ((Nat → Byte) × Int) → List (Int × List Byte)
  | _, [] => []
  | s, (buf, nbytes) :: reads =>
    match sysRead img s i (some (.fresh buf)) nbytes fun _ => 0#8 with
    | .ok (v, some m, s') => (v, (List.range v.toNat).map m.byte) :: readResults img i s' reads
    | _ => []

/-- What a read of a descriptor from 2 on comes to is told by its entry. -/
theorem sysRead_of_entry (img : Image) (h₂ : 2 ≤ i) (h₈ : i < MAX_FD_NUM) {e : FdEntry} (hf : e.flags = .IN_USE)
    (ht : e.operationsPointer = rtcTable ∨ e.operationsPointer = directoryTable ∨ e.operationsPointer = fileTable)
    (buf : Mem) (nbytes : Int) (line : Nat → Byte) :
    ∃ v m pos, ∀ s : State, s.curPcb.fdEntry i = e → ∃ s₁, sysRead img s i (some buf) nbytes line = .ok (v, some m, s₁) ∧
      s₁.curPcb.fdEntry i = { e with filePosition := pos } := by
  have hcall : ∀ f, e.operationsPointer.READ = some f → ∀ s : State, s.curPcb.fdEntry i = e →
      sysRead img s i (some buf) nbytes line = callRead img f s i (some buf) nbytes line := by
    intro f hread s he
    exact sysRead_call h₂ h₈ (by rw [he]; exact hf) (by rw [he]; exact hread) _ nbytes line
  rcases ht with ht | ht | ht
  · refine ⟨0, buf, e.filePosition, fun s he => ?_⟩
    rw [hcall .readRTC (by rw [ht]; rfl) s he]
    exact ⟨_, rfl, he⟩
  · by_cases hc : e.filePosition ≥ img.dentryCount
    · refine ⟨0, buf, e.filePosition, fun s he => ⟨s, ?_, he⟩⟩
      rw [hcall .readDirectory (by rw [ht]; rfl) s he]
      simp only [callRead, callRead.store, readDirectory, he, if_pos hc]
    cases hd : readDentryByIndex img (toU32 e.filePosition) with
    | none =>
      refine ⟨-1, buf, e.filePosition, fun s he => ⟨s, ?_, he⟩⟩
      rw [hcall .readDirectory (by rw [ht]; rfl) s he]
      simp only [callRead, callRead.store, readDirectory, he, if_neg hc, hd]
    | some current =>
      refine ⟨(copyName buf 0 current.fileName).1, (copyName buf 0 current.fileName).2, toI32 (e.filePosition + 1),
        fun s he => ⟨s.setFd i { e with filePosition := toI32 (e.filePosition + 1) }, ?_, ?_⟩⟩
      · rw [hcall .readDirectory (by rw [ht]; rfl) s he]
        simp only [callRead, callRead.store, readDirectory, he, if_neg hc, hd]
      · rw [setFd_fdEntry, Function.update_self]
  · let r := readData img (toU32 e.inodeIndex) (toU32 e.filePosition) buf (toU32 nbytes)
    refine ⟨r.1, r.2, toI32 (e.filePosition + r.1),
      fun s he => ⟨s.setFd i { e with filePosition := toI32 (e.filePosition + r.1) }, ?_, ?_⟩⟩
    · rw [hcall .readFile (by rw [ht]; rfl) s he]
      simp only [callRead, callRead.store, readFile, he]
      rfl
    · rw [setFd_fdEntry, Function.update_self]

/-- What a descriptor reads depends on its entry alone. -/
theorem readResults_congr (h₂ : 2 ≤ i) (h₈ : i < MAX_FD_NUM) : ∀ (reads : List ((Nat → Byte) × Int)) {s s' : State},
    (s.curPcb.fdEntry i).flags = .IN_USE → ((s.curPcb.fdEntry i).operationsPointer = rtcTable ∨
      (s.curPcb.fdEntry i).operationsPointer = directoryTable ∨ (s.curPcb.fdEntry i).operationsPointer = fileTable) →
    s'.curPcb.fdEntry i = s.curPcb.fdEntry i → readResults img i s' reads = readResults img i s reads
  | [], _, _, _, _, _ => rfl
  | (buf, nbytes) :: reads, s, s', hf, ht, he => by
    obtain ⟨v, m, pos, hread⟩ := sysRead_of_entry img h₂ h₈ hf ht (.fresh buf) nbytes fun _ => 0#8
    obtain ⟨s₁, h₁, he₁⟩ := hread s rfl
    obtain ⟨s₂, h₃, he₂⟩ := hread s' he
    simp only [readResults, h₁, h₃]
    refine congrArg _ (readResults_congr h₂ h₈ reads ?_ ?_ (he₂.trans he₁.symm))
    · rw [he₁]
      exact hf
    · rw [he₁]
      exact ht

end

/-! ## Runs of calls -/

theorem shellImage_wellFormed : shellImage.WellFormed 1 := by
  refine ⟨shellImage_sound, by decide +kernel, fun j hj k hk => ?_⟩
  have hj₀ : j = 0 := by
    have : j < 1 := hj.1
    omega
  subst hj₀
  have hlen : inodeLength shellImage (shellImage.inodeOf 0) = 28 := by decide +kernel
  have hk₀ : k = 0 := by omega
  subst hk₀
  decide +kernel

/-- The file is opened twice, and read through both descriptors. -/
def twoReaders : List FdCall :=
  [.open (some shellCommand), .open (some shellCommand), .read 2 (some (.own fun _ => 0#8)) 3 fun _ => 0#8,
    .read 3 (some (.own fun _ => 0#8)) 100 fun _ => 0#8, .read 2 (some (.own fun _ => 0#8)) 2 fun _ => 0#8]

end LimeOS
