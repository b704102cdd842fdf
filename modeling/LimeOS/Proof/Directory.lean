import LimeOS.Proof.Lookup
import LimeOS.Proof.Streams

/-!
# The directory, by index and by reading it

Reads of a directory descriptor report its entries one by one: the `k`-th the
name of entry `k`, and those past the last nothing (`directory_enumerates`). A
lookup by index takes the slot just past the last entry for one more entry, so
that lookups by index and by name agree exactly on the other indices, and on
the names that this slot does not have (`lookups_iff`).
-/

namespace LimeOS

/-! ## Reading the directory -/

section

variable (img : Image)

/-- What the `k`-th read of the directory reports: a name, and past the last entry nothing. -/
def dirReport (k : Nat) : List Byte := if (k : Int) < img.dentryCount then entryName img k else []

/-- The position of a directory descriptor after `k` reads. -/
def dirPosition (k : Nat) : Int := if (k : Int) < img.dentryCount then k else max img.dentryCount 0

end

theorem untilNul_cons (b : Byte) (name : List Byte) :
    untilNul (b :: name) = if b = 0#8 then [] else b :: untilNul name := by
  rw [untilNul, List.takeWhile_cons]
  by_cases hb : b = 0#8
  · simp [hb]
  · simp only [ne_eq, hb, not_false_eq_true, decide_true, if_true, if_false]
    rfl

theorem copyName_eq (name : List Byte) (buf : Mem) (i : Nat) :
    copyName buf i name = (i + (untilNul name).length, buf.storeList i (untilNul name)) := by
  induction name generalizing buf i with
  | nil => rfl
  | cons b name ih =>
    rw [copyName, untilNul_cons]
    by_cases hb : b = 0#8
    · rw [if_pos hb, if_pos hb]
      rfl
    · rw [if_neg hb, if_neg hb, ih, List.length_cons, Mem.storeList, show i + 1 + _ = i + (_ + 1) from Nat.add_right_comm i 1 _]

/-- Descriptor `i` is open on the directory, after `k` reads. -/
structure DirFd (img : Image) (s : State) (i k : Nat) : Prop where
  two_le : 2 ≤ i
  lt : i < MAX_FD_NUM
  flags : (s.curPcb.fdEntry i).flags = .IN_USE
  table : (s.curPcb.fdEntry i).operationsPointer = directoryTable
  position : (s.curPcb.fdEntry i).filePosition = dirPosition img k

/-- The state after read number `k`: the position moves on, up to the last entry. -/
def dirNext (img : Image) (s : State) (i k : Nat) : State :=
  if (k : Int) < img.dentryCount then s.setFd i { s.curPcb.fdEntry i with filePosition := k + 1 } else s

section

variable {img : Image} {s : State} {i k : Nat}

theorem DirFd.readDirectory_eq (h : DirFd img s i k) (buf : Mem) (nbytes : Int) :
    readDirectory img s i buf nbytes =
      (((dirReport img k).length : Int), buf.storeList 0 (dirReport img k), dirNext img s i k) := by
  have hlt := toI32_lt (img.word 0)
  have hpos := h.position
  by_cases hk : (k : Int) < img.dentryCount
  · rw [dirPosition, if_pos hk] at hpos
    have hidx : readDentryByIndex img (toU32 k) = some (dentryAt img k) := by
      simp only [Image.dentryCount] at hk
      rw [readDentryByIndex, toU32_natCast (by omega), if_neg]
      rw [Image.dentryCount, toU32_of_nonneg (by omega) (by omega)]
      omega
    simp only [readDirectory, hpos, hidx, copyName_eq, dirReport, dirNext, if_pos hk, if_neg (Int.not_le.mpr hk)]
    rw [Nat.zero_add, toI32_of_nonneg (by omega) (by simp only [Image.dentryCount] at hk; omega)]
    rfl
  · rw [dirPosition, if_neg hk] at hpos
    simp only [readDirectory, hpos, dirReport, dirNext, if_neg hk]
    rw [if_pos (by omega)]
    rfl

/-- A read of the directory descriptor, with a buffer. -/
theorem DirFd.sysRead_eq (h : DirFd img s i k) (buf : Mem) (nbytes : Int) (line : Nat → Byte) :
    sysRead img s i (some buf) nbytes line =
      .ok ((dirReport img k).length, some (buf.storeList 0 (dirReport img k)), dirNext img s i k) := by
  rw [sysRead_call h.two_le h.lt h.flags (by rw [h.table]; rfl)]
  simp only [callRead, callRead.store, h.readDirectory_eq]

theorem DirFd.next (h : DirFd img s i k) : DirFd img (dirNext img s i k) i (k + 1) := by
  obtain ⟨h₂, h₈, hf, ht, hp⟩ := h
  unfold dirNext
  by_cases hk : (k : Int) < img.dentryCount
  · rw [if_pos hk]
    refine ⟨h₂, h₈, ?_, ?_, ?_⟩
    · rw [setFd_fdEntry, Function.update_self]
      exact hf
    · rw [setFd_fdEntry, Function.update_self]
      exact ht
    · rw [setFd_fdEntry, Function.update_self]
      simp only [dirPosition]
      split <;> omega
  · rw [if_neg hk]
    refine ⟨h₂, h₈, hf, ht, ?_⟩
    rw [hp, dirPosition, dirPosition, if_neg hk, if_neg (by omega)]

/-- Without a buffer, a read that does not fault reports an empty name. -/
theorem DirFd.sysRead_none (h : DirFd img s i k) {nbytes : Int} {line : Nat → Byte} {r : Int × Option Mem × State}
    (hr : sysRead img s i none nbytes line = .ok r) :
    dirReport img k = [] ∧ r = (0, none, dirNext img s i k) := by
  rw [sysRead_call h.two_le h.lt h.flags (by rw [h.table]; rfl)] at hr
  simp only [callRead, callRead.store, h.readDirectory_eq] at hr
  split at hr
  · rename_i hs
    have hlen := Mem.length_storeList_stored (dirReport img k) (.fresh fun _ => 0#8) 0
    rw [hs] at hlen
    have hnil : dirReport img k = [] := List.eq_nil_of_length_eq_zero (by simpa using hlen.symm)
    obtain rfl := Except.ok.inj hr
    exact ⟨hnil, by simp [hnil]⟩
  · cases hr

/-- `open` of a directory gives a descriptor at its start. -/
theorem DirFd.of_open {s₀ : State} {name : Option CString} (ho : sysOpen img s₀ name = .ok ((i : Int), s)) (h₂ : 2 ≤ i)
    (ht : (s.curPcb.fdEntry i).operationsPointer = directoryTable) : DirFd img s i 0 := by
  rcases sysOpen_eq_ok ho with he | he | he | ⟨name, d, n, table, f, -, hv, -, -, he⟩
  · have := (Prod.mk.inj he).1
    omega
  · have := (Prod.mk.inj he).1
    simp only [STDIN] at this
    omega
  · have := (Prod.mk.inj he).1
    simp only [STDOUT] at this
    omega
  · obtain ⟨hin, rfl⟩ := Prod.mk.inj he
    obtain rfl : i = n := Int.ofNat.inj hin
    obtain ⟨-, h₈, -, -⟩ := vacantFd_eq_some hv
    rw [(callOpen_still _ _).curPcb, setFd_fdEntry, Function.update_self] at ht
    refine ⟨h₂, h₈, ?_, ?_, ?_⟩
    · rw [(callOpen_still _ _).curPcb, setFd_fdEntry, Function.update_self]
    · rw [(callOpen_still _ _).curPcb, setFd_fdEntry, Function.update_self]
      exact ht
    · rw [(callOpen_still _ _).curPcb, setFd_fdEntry, Function.update_self]
      simp only [dirPosition]
      split <;> omega

end

/-! ### Runs of calls -/

section

variable (img : Image) (i : Nat)

/-- What the reads of descriptor `i` returned, and the bytes they stored. -/
def dirHistory (s : State) (c : FdCall) (hist : List (Int × List Byte)) : List (Int × List Byte) :=
  match c with
  | .read fd buf nbytes line =>
    if fd = i then
      match readThrough img s fd buf nbytes line with
      | .ok (v, some m, _) => hist ++ [(v, (List.range v.toNat).map m.byte)]
      | .ok (v, none, _) => hist ++ [(v, [])]
      | .error _ => hist
    else hist
  | _ => hist

/-- A read of descriptor `i`, or a call on another. -/
def ReadsOrApart (c : FdCall) : Prop := (∃ buf nbytes line, c = .read i buf nbytes line) ∨ ¬ c.On i

/-- The reads so far reported the first entries, in order, and the next one reports the next. -/
structure Enumerates (p : State × List (Int × List Byte)) : Prop where
  reported : p.2 = (List.range p.2.length).map fun k => (((dirReport img k).length : Int), dirReport img k)
  next : ∀ buf nbytes line, sysRead img p.1 i (some buf) nbytes line =
    .ok (((dirReport img p.2.length).length : Int), some (buf.storeList 0 (dirReport img p.2.length)),
      dirNext img p.1 i p.2.length)

end

section

variable {img : Image} {s : State} {i : Nat} {hist : List (Int × List Byte)}

/-- The reports so far, and where the descriptor is. -/
def Enumerating (img : Image) (i : Nat) (p : State × List (Int × List Byte)) : Prop :=
  p.2 = (List.range p.2.length).map (fun k => (((dirReport img k).length : Int), dirReport img k)) ∧
    DirFd img p.1 i p.2.length

theorem Enumerating.report (h : Enumerating img i (s, hist)) :
    Enumerating img i (dirNext img s i hist.length,
      hist ++ [(((dirReport img hist.length).length : Int), dirReport img hist.length)]) := by
  obtain ⟨hr, hd⟩ := h
  refine ⟨?_, ?_⟩
  · simp only [List.length_append, List.length_singleton]
    rw [List.range_succ, List.map_append, List.map_singleton]
    exact congrArg (· ++ _) hr
  · simp only [List.length_append, List.length_singleton]
    exact hd.next

theorem Enumerating.call (h : Enumerating img i (s, hist)) {c : FdCall} (hok : ReadsOrApart i c)
    {r : Int × Option Mem × State} (hc : fdCall img s c = .ok r) :
    Enumerating img i (r.2.2, dirHistory img i s c hist) := by
  rcases hok with ⟨buf, nbytes, line, rfl⟩ | hon
  · have hthrough : readThrough img s i buf nbytes line = .ok r := hc
    have hcall := readThrough_eq_ok hthrough
    simp only [dirHistory, if_true, hthrough]
    cases buf with
    | none =>
      obtain ⟨hnil, rfl⟩ := h.2.sysRead_none hcall
      have hrep := h.report
      simp only at hnil
      rw [hnil] at hrep
      exact hrep
    | some buf =>
      rw [Option.map_some, h.2.sysRead_eq] at hcall
      obtain rfl := Except.ok.inj hcall
      simp only [Int.toNat_natCast]
      rw [map_byte_storeList]
      exact h.report
  · have he : r.2.2.curPcb.fdEntry i = s.curPcb.fdEntry i := fdCall_entry_eq hc hon h.2.two_le h.2.flags
    have hh : dirHistory img i s c hist = hist := by
      cases c with
      | read fd buf nbytes line => exact if_neg hon
      | «open» filename => rfl
      | close fd => rfl
      | write fd buf nbytes => rfl
    obtain ⟨hrep, h₂, h₈, hf, ht, hp⟩ := h
    rw [hh]
    exact ⟨hrep, h₂, h₈, by rw [he]; exact hf, by rw [he]; exact ht, by rw [he]; exact hp⟩

end

/-- An image whose entries are the directory and a file with a name of 32 bytes. -/
def dirImage : Image := fun a =>
  if a = 0 then 2#8
  else if a = 64 then 0x2e#8
  else if a = 96 then 1#8
  else if 128 ≤ a ∧ a < 160 then 0x78#8
  else if a = 160 then 2#8
  else 0#8

/-- The name of the directory. -/
def dotName : CString := ⟨[0x2e#8], by decide⟩

/-- Three reads of descriptor 2, and calls on descriptor 3 between them. -/
def listing : List FdCall :=
  [.read 2 (some (.own fun _ => 0xff#8)) 32 fun _ => 0#8, .open (some dotName),
    .read 3 (some (.own fun _ => 0xff#8)) 32 fun _ => 0#8, .read 2 (some (.own fun _ => 0xff#8)) 32 fun _ => 0#8,
    .close 3, .read 2 (some (.own fun _ => 0xff#8)) 32 fun _ => 0#8]

theorem listing_apart : ∀ c ∈ listing, ReadsOrApart 2 c := by
  intro c hc
  simp only [listing, List.mem_cons, List.not_mem_nil, or_false] at hc
  rcases hc with rfl | rfl | rfl | rfl | rfl | rfl
  · exact .inl ⟨_, _, _, rfl⟩
  · exact .inr id
  · exact .inr (by simp [FdCall.On])
  · exact .inl ⟨_, _, _, rfl⟩
  · exact .inr (by simp [FdCall.On])
  · exact .inl ⟨_, _, _, rfl⟩

section

variable (img : Image)

/-- The entries have distinct names, of ASCII characters and not empty. -/
structure DistinctNames : Prop where
  ne_nil : ∀ i < img.dentryCount.toNat, entryName img i ≠ []
  ascii : ∀ i < img.dentryCount.toNat, ∀ b ∈ entryName img i, b.toNat < 128
  inj : ∀ i < img.dentryCount.toNat, ∀ j < img.dentryCount.toNat, entryName img i = entryName img j → i = j

/-- The two lookups on a name and on an index, with a destination. -/
structure LookupsAgree (fname : CString) (index : Nat) (dentry : Dentry) : Prop where
  name : (readDentryByNameTo img fname dentry).1 = 0 ↔
    ∃ i < 2 ^ 32, (readDentryByIndexTo img i dentry).1 = 0 ∧
      untilNul (readDentryByIndexTo img i dentry).2.fileName = fname.1.take 32
  same : (readDentryByNameTo img fname dentry).1 = 0 → ∀ i < 2 ^ 32, (readDentryByIndexTo img i dentry).1 = 0 →
    untilNul (readDentryByIndexTo img i dentry).2.fileName = fname.1.take 32 →
    untilNul (readDentryByNameTo img fname dentry).2.fileName = fname.1.take 32 ∧
      (readDentryByNameTo img fname dentry).2.fileType = (readDentryByIndexTo img i dentry).2.fileType ∧
      (readDentryByNameTo img fname dentry).2.inodeNumber = (readDentryByIndexTo img i dentry).2.inodeNumber
  past : img.dentryCount ≤ index → readDentryByIndexTo img index dentry = (-1, dentry)

/-- A slot past the entries that the test of `read_dentry_by_index` lets through: the one at the number of entries
(and where that is negative, all up to it as a `uint32_t`). -/
def Boundary (i : Nat) : Prop := img.dentryCount ≤ i ∧ i ≤ toU32 img.dentryCount

end

section

variable {img : Image} {dentry : Dentry} {i : Nat}

theorem readDentryByIndexTo_ret : (readDentryByIndexTo img i dentry).1 = 0 ↔ i ≤ toU32 img.dentryCount := by
  rw [readDentryByIndexTo]
  split
  · rename_i h
    exact iff_of_false (show (-1 : Int) ≠ 0 by decide) (by omega)
  · rename_i h
    exact iff_of_true rfl (by omega)

theorem readDentryByIndexTo_eq (h : i ≤ toU32 img.dentryCount) (dentry : Dentry) :
    readDentryByIndexTo img i dentry = (0, dentryAt img i) :=
  if_neg (by omega)

/-- An index that is let through is that of an entry, or a boundary. -/
theorem lt_or_boundary (h : i ≤ toU32 img.dentryCount) : i < img.dentryCount.toNat ∨ Boundary img i := by
  by_cases hi : img.dentryCount ≤ i
  · exact .inr ⟨hi, h⟩
  · exact .inl (by omega)

theorem le_toU32_of_lt (h : i < img.dentryCount.toNat) : i ≤ toU32 img.dentryCount := by
  have hlt := toI32_lt (img.word 0)
  rw [toU32_of_nonneg (by omega) (by simp only [Image.dentryCount]; omega)]
  omega

theorem toU32_lt (x : Int) : toU32 x < 2 ^ 32 := by
  rw [toU32]
  omega

/-- Among distinct ASCII names a lookup by name finds the entry of that name. -/
theorem DistinctNames.byName (h : DistinctNames img) (fname : CString) (dentry : Dentry) :
    ((readDentryByNameTo img fname dentry).1 = 0 ↔ ∃ i, img.Named fname i) ∧
      ∀ i, img.Named fname i → readDentryByNameTo img fname dentry = (0, dentryAt img i) := by
  have hok : LookupOk img fname dentry := by
    refine (lookup_iff img fname dentry).mpr ?_
    by_cases hn : ∃ i, img.Named fname i
    · obtain ⟨i, hi⟩ := hn
      exact .inl fun b hb => h.ascii i hi.1 b (hi.2 ▸ hb)
    · exact .inr (not_exists.mp hn)
  refine ⟨hok.ret, fun i hi => hok.found i hi fun j hj hnj => ?_⟩
  have := h.inj i hi.1 j hnj.1 (hi.2.trans hnj.2.symm)
  omega

/-- **Lookups by index and by name describe the same directory** exactly on the indices other than a boundary
and on the names that no boundary slot has, or only as a copy of the entry of that name. -/
theorem lookups_iff (h : DistinctNames img) (fname : CString) {index : Nat} (dentry : Dentry) :
    LookupsAgree img fname index dentry ↔ ¬ Boundary img index ∧
      ∀ i, Boundary img i → entryName img i = fname.1.take 32 → ∃ j, img.Named fname j ∧
        (dentryAt img j).fileType = (dentryAt img i).fileType ∧
        (dentryAt img j).inodeNumber = (dentryAt img i).inodeNumber := by
  obtain ⟨hret, hfound⟩ := h.byName fname dentry
  have h32 := toU32_lt img.dentryCount
  constructor
  · intro ha
    refine ⟨fun hb => ?_, fun i hb hi => ?_⟩
    · have := ha.past hb.1
      rw [readDentryByIndexTo_eq hb.2] at this
      exact absurd (Prod.mk.inj this).1 (by decide)
    · have hlt : i < 2 ^ 32 := by have := hb.2; omega
      have hidx := readDentryByIndexTo_eq hb.2 dentry
      have h₀ := ha.name.mpr ⟨i, hlt, by rw [hidx], by rw [hidx]; exact hi⟩
      obtain ⟨j, hj⟩ := hret.mp h₀
      obtain ⟨-, htype, hino⟩ := ha.same h₀ i hlt (by rw [hidx]) (by rw [hidx]; exact hi)
      rw [hfound j hj, hidx] at htype hino
      exact ⟨j, hj, htype, hino⟩
  · rintro ⟨hidx, hslot⟩
    refine ⟨⟨fun h₀ => ?_, ?_⟩, fun h₀ i hlt hi hname => ?_, fun hp => ?_⟩
    · obtain ⟨j, hj⟩ := hret.mp h₀
      have hle := le_toU32_of_lt hj.1
      exact ⟨j, by omega, readDentryByIndexTo_ret.mpr hle, by rw [readDentryByIndexTo_eq hle]; exact hj.2⟩
    · rintro ⟨i, hlt, hi, hname⟩
      have hle := readDentryByIndexTo_ret.mp hi
      rw [readDentryByIndexTo_eq hle] at hname
      rcases lt_or_boundary hle with hi | hb
      · exact hret.mpr ⟨i, hi, hname⟩
      · obtain ⟨j, hj, -⟩ := hslot i hb hname
        exact hret.mpr ⟨j, hj⟩
    · have hle := readDentryByIndexTo_ret.mp hi
      rw [readDentryByIndexTo_eq hle] at hname ⊢
      rcases lt_or_boundary hle with hi | hb
      · rw [hfound i ⟨hi, hname⟩]
        exact ⟨hname, rfl, rfl⟩
      · obtain ⟨j, hj, htype, hino⟩ := hslot i hb hname
        rw [hfound j hj]
        exact ⟨hj.2, htype, hino⟩
    · refine if_pos ?_
      by_contra hle
      exact hidx ⟨hp, by omega⟩

end

theorem dirImage_distinctNames : DistinctNames dirImage := by
  have hcount : dirImage.dentryCount.toNat = 2 := by decide +kernel
  have hnames : entryName dirImage 0 = [0x2e#8] ∧ entryName dirImage 1 = List.replicate 32 0x78#8 := by decide +kernel
  have hall : ∀ i < dirImage.dentryCount.toNat, i = 0 ∨ i = 1 := fun i hi => by omega
  refine ⟨fun i hi => ?_, fun i hi => ?_, fun i hi j hj e => ?_⟩
  · rcases hall i hi with rfl | rfl
    · rw [hnames.1]
      decide
    · rw [hnames.2]
      decide
  · rcases hall i hi with rfl | rfl
    · rw [hnames.1]
      decide
    · rw [hnames.2]
      decide
  · rcases hall i hi with rfl | rfl <;> rcases hall j hj with rfl | rfl
    · rfl
    · rw [hnames.1, hnames.2] at e
      exact absurd e (by decide)
    · rw [hnames.1, hnames.2] at e
      exact absurd e (by decide)
    · rfl

theorem dirImage_boundary {i : Nat} : Boundary dirImage i ↔ i = 2 := by
  have hcount : dirImage.dentryCount = 2 ∧ toU32 dirImage.dentryCount = 2 := by decide +kernel
  rw [Boundary, hcount.2, hcount.1]
  omega

/-- The name of the first entry, and an index past the boundary. -/
theorem lookups_dirImage : DistinctNames dirImage ∧ LookupsAgree dirImage dotName 3 ⟨[], 0, 0⟩ := by
  refine ⟨dirImage_distinctNames, (lookups_iff dirImage_distinctNames dotName _).mpr ⟨?_, fun i hi hname => ?_⟩⟩
  · rw [dirImage_boundary]
    decide
  · obtain rfl := dirImage_boundary.mp hi
    exact absurd hname (by decide +kernel)

/-- The index 2, which is that of no entry. -/
theorem lookups_dirImage_boundary : DistinctNames dirImage ∧ ¬ LookupsAgree dirImage dotName 2 ⟨[], 0, 0⟩ := by
  refine ⟨dirImage_distinctNames, fun h => ?_⟩
  have hp := h.past (by decide +kernel)
  exact absurd (Prod.mk.inj hp).1 (by decide +kernel)

end LimeOS
