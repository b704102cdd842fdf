import LimeOS.Impl.Paging
import LimeOS.Proof.Scheduler
import LimeOS.Proof.Vidmap
import LimeOS.Proof.Waiting

/-!
# What a program can reach

Once the shells run, the tables grant a program its own 4 MB, the video page at
its physical address and the three pages that `vidmap` gives out, and nothing
else (`user_access_iff`): the kernel keeps the program's entry at the frame of the
current process (`Confined`). So nothing that another process does, its stores
included, changes the memory of a process that waits (`memory_isolated`).
-/

namespace LimeOS

/-! ## The tables that `init_paging` fills -/

section

variable {addrs : TableAddrs} {p : Paging} {i : Nat}

theorem foldl_zero (n : Nat) (p : Paging) (i : Nat) :
    ((List.range n).foldl Paging.zero p).pdt i = (if i < n then 0 else p.pdt i) ∧
    ((List.range n).foldl Paging.zero p).pt0 i = (if i < n then 0 else p.pt0 i) ∧
    ((List.range n).foldl Paging.zero p).pt1 i = if i < n then 0 else p.pt1 i := by
  induction n with
  | zero => simp
  | succ n ih =>
    rw [List.range_succ, List.foldl_append, List.foldl_cons, List.foldl_nil]
    simp only [Paging.zero, Function.update_apply, ih.1, ih.2.1, ih.2.2]
    by_cases hi : i = n
    · simp [hi]
    · simp [hi, show i < n + 1 ↔ i < n by omega]

theorem initPaging_pdt (hi : i < PAGE_SIZE) : (initPaging addrs p).pdt i =
    if i = USER_VID_INDEX then addrs.pt1 ||| UVM_MASK else if i = 0 then addrs.pt0 ||| T_ZERO_MASK
    else if i = 1 then KERNEL_ENTRY else 0 := by
  simp only [initPaging, List.range', List.foldl_cons, List.foldl_nil, Paging.video, Function.update_apply,
    (foldl_zero PAGE_SIZE p i).1, if_pos hi]

theorem initPaging_pt0 (hi : i < PAGE_SIZE) : (initPaging addrs p).pt0 i =
    if i = VID_MEM_INDEX then VID_MEM_ENTRY
    else if VID_MEM_INDEX < i ∧ i ≤ VID_MEM_INDEX + 3 then kernelVidMemBackup (i - VID_MEM_INDEX - 1) else 0 := by
  simp only [initPaging, List.range', List.foldl_cons, List.foldl_nil, Paging.video, Function.update_apply,
    (foldl_zero PAGE_SIZE p i).2.1, if_pos hi, VID_MEM_INDEX]
  split_ifs <;> first | omega | (subst_vars; rfl)

theorem initPaging_pt1 (hi : i < PAGE_SIZE) : (initPaging addrs p).pt1 i =
    if i = 0 then USER_VID_MEM_ENTRY else if i < 3 then vidMemBackup i else 0 := by
  simp only [initPaging, List.range', List.foldl_cons, List.foldl_nil, Paging.video, Function.update_apply,
    (foldl_zero PAGE_SIZE p i).2.2, if_pos hi]
  split_ifs <;> first | omega | (subst_vars; rfl)

/-- The state in which the kernel boots has the tables as `init_paging` leaves them. -/
theorem boot_paging (hi : i < PAGE_SIZE) : (boot.paging addrs p).pdt i = (initPaging addrs p).pdt i ∧
    (boot.paging addrs p).pt0 i = (initPaging addrs p).pt0 i ∧
    (boot.paging addrs p).pt1 i = (initPaging addrs p).pt1 i := by
  refine ⟨?_, rfl, ?_⟩
  · simp only [State.paging, Function.update_apply]
    split
    · rename_i h
      rw [initPaging_pdt hi, h]
      rfl
    · rfl
  · rw [initPaging_pt1 hi]
    rfl

end

/-! ## What the kernel keeps of the tables -/

/-- The pid of a process slot. -/
def Slot (pid : Int) : Prop := 0 ≤ pid ∧ pid < MAX_PID

theorem slot_natCast {n : Nat} (h : n < MAX_PID) : Slot n := ⟨Int.natCast_nonneg n, Int.ofNat_lt.mpr h⟩

/-- The pids that the kernel can switch to are those of slots. -/
structure Slotted (s : State) : Prop where
  current : Slot s.currentPid
  terminals : ∀ t < 3, Slot (s.executePid t)
  parents : ∀ pid, Slot pid → Slot (s.pcb pid).parentId

/-- The program's page is that of the current process. -/
def Entered (s : State) : Prop := Slotted s ∧ s.programPde = programFrame s.currentPid

section

variable {img : Image} {s s' : State}

theorem Slotted.of_eq (h : Slotted s) (hc : Slot s'.currentPid) (he : s'.executePid = s.executePid)
    (hp : ∀ pid, (s'.pcb pid).parentId = (s.pcb pid).parentId) : Slotted s' where
  current := hc
  terminals := by
    rw [he]
    exact h.terminals
  parents pid hpid := by
    rw [hp]
    exact h.parents pid hpid

/-- A step that leaves what processes are switched by. -/
theorem Slotted.aside (h : Slotted s) (ha : Aside s s') : Slotted s' :=
  h.of_eq (by rw [ha.currentPid]; exact h.current) ha.executePid ha.parentId

theorem Entered.aside (h : Entered s) (ha : Aside s s') : Entered s' :=
  ⟨h.1.aside ha, by rw [ha.programPde, ha.currentPid]; exact h.2⟩

theorem slot_update {f : Nat → Int} {t : Nat} {pid : Int} (hf : ∀ t < 3, Slot (f t)) (hpid : Slot pid) :
    ∀ u < 3, Slot (Function.update f t pid u) := by
  intro u hu
  rw [Function.update_apply]
  split
  · exact hpid
  · exact hf u hu

theorem Slotted.start (h : Slotted s) {n : Nat} (hn : freePid s = some n) (k : ExecuteFrame) (page args : Nat → Byte) :
    Entered (started s k n page args) := by
  have hslot : Slot n := slot_natCast (freePid_eq_some hn).1
  refine ⟨⟨hslot, slot_update h.terminals hslot, fun pid hpid => ?_⟩, rfl⟩
  simp only [started, Function.update_apply]
  split
  · exact h.current
  · exact h.parents pid hpid

theorem Slotted.halting : Halting Slotted Entered where
  screen hf h := h.aside hf.quiet.toAside
  start k page args hn h := h.start hn k page args
  load _ _ h := ⟨h.current, h.terminals, h.parents⟩
  status p v h := by
    refine h.of_eq h.current rfl fun pid => ?_
    simp only [State.setPcb, Function.update_apply]
    split
    · rename_i e
      rw [e]
    · rfl
  close hc h := h.aside (sysClose_steady hc).toAside
  free h := ⟨h.current, h.terminals, h.parents⟩
  resume h := by
    have hp := h.parents _ h.current
    exact ⟨⟨hp, slot_update h.terminals hp, h.parents⟩, rfl⟩

theorem Slotted.ticking : Ticking Slotted Slotted Entered where
  toHalting := halting
  save esp ebp h := by
    refine h.of_eq h.current rfl fun pid => ?_
    rw [saveContext_pcb]
    split <;> rfl
  shell i hi _ h := ⟨slot_natCast (by simp only [MAX_PID]; omega), h.terminals, h.parents⟩
  back h := h
  dispatch := by
    intro s h
    obtain ⟨s', hd, he⟩ := dispatch_eq s
    rw [he]
    have hlt : s'.pitTerminalNum < 3 := by
      rw [hd.pitTerminalNum]
      exact Nat.mod_lt _ (by decide)
    refine ⟨h.of_eq ?_ hd.executePid fun pid => ?_, hd.programPde⟩
    · show Slot s'.currentPid
      rw [hd.currentPid]
      exact h.terminals _ hlt
    · show (s'.pcb pid).parentId = _
      rw [hd.pcb]

theorem Slotted.caught (h : Slotted s) (hc : Caught s s') : Slotted s' := h.aside hc.still.quiet.toAside

/-- An `execute` that returns leaves the page that is in place. -/
theorem Entered.execute {command : Option CString} {k : ExecuteFrame} {r : ExecuteResult} (h : Entered s)
    (hx : execute img s command k = .ok r) : Entered r.state := by
  rcases execute_eq_ok hx with ⟨v, s₁, rfl, hf, -⟩ | ⟨c, n, page, target, -, -, -, hn, rfl⟩
  · exact h.aside hf.quiet.toAside
  · exact h.1.start hn k page _

theorem Entered.step {e : Step} (h : Entered s) (hs : step img s e = some s') : Entered s' := by
  have hh := Slotted.halting
  cases e with
  | tick esp ebp k => exact Slotted.ticking.tick hs h.1
  | key c =>
    obtain rfl := Option.some.inj hs
    exact h.aside (keyboardHandler_still s c).quiet.toAside
  | rtc =>
    obtain rfl := Option.some.inj hs
    exact ⟨⟨h.1.current, h.1.terminals, h.1.parents⟩, h.2⟩
  | execute command k => exact hh.handled hs (fun _ hx => h.execute hx) fun _ hx => hh.execute_fault hx h.1
  | halt status k => exact hh.handled hs (fun _ hr => hh.halt256 hr h.1) fun _ hr => hh.halt256_fault hr h.1
  | exception v k =>
    exact hh.handled hs (fun _ hr => hh.exceptionHandler hr h.1) fun _ hr => hh.exceptionHandler_fault hr h.1
  | fd c k =>
    exact hh.handled hs (fun _ hc => h.aside (fdCall_steady hc).toAside) fun _ hc => h.1.caught (fdCall_eq_fault hc).1
  | getargs buf nbytes k =>
    refine hh.handled hs (fun r hr => ?_) fun _ hr => h.1.caught (getargsThrough_eq_fault hr).1
    rw [getargsThrough_eq_ok hr]
    exact h.aside (getargs_aside s _ nbytes)
  | vidmap screenStart k =>
    exact hh.handled hs (fun _ hv => h.aside (vidmap_still hv).quiet.toAside) fun _ hv => vidmap_eq_fault hv ▸ h.1

/-- What holds of the tables once the shells run. -/
structure Confined (s : State) : Prop where
  entered : Entered s
  screens : Mapped s

theorem Confined.step {e : Step} (h : Confined s) (hs : LimeOS.step img s e = some s') : Confined s' :=
  ⟨h.entered.step hs, h.screens.step hs⟩

end

/-! ## Where an access goes -/

/-- Flags below a page's address. -/
theorem or_flags {x m : Nat} (hx : x % FOUR_KB = 0) (hm : m < FOUR_KB) : x ||| m = x + m := by
  have h := Nat.two_pow_add_eq_or_of_lt (i := 12) hm (x / 2 ^ 12)
  rw [show 2 ^ 12 * (x / 2 ^ 12) = x by simp only [FOUR_KB] at hx; omega] at h
  exact h.symm

theorem programFrame_eq {pid : Int} (h₀ : 0 ≤ pid) :
    programFrame pid = KERNEL_BOT_ADDR + FOUR_MB * pid.toNat + PROGRAM_PROPERTIES := by
  obtain ⟨n, rfl⟩ := Int.eq_ofNat_of_zero_le h₀
  have hn : ((KERNEL_BOT_ADDR : Int) + FOUR_MB * (n : Int)).toNat = KERNEL_BOT_ADDR + FOUR_MB * n := by
    simp only [KERNEL_BOT_ADDR, FOUR_MB]
    omega
  rw [programFrame, hn, Int.toNat_natCast]
  apply or_flags
  · simp only [KERNEL_BOT_ADDR, FOUR_MB, FOUR_KB]
    omega
  · decide

section

variable {addrs : TableAddrs} {p : Paging} {word : Nat → Nat → Nat} {s : State} {write : Bool} {a pde : Nat}

/-- The entries of `PT0`: the video page for all, and its backups for the kernel. -/
def lowEntry (i : Nat) : Nat :=
  if i = VID_MEM_INDEX then VID_MEM_ENTRY
  else if VID_MEM_INDEX < i ∧ i ≤ VID_MEM_INDEX + 3 then kernelVidMemBackup (i - VID_MEM_INDEX - 1) else 0

/-- The entry of the directory for an address of 32 bits. -/
theorem directory_eq (s : State) (addrs : TableAddrs) (p : Paging) (word : Nat → Nat → Nat) (ha : a < 2 ^ 32) :
    ((s.paging addrs p).tables addrs word).directory (a / LARGE_PAGE) =
      if a / LARGE_PAGE = PROGRAM_PDT_INDEX then s.programPde
      else if a / LARGE_PAGE = USER_VID_INDEX then addrs.pt1 + UVM_MASK
      else if a / LARGE_PAGE = 0 then addrs.pt0 + T_ZERO_MASK
      else if a / LARGE_PAGE = 1 then KERNEL_ENTRY else 0 := by
  have hi : a / LARGE_PAGE < PAGE_SIZE := by
    simp only [LARGE_PAGE, PAGE_SIZE]
    omega
  have h₀ : addrs.pt0 ||| T_ZERO_MASK = addrs.pt0 + T_ZERO_MASK := or_flags addrs.aligned.1 (by decide)
  have h₁ : addrs.pt1 ||| UVM_MASK = addrs.pt1 + UVM_MASK := or_flags addrs.aligned.2 (by decide)
  simp only [Paging.tables, State.paging, Function.update_apply, initPaging_pdt hi, h₀, h₁]

/-- The program's page is in the frame of the current process. -/
theorem Confined.walk_program (h : Confined s) (user : Bool) (hi : a / LARGE_PAGE = PROGRAM_PDT_INDEX) :
    ((s.paging addrs p).tables addrs word).walk user write a =
      some (KERNEL_BOT_ADDR + FOUR_MB * s.currentPid.toNat + a % LARGE_PAGE) := by
  have hd := directory_eq s addrs p word (a := a) (by simp only [LARGE_PAGE, PROGRAM_PDT_INDEX] at hi; omega)
  rw [if_pos hi, h.entered.2, programFrame_eq h.entered.1.current.1] at hd
  simp only [KERNEL_BOT_ADDR, FOUR_MB, PROGRAM_PROPERTIES] at hd ⊢
  rw [PageTables.walk_large hd]
  · simp only [Entry.base, LARGE_PAGE, Option.some.injEq]
    omega
  · apply Entry.grants_of
    omega
  · simp only [Entry.Large]
    omega

theorem Confined.access_program (h : Confined s) (h₀ : VIRTUAL_BLOCK_TOP ≤ a) (h₁ : a < VIRTUAL_BLOCK_BOTTOM) :
    userAccess addrs p word s write a =
      some (KERNEL_BOT_ADDR + FOUR_MB * s.currentPid.toNat + (a - VIRTUAL_BLOCK_TOP)) := by
  simp only [VIRTUAL_BLOCK_TOP, VIRTUAL_BLOCK_BOTTOM] at h₀ h₁
  have hi : a / LARGE_PAGE = PROGRAM_PDT_INDEX := by
    simp only [LARGE_PAGE, PROGRAM_PDT_INDEX]
    omega
  rw [userAccess, h.walk_program true hi]
  simp only [VIRTUAL_BLOCK_TOP, LARGE_PAGE, Option.some.injEq]
  omega

/-- An access below 4 MB goes through the entry of `PT0`. -/
theorem walk_low (user : Bool) (hi : a / LARGE_PAGE = 0) :
    ((s.paging addrs p).tables addrs word).walk user write a =
      if Entry.Grants (lowEntry (a / SMALL_PAGE % 1024)) user write then
        some (Entry.base (lowEntry (a / SMALL_PAGE % 1024)) SMALL_PAGE + a % SMALL_PAGE) else none := by
  have hd := directory_eq s addrs p word (a := a) (by simp only [LARGE_PAGE] at hi; omega)
  rw [if_neg (by rw [hi]; decide), if_neg (by rw [hi]; decide), if_pos hi] at hd
  have haligned := addrs.aligned.1
  simp only [FOUR_KB] at haligned
  have hbase : Entry.base (addrs.pt0 + T_ZERO_MASK) SMALL_PAGE = addrs.pt0 := by
    simp only [Entry.base, SMALL_PAGE, T_ZERO_MASK]
    omega
  have hj : a / SMALL_PAGE % 1024 < PAGE_SIZE := Nat.mod_lt _ (by decide)
  have hw : ((s.paging addrs p).tables addrs word).word (Entry.base (addrs.pt0 + T_ZERO_MASK) SMALL_PAGE)
      (a / SMALL_PAGE % 1024) = (initPaging addrs p).pt0 (a / SMALL_PAGE % 1024) := by
    rw [hbase]
    simp only [Paging.tables, if_true]
    rfl
  rw [initPaging_pt0 hj] at hw
  have hg : Entry.Grants (addrs.pt0 + T_ZERO_MASK) user write := by
    apply Entry.grants_of
    simp only [T_ZERO_MASK]
    omega
  have hl : ¬ Entry.Large (addrs.pt0 + T_ZERO_MASK) := by
    simp only [Entry.Large, T_ZERO_MASK]
    omega
  exact PageTables.walk_small hd hg hl hw

/-- An access below 4 MB is granted in the video page alone. -/
theorem access_low (ha : a < FOUR_MB) : userAccess addrs p word s write a =
    if VIDEO_MEMORY ≤ a ∧ a < VIDEO_MEMORY + FOUR_KB then some a else none := by
  simp only [FOUR_MB] at ha
  have hi : a / LARGE_PAGE = 0 := by
    simp only [LARGE_PAGE]
    omega
  rw [userAccess, walk_low true hi, lowEntry]
  by_cases hv : a / SMALL_PAGE % 1024 = VID_MEM_INDEX
  · rw [if_pos hv, if_pos (Entry.grants_of (by decide) true write)]
    simp only [SMALL_PAGE, VID_MEM_INDEX] at hv
    rw [if_pos (by simp only [VIDEO_MEMORY, FOUR_KB]; omega)]
    simp only [Entry.base, SMALL_PAGE, VID_MEM_ENTRY, Option.some.injEq]
    omega
  · rw [if_neg hv]
    -- the backups are the kernel's alone
    have hn : ¬ Entry.Grants (if VID_MEM_INDEX < a / SMALL_PAGE % 1024 ∧ a / SMALL_PAGE % 1024 ≤ VID_MEM_INDEX + 3 then
        kernelVidMemBackup (a / SMALL_PAGE % 1024 - VID_MEM_INDEX - 1) else 0) true write := by
      apply Entry.not_grants_of_not_user
      split
      · unfold kernelVidMemBackup
        split <;> decide
      · decide
    rw [if_neg hn, if_neg]
    simp only [SMALL_PAGE, VID_MEM_INDEX] at hv
    simp only [VIDEO_MEMORY, FOUR_KB]
    omega

/-- An access to the pages of `PT1` goes through its entry. -/
theorem walk_video (user : Bool) (hi : a / LARGE_PAGE = USER_VID_INDEX) :
    ((s.paging addrs p).tables addrs word).walk user write a =
      if Entry.Grants (s.pt1 (a / SMALL_PAGE % 1024)) user write then
        some (Entry.base (s.pt1 (a / SMALL_PAGE % 1024)) SMALL_PAGE + a % SMALL_PAGE) else none := by
  have hd := directory_eq s addrs p word (a := a) (by simp only [LARGE_PAGE, USER_VID_INDEX] at hi; omega)
  rw [if_neg (by rw [hi]; decide), if_pos hi] at hd
  have haligned := addrs.aligned.2
  simp only [FOUR_KB] at haligned
  have hbase : Entry.base (addrs.pt1 + UVM_MASK) SMALL_PAGE = addrs.pt1 := by
    simp only [Entry.base, SMALL_PAGE, UVM_MASK]
    omega
  have hw : ((s.paging addrs p).tables addrs word).word (Entry.base (addrs.pt1 + UVM_MASK) SMALL_PAGE)
      (a / SMALL_PAGE % 1024) = s.pt1 (a / SMALL_PAGE % 1024) := by
    rw [hbase]
    simp only [Paging.tables, if_neg addrs.apart.symm, if_true]
    rfl
  have hg : Entry.Grants (addrs.pt1 + UVM_MASK) user write := by
    apply Entry.grants_of
    simp only [UVM_MASK]
    omega
  have hl : ¬ Entry.Large (addrs.pt1 + UVM_MASK) := by
    simp only [Entry.Large, UVM_MASK]
    omega
  exact PageTables.walk_small hd hg hl hw

/-- An access to the pages of `PT1` is granted by the entries of the three screens. -/
theorem Confined.access_video (h : Confined s) (hi : a / LARGE_PAGE = USER_VID_INDEX) :
    userAccess addrs p word s write a =
      if a / SMALL_PAGE % 1024 < 3 then some (s.videoMem (a / SMALL_PAGE % 1024) + a % SMALL_PAGE) else none := by
  rw [userAccess, walk_video true hi]
  generalize a / SMALL_PAGE % 1024 = t
  by_cases ht : t < 3
  · rw [if_pos ht]
    rcases h.screens.page t ht with ⟨hv, hp⟩ | ⟨hv, hp⟩
    · rw [hv, hp, if_pos (Entry.grants_of (by decide) true write)]
      rfl
    · rw [hv, hp, vidMemBackup_eq ht, backupMemAddr_eq ht, if_pos (Entry.grants_of (by omega) true write)]
      simp only [Entry.base, SMALL_PAGE, Option.some.injEq]
      omega
  · rw [if_neg ht, h.screens.empty t (by omega), if_neg (Entry.not_grants_of_not_user (by decide) write)]

/-- So what `vidmap` gives out is translated as `userTranslate` has it. -/
theorem Confined.access_eq_userTranslate (h : Confined s) (hi : a / LARGE_PAGE = USER_VID_INDEX) :
    userAccess addrs p word s write a = userTranslate s a := by
  rw [h.access_video hi]
  have hj : a / SMALL_PAGE % 1024 = a / FOUR_KB % 1024 := rfl
  split
  · rename_i ht
    have he : a = userVidMemAddr (a / SMALL_PAGE % 1024) + a % SMALL_PAGE := by
      rw [userVidMemAddr_eq ht]
      simp only [LARGE_PAGE, SMALL_PAGE, USER_VID_INDEX] at hi ⊢
      omega
    conv_rhs => rw [he]
    exact (h.screens.userTranslate ht (Nat.mod_lt _ (by decide))).symm
  · rename_i ht
    have hz : s.pt1 (a / FOUR_KB % 1024) = 0 := h.screens.empty _ (by rw [← hj]; omega)
    rw [userTranslate]
    simp only [hz]
    rw [if_neg]
    rintro ⟨-, h₀⟩
    exact absurd h₀ (by decide)

/-- The rest of the directory grants a program nothing. -/
theorem access_none (ha : a < 2 ^ 32) (h₀ : a / LARGE_PAGE ≠ 0) (hv : a / LARGE_PAGE ≠ USER_VID_INDEX)
    (hp : a / LARGE_PAGE ≠ PROGRAM_PDT_INDEX) : userAccess addrs p word s write a = none := by
  have hd := directory_eq s addrs p word ha
  rw [if_neg hp, if_neg hv, if_neg h₀] at hd
  rw [userAccess, PageTables.walk_absent]
  rw [hd]
  apply Entry.not_grants_of_not_user
  split <;> decide

/-- What a program can reach, and where. -/
theorem Confined.access_iff (h : Confined s) (ha : a < 2 ^ 32) {pa : Nat} :
    userAccess addrs p word s write a = some pa ↔
      (VIRTUAL_BLOCK_TOP ≤ a ∧ a < VIRTUAL_BLOCK_BOTTOM ∧
        pa = KERNEL_BOT_ADDR + FOUR_MB * s.currentPid.toNat + (a - VIRTUAL_BLOCK_TOP)) ∨
      (VIDEO_MEMORY ≤ a ∧ a < VIDEO_MEMORY + FOUR_KB ∧ pa = a) ∨
      ∃ t < 3, ∃ off < FOUR_KB, a = userVidMemAddr t + off ∧ pa = s.videoMem t + off := by
  have hprogram : a / LARGE_PAGE = PROGRAM_PDT_INDEX ↔ VIRTUAL_BLOCK_TOP ≤ a ∧ a < VIRTUAL_BLOCK_BOTTOM := by
    simp only [LARGE_PAGE, PROGRAM_PDT_INDEX, VIRTUAL_BLOCK_TOP, VIRTUAL_BLOCK_BOTTOM]
    omega
  have hlow : a / LARGE_PAGE = 0 ↔ a < FOUR_MB := by
    simp only [LARGE_PAGE, FOUR_MB]
    omega
  have hscreen : ∀ t < 3, ∀ off < FOUR_KB, a = userVidMemAddr t + off →
      a / LARGE_PAGE = USER_VID_INDEX ∧ a / SMALL_PAGE % 1024 = t ∧ a % SMALL_PAGE = off := by
    intro t ht off hoff e
    rw [userVidMemAddr_eq ht] at e
    simp only [FOUR_KB] at hoff
    simp only [LARGE_PAGE, SMALL_PAGE, USER_VID_INDEX]
    omega
  have hvideo : VIDEO_MEMORY ≤ a ∧ a < VIDEO_MEMORY + FOUR_KB → a < FOUR_MB := by
    simp only [VIDEO_MEMORY, FOUR_KB, FOUR_MB]
    omega
  have hapart : ¬ VIRTUAL_BLOCK_TOP < FOUR_MB := by decide
  by_cases hp : a / LARGE_PAGE = PROGRAM_PDT_INDEX
  · obtain ⟨h₀, h₁⟩ := hprogram.mp hp
    rw [h.access_program h₀ h₁, Option.some.injEq]
    constructor
    · rintro rfl
      exact .inl ⟨h₀, h₁, rfl⟩
    · rintro (⟨-, -, e⟩ | ⟨hv₀, hv₁, -⟩ | ⟨t, ht, off, hoff, e, -⟩)
      · exact e.symm
      · exact absurd (hvideo ⟨hv₀, hv₁⟩) (by omega)
      · exact absurd ((hscreen t ht off hoff e).1.symm.trans hp) (by decide)
  · by_cases h₀ : a / LARGE_PAGE = 0
    · rw [access_low (hlow.mp h₀)]
      constructor
      · intro e
        split at e
        · rename_i hv
          exact .inr (.inl ⟨hv.1, hv.2, (Option.some.inj e).symm⟩)
        · cases e
      · rintro (⟨ht, hb, -⟩ | ⟨hv₀, hv₁, rfl⟩ | ⟨t, ht, off, hoff, e, -⟩)
        · exact absurd (hprogram.mpr ⟨ht, hb⟩) hp
        · rw [if_pos ⟨hv₀, hv₁⟩]
        · exact absurd ((hscreen t ht off hoff e).1.symm.trans h₀) (by decide)
    · by_cases hv : a / LARGE_PAGE = USER_VID_INDEX
      · rw [h.access_video hv]
        constructor
        · intro e
          split at e
          · rename_i ht
            refine .inr (.inr ⟨_, ht, _, Nat.mod_lt _ (by decide), ?_, (Option.some.inj e).symm⟩)
            rw [userVidMemAddr_eq ht]
            simp only [LARGE_PAGE, SMALL_PAGE, FOUR_KB, USER_VID_INDEX] at hv ⊢
            omega
          · cases e
        · rintro (⟨ht, hb, -⟩ | ⟨hv₀, hv₁, -⟩ | ⟨t, ht, off, hoff, e, rfl⟩)
          · exact absurd (hprogram.mpr ⟨ht, hb⟩) hp
          · exact absurd (hlow.mpr (hvideo ⟨hv₀, hv₁⟩)) h₀
          · obtain ⟨-, e₁, e₂⟩ := hscreen t ht off hoff e
            rw [e₁, e₂, if_pos ht]
      · rw [access_none ha h₀ hv hp]
        constructor
        · intro e
          cases e
        · rintro (⟨ht, hb, -⟩ | ⟨hv₀, hv₁, -⟩ | ⟨t, ht, off, hoff, e, -⟩)
          · exact absurd (hprogram.mpr ⟨ht, hb⟩) hp
          · exact absurd (hlow.mpr (hvideo ⟨hv₀, hv₁⟩)) h₀
          · exact absurd (hscreen t ht off hoff e).1 hv

theorem lowEntry_present_iff {i : Nat} : Entry.Present (lowEntry i) ↔ VID_MEM_INDEX ≤ i ∧ i ≤ VID_MEM_INDEX + 3 := by
  unfold lowEntry
  split
  · rename_i e
    exact iff_of_true (by decide) (by omega)
  · split
    · rename_i hi
      refine iff_of_true ?_ (by omega)
      unfold kernelVidMemBackup
      split <;> decide
    · exact iff_of_false (by decide) (by omega)

/-- The entries of `PT1` are those of the screens. -/
theorem Mapped.present_iff (h : Mapped s) {t : Nat} : Entry.Present (s.pt1 t) ↔ t < 3 := by
  by_cases ht : t < 3
  · refine iff_of_true ?_ ht
    rcases h.page t ht with ⟨-, e⟩ | ⟨-, e⟩
    · rw [e]
      decide
    · rw [e, vidMemBackup_eq ht, Entry.Present]
      omega
  · rw [h.empty t (by omega)]
    exact iff_of_false (by decide) ht

/-- An access of the kernel faults exactly where nothing is: the buffers of its callers are where they are said to be. -/
theorem Confined.kernelAccess_isSome_iff (h : Confined s) (ha : a < 2 ^ 32) :
    (kernelAccess addrs p word s write a).isSome ↔ region a ≠ .absent := by
  have hd := directory_eq s addrs p word ha
  have hregion : region a ≠ .absent ↔ FOUR_MB ≤ a ∧ a < KERNEL_BOT_ADDR ∨
      VIRTUAL_BLOCK_TOP ≤ a ∧ a < VIRTUAL_BLOCK_BOTTOM ∨ VIDEO_MEMORY ≤ a ∧ a < VIDEO_MEMORY + 4 * FOUR_KB ∨
      userVidMemAddr 0 ≤ a ∧ a < userVidMemAddr 2 + FOUR_KB := by
    unfold region
    split
    · rename_i hk
      exact iff_of_true (by simp) (.inl hk)
    · rename_i hk
      split
      · rename_i hp
        exact iff_of_true (by simp) (.inr hp)
      · rename_i hp
        exact iff_of_false (by simp) (by rintro (h | h); exacts [hk h, hp h])
  rw [hregion, userVidMemAddr_eq (by decide), userVidMemAddr_eq (by decide)]
  simp only [FOUR_MB, KERNEL_BOT_ADDR, VIRTUAL_BLOCK_TOP, VIRTUAL_BLOCK_BOTTOM, VIDEO_MEMORY, FOUR_KB]
  have hsome : ∀ {c : Prop} [Decidable c] {x : Nat}, (if c then some x else none).isSome ↔ c := by
    intro c _ x
    by_cases hc : c <;> simp [hc]
  rw [kernelAccess]
  by_cases hp : a / LARGE_PAGE = PROGRAM_PDT_INDEX
  · rw [h.walk_program false hp]
    simp only [LARGE_PAGE, PROGRAM_PDT_INDEX] at hp
    exact iff_of_true rfl (by omega)
  by_cases hv : a / LARGE_PAGE = USER_VID_INDEX
  · rw [walk_video false hv, hsome, Entry.grants_supervisor, h.screens.present_iff]
    simp only [LARGE_PAGE, SMALL_PAGE, USER_VID_INDEX] at hv ⊢
    omega
  by_cases h₀ : a / LARGE_PAGE = 0
  · rw [walk_low false h₀, hsome, Entry.grants_supervisor, lowEntry_present_iff]
    simp only [LARGE_PAGE, SMALL_PAGE, VID_MEM_INDEX] at h₀ ⊢
    omega
  rw [if_neg hp, if_neg hv, if_neg h₀] at hd
  by_cases h₁ : a / LARGE_PAGE = 1
  · -- the kernel's own page
    rw [if_pos h₁] at hd
    rw [PageTables.walk_large hd (Entry.grants_supervisor.mpr (by decide)) (by decide)]
    simp only [LARGE_PAGE] at h₁
    exact iff_of_true rfl (by omega)
  · rw [if_neg h₁] at hd
    rw [PageTables.walk_absent (by rw [hd, Entry.grants_supervisor]; decide)]
    simp only [LARGE_PAGE, PROGRAM_PDT_INDEX, USER_VID_INDEX] at hp hv h₀ h₁
    exact iff_of_false (by simp) (by omega)

end

/-! ## The stores of a program -/

section

variable {img : Image} {addrs : TableAddrs} {p : Paging} {word : Nat → Nat → Nat} {s s' : State}

/-- The place of an address in a pid's frame. -/
theorem place_program {pa pid v : Nat} (h : place pa = some (.program pid v)) :
    KERNEL_BOT_ADDR ≤ pa ∧ pid = (pa - KERNEL_BOT_ADDR) / FOUR_MB ∧
      v = VIRTUAL_BLOCK_TOP + (pa - KERNEL_BOT_ADDR) % FOUR_MB := by
  unfold place at h
  split at h
  · cases h
  · split at h
    · rename_i hk
      obtain ⟨rfl, rfl⟩ := Place.program.inj (Option.some.inj h)
      exact ⟨hk.1, rfl, rfl⟩
    · cases h

/-- The screens are below the programs. -/
theorem Mapped.videoMem_lt (h : Mapped s) {t : Nat} (ht : t < 3) : s.videoMem t + FOUR_KB ≤ KERNEL_BOT_ADDR := by
  rcases h.page t ht with ⟨e, -⟩ | ⟨e, -⟩
  · rw [e]
    decide
  · rw [e, backupMemAddr_eq ht]
    simp only [FOUR_KB, KERNEL_BOT_ADDR]
    omega

/-- A store of a program is to its own frame, or to a screen. -/
theorem Confined.userStore_eq (h : Confined s) {a : BitVec 32} {b : Byte}
    (hs : userStore addrs p word s a.toNat b = some s') :
    (∃ v, s' = { s with mem := s.mem.store v b }) ∨ s' = { s with
      frame := Function.update s.frame s.currentPid (Function.update (s.frame s.currentPid) a.toNat b) } := by
  obtain ⟨pl, hp, rfl⟩ := Option.map_eq_some_iff.mp hs
  obtain ⟨pa, hpa, hp⟩ := Option.bind_eq_some_iff.mp hp
  cases pl with
  | video v => exact .inl ⟨v, rfl⟩
  | program pid v =>
    obtain ⟨hk, hpid, hv⟩ := place_program hp
    right
    rcases (h.access_iff a.isLt).mp hpa with ⟨h₀, h₁, e⟩ | ⟨-, hlow, e⟩ | ⟨t, ht, off, hoff, -, e⟩
    · have hcur : ((s.currentPid.toNat : Nat) : Int) = s.currentPid := Int.toNat_of_nonneg h.entered.1.current.1
      simp only [KERNEL_BOT_ADDR, FOUR_MB, VIRTUAL_BLOCK_TOP, VIRTUAL_BLOCK_BOTTOM] at h₀ h₁ hpid hv e
      have e₁ : pid = s.currentPid.toNat := by omega
      have e₂ : v = a.toNat := by omega
      rw [e₁, e₂, State.setPlace, hcur]
    · exfalso
      simp only [VIDEO_MEMORY, FOUR_KB, KERNEL_BOT_ADDR] at hlow hk
      omega
    · have := h.screens.videoMem_lt ht
      omega

theorem Confined.machineStep {e : MachineStep} (h : Confined s) (hs : machineStep img addrs p word s e = some s') :
    Confined s' := by
  cases e with
  | kernel e => exact h.step hs
  | store a b =>
    obtain ⟨pl, -, rfl⟩ := Option.map_eq_some_iff.mp hs
    obtain ⟨⟨⟨h₁, h₂, h₃⟩, h₄⟩, ⟨h₅, h₆, h₇, h₈⟩⟩ := h
    cases pl with
    | video v => exact ⟨⟨⟨h₁, h₂, h₃⟩, h₄⟩, ⟨h₅, h₆, h₇, h₈⟩⟩
    | program pid v => exact ⟨⟨⟨h₁, h₂, h₃⟩, h₄⟩, ⟨h₅, h₆, h₇, h₈⟩⟩

/-! ## From boot -/

/-- A tick that starts a shell leaves a slot as the parent of every slot. -/
theorem parents_tick (hs : HasShell img) {i : Nat} (hi : i < 3) (hf : freePid s = some i) {b : Nat × Nat × ExecuteFrame}
    (hstep : step img s (tickOf b) = some s') (h : ∀ pid, Slot pid → Slot (s.pcb pid).parentId) :
    (∀ pid, Slot pid → Slot (s'.pcb pid).parentId) ∧ s'.programPde = programFrame s'.currentPid := by
  obtain ⟨page, args, target, ht⟩ := taskSwitch_starts hs hi hf b.1 b.2.1 b.2.2
  rw [tickOf, step, ht] at hstep
  obtain rfl := Option.some.inj hstep
  refine ⟨fun pid hpid => ?_, rfl⟩
  simp only [TickResult.state, started, Function.update_apply]
  split
  · exact slot_natCast (by simp only [MAX_PID]; omega)
  · show Slot ((saveContext s b.1 b.2.1).pcb pid).parentId
    have e : ((saveContext s b.1 b.2.1).pcb pid).parentId = (s.pcb pid).parentId := by
      rw [saveContext_pcb]
      split <;> rfl
    rw [e]
    exact h pid hpid

/-- After the ticks that start the three shells. -/
theorem Confined.of_ticks (hs : HasShell img) {b₁ b₂ b₃ : Nat × Nat × ExecuteFrame} {s₁ s₂ s₃ : State}
    (h₁ : LimeOS.step img boot (tickOf b₁) = some s₁) (h₂ : LimeOS.step img s₁ (tickOf b₂) = some s₂)
    (h₃ : LimeOS.step img s₂ (tickOf b₃) = some s₃) : Confined s₃ := by
  have i₁ := booting_boot.tick hs (by decide) h₁
  have i₂ := i₁.tick hs (by decide) h₂
  have i₃ := i₂.tick hs (by decide) h₃
  have hboot : ∀ pid, Slot pid → Slot (boot.pcb pid).parentId := fun _ _ => slot_natCast (by decide)
  have p₁ := (parents_tick hs (by decide) (booting_boot.freePid_eq (by decide)) h₁ hboot).1
  have p₂ := (parents_tick hs (by decide) (i₁.freePid_eq (by decide)) h₂ p₁).1
  obtain ⟨p₃, hpde⟩ := parents_tick hs (by decide) (i₂.freePid_eq (by decide)) h₃ p₂
  refine ⟨⟨⟨?_, fun t ht => ?_, p₃⟩, hpde⟩, ((Mapped.boot.step h₁).step h₂).step h₃⟩
  · rw [(i₃.current 2 rfl).1]
    exact slot_natCast (by decide)
  · have he : s₃.executePid t = (t : Nat) := i₃.executePid t ht
    rw [he]
    exact slot_natCast (by simp only [MAX_PID]; omega)

theorem Confined.reached (hs : HasShell img) {b₁ b₂ b₃ : Nat × Nat × ExecuteFrame} {es : List MachineStep}
    (hr : run (LimeOS.machineStep img addrs p word) boot
      (.kernel (tickOf b₁) :: .kernel (tickOf b₂) :: .kernel (tickOf b₃) :: es) = some s) : Confined s := by
  obtain ⟨s₁, h₁, hr⟩ := run_cons_eq_some hr
  obtain ⟨s₂, h₂, hr⟩ := run_cons_eq_some hr
  obtain ⟨s₃, h₃, hr⟩ := run_cons_eq_some hr
  exact run_inv (fun _ _ _ h hs => h.machineStep hs) (Confined.of_ticks hs h₁ h₂ h₃) hr

/-- **What a program can reach**, once the shells run and whatever the machine does after: the 4 MB of its own
frame, the video page at its physical address, and the page of each terminal's screen. -/
theorem user_access_iff (hs : HasShell img) {b₁ b₂ b₃ : Nat × Nat × ExecuteFrame} {es : List MachineStep}
    (hr : run (machineStep img addrs p word) boot
      (.kernel (tickOf b₁) :: .kernel (tickOf b₂) :: .kernel (tickOf b₃) :: es) = some s)
    (write : Bool) (a : BitVec 32) (pa : Nat) :
    userAccess addrs p word s write a.toNat = some pa ↔
      (VIRTUAL_BLOCK_TOP ≤ a.toNat ∧ a.toNat < VIRTUAL_BLOCK_BOTTOM ∧
        pa = KERNEL_BOT_ADDR + FOUR_MB * s.currentPid.toNat + (a.toNat - VIRTUAL_BLOCK_TOP)) ∨
      (VIDEO_MEMORY ≤ a.toNat ∧ a.toNat < VIDEO_MEMORY + FOUR_KB ∧ pa = a.toNat) ∨
      ∃ t < 3, ∃ off < FOUR_KB, a.toNat = userVidMemAddr t + off ∧ pa = s.videoMem t + off :=
  (Confined.reached hs hr).access_iff a.isLt

/-! ## Isolation -/

/-- The step is an interrupt, or one of a process other than `q`. -/
def Elsewhere (q : Int) (s : State) : MachineStep → Prop
  | .kernel e => e.Other q s
  | .store _ _ => s.currentPid ≠ q

theorem Waits.machineStep {q : Int} {s₀ : State} {e : MachineStep} (h : Waits q s₀ s) (hc : Confined s)
    (he : Elsewhere q s e) (hs : machineStep img addrs p word s e = some s') : Waits q s₀ s' := by
  cases e with
  | kernel e => exact h.step he hs
  | store a b =>
    rcases hc.userStore_eq hs with ⟨v, rfl⟩ | rfl
    · exact h.of_eq rfl rfl rfl
    · exact h.of_eq rfl (Function.update_of_ne (Ne.symm he) _ _) rfl

/-- **Isolation**: from every state reached once the shells run, along every run of the machine in which a live
process does not run, its memory, its descriptors, its arguments and its terminal stay as they are. -/
theorem memory_isolated (hs : HasShell img) {b₁ b₂ b₃ : Nat × Nat × ExecuteFrame} {es es' : List MachineStep} {q : Int}
    (hr : run (machineStep img addrs p word) boot
      (.kernel (tickOf b₁) :: .kernel (tickOf b₂) :: .kernel (tickOf b₃) :: es) = some s)
    (hq : s.pidFlags q = .IN_USE) (hg : Guarded (machineStep img addrs p word) (Elsewhere q) s es')
    (hr' : run (machineStep img addrs p word) s es' = some s') : Waits q s s' := by
  have h := Guarded.always (I := fun s' => Waits q s s' ∧ Confined s') (P := Waits q s) (fun _ h => h.1)
    (fun _ _ _ h he hs => ⟨h.1.machineStep h.2 he hs, h.2.machineStep hs⟩) ⟨.refl hq, Confined.reached hs hr⟩ hg
  exact h.last hr'

end

/-! ## The three shells -/

/-- Tables at the start of the kernel's second and third pages. -/
def firstAddrs : TableAddrs := ⟨0x401000, 0x402000, by decide, by decide, by decide⟩

def noPaging : Paging := ⟨fun _ => 0, fun _ => 0, fun _ => 0⟩

/-- The machine after the ticks that start the shells. -/
def shellsRun : List MachineStep := List.replicate 3 (.kernel (tickOf (0, 0, emptyFrame)))

theorem shellsRun_eq : ∃ s, run (machineStep shellImage firstAddrs noPaging fun _ _ => 0) boot shellsRun = some s ∧
    s.currentPid = 2 ∧ s.pidFlags 0 = .IN_USE := by
  obtain ⟨s, hs⟩ := Option.isSome_iff_exists.mp (show
    (run (machineStep shellImage firstAddrs noPaging fun _ _ => 0) boot shellsRun).isSome by decide +kernel)
  have hd : (run (machineStep shellImage firstAddrs noPaging fun _ _ => 0) boot shellsRun).map
      (fun s => (s.currentPid, s.pidFlags 0)) = some (2, .IN_USE) := by decide +kernel
  rw [hs] at hd
  obtain ⟨h₁, h₂⟩ := Prod.mk.inj (Option.some.inj hd)
  exact ⟨s, hs, h₁, h₂⟩

/-- The third shell reaches the start of its program in its own frame. -/
theorem user_access_shell : ∃ s, run (machineStep shellImage firstAddrs noPaging fun _ _ => 0) boot shellsRun = some s ∧
    userAccess firstAddrs noPaging (fun _ _ => 0) s true 0x08048000 = some 0x1048000 := by
  obtain ⟨s, hs, hc, -⟩ := shellsRun_eq
  refine ⟨s, hs, (user_access_iff shellImage_hasShell hs true 0x08048000#32 _).mpr (.inl ?_)⟩
  rw [hc]
  decide

/-- The third shell stores a byte, and a tick runs the second one: the first has what it had. -/
theorem memory_isolated_shell : ∃ s s', run (machineStep shellImage firstAddrs noPaging fun _ _ => 0) boot shellsRun = some s ∧
    run (machineStep shellImage firstAddrs noPaging fun _ _ => 0) s
      [.store 0x08048000 0x5, .kernel (tickOf (0, 0, emptyFrame))] = some s' ∧ Waits 0 s s' := by
  obtain ⟨s, hs, hc, hf⟩ := shellsRun_eq
  have hsome : ((run (machineStep shellImage firstAddrs noPaging fun _ _ => 0) boot shellsRun).bind fun s =>
      run (machineStep shellImage firstAddrs noPaging fun _ _ => 0) s
        [.store 0x08048000 0x5, .kernel (tickOf (0, 0, emptyFrame))]).isSome := by decide +kernel
  rw [hs] at hsome
  obtain ⟨s', hs'⟩ := Option.isSome_iff_exists.mp hsome
  refine ⟨s, s', hs, hs', memory_isolated shellImage_hasShell hs hf ?_ hs'⟩
  intro s₁ _
  refine ⟨?_, fun s₂ _ => ⟨.inl trivial, trivial⟩⟩
  show s.currentPid ≠ 0
  rw [hc]
  decide

end LimeOS
