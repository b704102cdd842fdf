import LimeOS.Proof.Display
import LimeOS.Proof.Processes

/-!
# `vidmap` and the terminal of its caller

Whatever the kernel does, the page table of the user programs maps every
terminal's screen to the page that the kernel writes it to (`Mapped`). `vidmap`
gives its caller the address of the screen that is displayed, so what is stored
there stays on the caller's terminal, and on no other one, through all later
switches exactly when that was the terminal displayed and the only one on the
video page (`vidmap_iff`).
-/

namespace LimeOS

/-! ## Where the screens are -/

/-- Where the kernel and the user programs find the screens. -/
def State.maps (s : State) := (s.videoMem, s.pt1)

theorem ScreenFrame.maps {s s' : State} (h : ScreenFrame s s') : s'.maps = s.maps := by
  rw [h]
  rfl

theorem State.display_inj {s s' : State} (h : s'.display = s.display) :
    s'.terminalNum = s.terminalNum ∧ s'.maps = s.maps := by
  simp only [State.display, Prod.mk.injEq] at h
  exact ⟨h.1, by rw [State.maps, State.maps, h.2.1, h.2.2]⟩

theorem CallFrame.maps {s s' : State} (h : CallFrame s s') : s'.maps = s.maps := by
  rw [h]
  rfl

theorem Caught.maps {s s₁ : State} (h : Caught s s₁) : s₁.maps = s.maps := by
  have hm := h.frame.maps
  exact hm

/-- `vidmap` fails, or stores the address of the displayed screen in the caller's page. -/
theorem vidmap_eq_ok {s : State} {screenStart : Nat} {r : Int × State} (h : vidmap s screenStart = .ok r) :
    r = (-1, s) ∨ r = (0, { s with
      frame := Function.update s.frame s.currentPid fun a =>
        if screenStart ≤ a ∧ a < screenStart + 4 then
          BitVec.ofNat 8 (userVidMemAddr s.terminalNum / 2 ^ (8 * (a - screenStart)))
        else s.frame s.currentPid a }) := by
  unfold vidmap at h
  split at h
  · cases h
    exact .inl rfl
  · split at h
    · cases h
    · cases h
      exact .inr rfl

theorem vidmap_maps {s : State} {screenStart : Nat} {r : Int × State} (h : vidmap s screenStart = .ok r) :
    r.2.maps = s.maps := by
  rcases vidmap_eq_ok h with rfl | rfl
  · rfl
  · rfl

theorem dispatch_maps (s : State) : (dispatch s).state.maps = s.maps := by
  simp only [dispatch, TickResult.state, (updateCursor_frame _ _ _).maps]
  cases s.terminalsInitialized <;> rfl

/-- The displayed terminal and those of the processes are among the three, and every screen is in the
video page or in its backup, where the user's page table, which has no more, maps it. -/
structure Mapped (s : State) : Prop where
  lt : s.terminalNum < 3
  tty : ∀ p, (s.pcb p).tty < 3
  page : ∀ t < 3, s.videoMem t = VIDEO_MEMORY ∧ s.pt1 t = USER_VID_MEM_ENTRY ∨
    s.videoMem t = backupMemAddr t ∧ s.pt1 t = vidMemBackup t
  empty : ∀ t, 3 ≤ t → s.pt1 t = 0

namespace Mapped

variable {img : Image} {s s' : State}

theorem congr (h : Mapped s) (hlt : s'.terminalNum < 3) (htty : ∀ p, (s'.pcb p).tty < 3) (hm : s'.maps = s.maps) :
    Mapped s' := by
  simp only [State.maps, Prod.mk.injEq] at hm
  refine ⟨hlt, htty, ?_, ?_⟩
  · rw [hm.1, hm.2]
    exact h.page
  · rw [hm.2]
    exact h.empty

/-- A step that leaves the processes' terminals and the display. -/
theorem aside (h : Mapped s) (ha : Aside s s') (ht : s'.terminalNum = s.terminalNum) (hm : s'.maps = s.maps) :
    Mapped s' :=
  h.congr (by rw [ht]; exact h.lt) (fun p => by rw [ha.tty]; exact h.tty p) hm

theorem terminalSwitch (h : Mapped s) {n : Nat} (hn : n < 3) : Mapped (terminalSwitch s n) := by
  have hlt := h.lt
  refine ⟨by simpa using hn, fun p => by rw [terminalSwitch_pcb]; exact h.tty p, fun t ht => ?_, fun t ht => ?_⟩
  · simp only [terminalSwitch_videoMem, terminalSwitch_pt1, Function.update_apply]
    split_ifs with h₁ h₂
    · exact .inl ⟨rfl, rfl⟩
    · rw [h₂]
      exact .inr ⟨rfl, rfl⟩
    · exact h.page t ht
  · rw [terminalSwitch_pt1, Function.update_of_ne (by omega), Function.update_of_ne (by omega)]
    exact h.empty t ht

theorem switches : ∀ (ttys : List Nat) {s : State}, Mapped s → (∀ u ∈ ttys, u < 3) →
    Mapped (ttys.foldl LimeOS.terminalSwitch s)
  | [], _, h, _ => h
  | u :: ttys, _, h, hu => switches ttys (h.terminalSwitch (hu u List.mem_cons_self))
      fun v hv => hu v (List.mem_cons_of_mem _ hv)

theorem keyboardHandler (h : Mapped s) (c : Byte) : Mapped (keyboardHandler s c) := by
  have htty : ∀ p, ((LimeOS.keyboardHandler s c).pcb p).tty < 3 := fun p => by
    rw [(keyboardHandler_still s c).pcb]
    exact h.tty p
  rcases keyboardHandler_display s c with hd | ⟨n, hn, hd⟩
  · obtain ⟨ht, hm⟩ := State.display_inj hd
    exact h.congr (by rw [ht]; exact h.lt) htty hm
  · obtain ⟨ht, hm⟩ := State.display_inj hd
    have hs := h.terminalSwitch hn
    exact hs.congr (by rw [ht]; exact hs.lt) htty hm

theorem setPcb (h : Mapped s) {p : Int} {b : Pcb} (hb : b.tty < 3) : Mapped (s.setPcb p b) := by
  refine h.congr h.lt (fun q => ?_) rfl
  simp only [State.setPcb, Function.update_apply]
  split
  · exact hb
  · exact h.tty q

theorem started (h : Mapped s) (k : ExecuteFrame) (n : Nat) (page args : Nat → Byte) :
    Mapped (started s k n page args) := by
  refine h.congr h.lt (fun p => ?_) rfl
  simp only [LimeOS.started, Function.update_apply]
  split
  · exact h.lt
  · exact h.tty p

theorem dispatched (h : Mapped s) : Mapped (dispatch s).state := by
  obtain ⟨s', hd, he⟩ := dispatch_eq s
  have hm := dispatch_maps s
  rw [he] at hm ⊢
  refine h.congr ?_ (fun p => ?_) hm
  · show s'.terminalNum < 3
    rw [hd.terminalNum]
    split
    · decide
    · exact h.lt
  · show (s'.pcb p).tty < 3
    rw [hd.pcb]
    exact h.tty p

theorem caught (h : Mapped s) (hc : Caught s s') : Mapped s' := by
  refine h.congr ?_ (fun p => by rw [hc.pcb]; exact h.tty p) hc.maps
  rcases hc.terminalNum with e | e
  · rw [e]
    exact h.lt
  · rw [e]
    exact h.tty _

theorem keeping (img : Image) : Keeping img Mapped where
  screen hf h := h.aside hf.quiet.toAside hf.terminalNum hf.maps
  start k page args _ h := h.started k _ page args
  load _ _ h := ⟨h.lt, h.tty, h.page, h.empty⟩
  status p _ h := h.setPcb (h.tty p)
  close hc h := h.aside (sysClose_steady hc).toAside (sysClose_steady hc).terminalNum (sysClose_callFrame hc).maps
  free h := ⟨h.lt, h.tty, h.page, h.empty⟩
  resume h := ⟨h.lt, h.tty, h.page, h.empty⟩
  save _ _ h := h.setPcb (h.tty _)
  shell _ hi _ h := ⟨hi, h.tty, h.page, h.empty⟩
  back h := h
  dispatch h := h.dispatched
  key c h := h.keyboardHandler c
  rtc h := ⟨h.lt, h.tty, h.page, h.empty⟩
  fd hc h := h.aside (fdCall_steady hc).toAside (fdCall_steady hc).terminalNum (fdCall_callFrame hc).maps
  getargs buf nbytes h := h.aside (getargs_aside _ buf nbytes) (getargs_terminalNum _ buf nbytes)
    (getargs_callFrame _ buf nbytes).maps
  vidmap hv h := h.aside (vidmap_still hv).quiet.toAside (vidmap_terminalNum hv) (vidmap_maps hv)
  caught hc h := h.caught hc

theorem step (h : Mapped s) {e : Step} (hs : step img s e = some s') : Mapped s' := (keeping img).step s e s' h hs

theorem boot : Mapped boot := by
  refine ⟨by decide, fun _ => Nat.zero_lt_succ 2, fun t ht => ?_, fun t ht => ?_⟩
  · match t, ht with
    | 0, _ => exact .inl ⟨rfl, rfl⟩
    | 1, _ => exact .inr ⟨rfl, rfl⟩
    | 2, _ => exact .inr ⟨rfl, rfl⟩
  · simp only [LimeOS.boot]
    rw [if_neg (by omega), if_neg (by omega)]

theorem reached {es : List Step} (hr : run (LimeOS.step img) LimeOS.boot es = some s) : Mapped s :=
  run_inv (fun _ _ _ h hs => h.step hs) boot hr

end Mapped

/-! ## The address that `vidmap` gives -/

/-- The physical address of a user program's store to its video pages: through the entry of the page
directory for them, and one of `PT1`. -/
def userTranslate (s : State) (a : Nat) : Option Nat :=
  let entry := s.pt1 (a / FOUR_KB % 1024)
  if a / FOUR_MB = USER_VID_INDEX ∧ entry % 2 = 1 then some (entry / FOUR_KB * FOUR_KB + a % FOUR_KB) else none

/-- The address that process `p` finds at `screenStart`. -/
def screenAddress (s : State) (p : Int) (screenStart : Nat) : Nat :=
  (s.frame p screenStart).toNat + 2 ^ 8 * (s.frame p (screenStart + 1)).toNat +
    2 ^ 16 * (s.frame p (screenStart + 2)).toNat + 2 ^ 24 * (s.frame p (screenStart + 3)).toNat

/-- Through all later switches, stores to the page at an address go to terminal `t`'s screen, and to no other one's. -/
def StaysOn (s : State) (address t : Nat) : Prop :=
  ∀ ttys : List Nat, (∀ u ∈ ttys, u < 3) → ∀ off < FOUR_KB,
    let s' := ttys.foldl terminalSwitch s
    userTranslate s' (address + off) = some (s'.videoMem t + off) ∧
      ∀ u < 3, u ≠ t → ∀ off' < FOUR_KB, userTranslate s' (address + off) ≠ some (s'.videoMem u + off')

theorem userVidMemAddr_eq {t : Nat} (ht : t < 3) : userVidMemAddr t = 0x06400000 + 0x1000 * t :=
  match t, ht with
  | 0, _ => rfl
  | 1, _ => rfl
  | 2, _ => rfl

/-- The address of a screen is translated by the screen's entry. -/
theorem userTranslate_eq (s : State) {u off : Nat} (hu : u < 3) (hoff : off < FOUR_KB) :
    userTranslate s (userVidMemAddr u + off) =
      if s.pt1 u % 2 = 1 then some (s.pt1 u / FOUR_KB * FOUR_KB + off) else none := by
  simp only [FOUR_KB] at hoff
  have h₁ : (0x06400000 + 0x1000 * u + off) / FOUR_KB % 1024 = u := by simp only [FOUR_KB]; omega
  have h₂ : (0x06400000 + 0x1000 * u + off) / FOUR_MB = USER_VID_INDEX := by
    simp only [FOUR_MB, USER_VID_INDEX]
    omega
  have h₃ : (0x06400000 + 0x1000 * u + off) % FOUR_KB = off := by simp only [FOUR_KB]; omega
  simp only [userTranslate, userVidMemAddr_eq hu, h₁, h₂, h₃, true_and]

theorem Mapped.userTranslate {s : State} (h : Mapped s) {u off : Nat} (hu : u < 3) (hoff : off < FOUR_KB) :
    userTranslate s (userVidMemAddr u + off) = some (s.videoMem u + off) := by
  rw [userTranslate_eq s hu hoff]
  rcases h.page u hu with ⟨hv, hp⟩ | ⟨hv, hp⟩
  · rw [hv, hp, if_pos (by decide), show USER_VID_MEM_ENTRY / FOUR_KB * FOUR_KB = VIDEO_MEMORY by decide]
  · rw [hv, hp, vidMemBackup_eq hu, backupMemAddr_eq hu, if_pos (by omega)]
    simp only [FOUR_KB, Option.some.injEq]
    omega

/-- The bytes of a word make it up again. -/
theorem word_bytes {d : Nat} (hd : d < 2 ^ 32) :
    (BitVec.ofNat 8 (d / 2 ^ (8 * 0))).toNat + 2 ^ 8 * (BitVec.ofNat 8 (d / 2 ^ (8 * 1))).toNat +
      2 ^ 16 * (BitVec.ofNat 8 (d / 2 ^ (8 * 2))).toNat + 2 ^ 24 * (BitVec.ofNat 8 (d / 2 ^ (8 * 3))).toNat = d := by
  simp only [BitVec.toNat_ofNat]
  omega

/-- An accepted call gives the address of the displayed terminal's screen. -/
theorem vidmap_address {s s' : State} {screenStart : Nat} (hlt : s.terminalNum < 3)
    (h : vidmap s screenStart = .ok (0, s')) :
    screenAddress s' s.currentPid screenStart = userVidMemAddr s.terminalNum := by
  have hd : userVidMemAddr s.terminalNum < 2 ^ 32 := by
    rw [userVidMemAddr_eq hlt]
    omega
  rcases vidmap_eq_ok h with e | e
  · cases e
  · cases e
    have hw := word_bytes hd
    simp only [screenAddress, Function.update_self]
    rw [if_pos (by omega), if_pos (by omega), if_pos (by omega), if_pos (by omega), Nat.sub_self,
      Nat.add_sub_cancel_left, Nat.add_sub_cancel_left, Nat.add_sub_cancel_left]
    exact hw

/-- A screen's address is not that of another terminal: switching to that one and back leaves it in its backup,
and the address in the video page. -/
theorem not_staysOn {s : State} {u t : Nat} (hu : u < 3) (ht : t < 3) (hne : u ≠ t) :
    ¬ StaysOn s (userVidMemAddr u) t := by
  intro h
  have hlist : ∀ v ∈ [t, u], v < 3 := by
    intro v hv
    simp only [List.mem_cons, List.not_mem_nil, or_false] at hv
    omega
  have h₀ := (h [t, u] hlist 0 (by decide)).1
  rw [userTranslate_eq _ hu (by decide)] at h₀
  simp only [List.foldl_cons, List.foldl_nil, terminalSwitch_pt1, terminalSwitch_videoMem, terminalSwitch_terminalNum,
    Function.update_self, Function.update_of_ne hne.symm, backupMemAddr_eq ht] at h₀
  rw [if_pos (by decide), Option.some.injEq] at h₀
  simp only [USER_VID_MEM_ENTRY, FOUR_KB] at h₀
  omega

/-- Nor is it the screen's alone while another one is on the video page: the next switch to the screen's own
terminal puts it there, too. -/
theorem not_staysOn_shared {s : State} (hlt : s.terminalNum < 3) {u : Nat} (hu : u < 3) (hne : u ≠ s.terminalNum)
    (hv : s.videoMem u = VIDEO_MEMORY) : ¬ StaysOn s (userVidMemAddr s.terminalNum) s.terminalNum := by
  intro h
  have hlist : ∀ v ∈ [s.terminalNum], v < 3 := by
    intro v hv
    rwa [List.mem_singleton.mp hv]
  obtain ⟨h₁, h₂⟩ := h [s.terminalNum] hlist 0 (by decide)
  have h₃ := h₂ u hu hne 0 (by decide)
  simp only [List.foldl_cons, List.foldl_nil, terminalSwitch_videoMem, Function.update_self,
    Function.update_of_ne hne, hv] at h₁ h₃
  exact h₃ h₁

/-- No screen but the displayed terminal's is on the video page. -/
def OneShown (s : State) : Prop := ∀ u < 3, u ≠ s.terminalNum → s.videoMem u ≠ VIDEO_MEMORY

theorem backupMemAddr_ne {t : Nat} (ht : t < 3) : backupMemAddr t ≠ VIDEO_MEMORY := by
  rw [backupMemAddr_eq ht]
  simp only [VIDEO_MEMORY]
  omega

theorem OneShown.terminalSwitch {s : State} (h : OneShown s) (n : Nat) : OneShown (terminalSwitch s n) := by
  intro u hu hne
  rw [terminalSwitch_terminalNum] at hne
  rw [terminalSwitch_videoMem, Function.update_of_ne hne, Function.update_apply]
  split
  · rename_i e
    exact backupMemAddr_ne (e ▸ hu)
  · rename_i e
    exact h u hu e

theorem OneShown.switches : ∀ (ttys : List Nat) {s : State}, OneShown s → OneShown (ttys.foldl LimeOS.terminalSwitch s)
  | [], _, h => h
  | u :: ttys, _, h => OneShown.switches ttys (h.terminalSwitch u)

/-- With one screen on the video page at most, the screens are apart. -/
theorem Mapped.apart {s : State} (h : Mapped s) (h₁ : OneShown s) {t u : Nat} (ht : t < 3) (hu : u < 3) (hne : u ≠ t)
    {off off' : Nat} (ho : off < FOUR_KB) (ho' : off' < FOUR_KB) : s.videoMem t + off ≠ s.videoMem u + off' := by
  have hbt := backupMemAddr_eq ht
  have hbu := backupMemAddr_eq hu
  have hv : VIDEO_MEMORY = 0xB8000 := rfl
  simp only [FOUR_KB] at ho ho'
  rcases h.page t ht with ⟨et, -⟩ | ⟨et, -⟩ <;> rcases h.page u hu with ⟨eu, -⟩ | ⟨eu, -⟩
  · -- both on the video page: one of the two terminals is not the displayed one
    by_cases e : t = s.terminalNum
    · exact absurd eu (h₁ u hu fun e' => hne (e'.trans e.symm))
    · exact absurd et (h₁ t ht e)
  all_goals
    rw [et, eu]
    omega

/-- **`vidmap` stays on the caller's terminal**, in every state the kernel reaches and through all later
switches, exactly when the caller's terminal is the one displayed at the call, and no other screen is on the
video page. -/
theorem vidmap_iff {img : Image} {es : List Step} {s s' : State} {screenStart : Nat}
    (hr : run (step img) boot es = some s) (hv : vidmap s screenStart = .ok (0, s')) :
    StaysOn s' (screenAddress s' s.currentPid screenStart) s.curPcb.tty ↔
      s.terminalNum = s.curPcb.tty ∧ OneShown s := by
  have hm := Mapped.reached hr
  have hm' : Mapped s' := hm.aside (vidmap_still hv).quiet.toAside (vidmap_terminalNum hv) (vidmap_maps hv)
  have hterm : s'.terminalNum = s.terminalNum := vidmap_terminalNum hv
  have hvideo : s'.videoMem = s.videoMem := congrArg Prod.fst (vidmap_maps hv)
  rw [vidmap_address hm.lt hv]
  constructor
  · intro h
    by_cases e : s.terminalNum = s.curPcb.tty
    · refine ⟨e, fun u hu hne hvu => ?_⟩
      rw [← e, ← hterm] at h
      exact not_staysOn_shared (hterm ▸ hm.lt) hu (by rwa [hterm]) (by rwa [hvideo]) h
    · exact absurd h (not_staysOn hm.lt (hm.tty s.currentPid) e)
  · rintro ⟨e, h₁⟩ ttys hlist off hoff
    have h₁' : OneShown s' := by
      rw [OneShown, hterm, hvideo]
      exact h₁
    have hms := hm'.switches ttys hlist
    have htr := hms.userTranslate hm.lt hoff
    rw [← e]
    refine ⟨htr, fun u hu hne off' hoff' he => ?_⟩
    rw [htr, Option.some.injEq] at he
    exact hms.apart (h₁'.switches ttys) hm.lt hu hne hoff hoff' he

/-- The first shell, when the scheduler has come to it. -/
theorem vidmap_displayed :
    ∃ s s', run (step shellImage) boot (fourTicks ++ [.tick 0 0 emptyFrame, .tick 0 0 emptyFrame]) = some s ∧
      vidmap s 0x08048000 = .ok (0, s') ∧
      StaysOn s' (screenAddress s' s.currentPid 0x08048000) s.curPcb.tty := by
  obtain ⟨s, hs⟩ := Option.isSome_iff_exists.mp (show
    (run (step shellImage) boot (fourTicks ++ [.tick 0 0 emptyFrame, .tick 0 0 emptyFrame])).isSome by decide +kernel)
  have hd : (run (step shellImage) boot (fourTicks ++ [.tick 0 0 emptyFrame, .tick 0 0 emptyFrame])).map
      (fun s => (s.terminalNum, s.curPcb.tty, s.videoMem 1, s.videoMem 2)) = some (0, 0, 0xBA000, 0xBB000) := by
    decide +kernel
  rw [hs] at hd
  simp only [Option.map_some, Option.some.injEq, Prod.mk.injEq] at hd
  obtain ⟨ht, htty, h₁, h₂⟩ := hd
  have hv : vidmap s 0x08048000 = .ok (0, _) := rfl
  refine ⟨s, _, hs, hv, (vidmap_iff hs hv).mpr ⟨ht.trans htty.symm, fun u hu hne => ?_⟩⟩
  rw [ht] at hne
  obtain rfl | rfl : u = 1 ∨ u = 2 := by omega
  · rw [h₁]
    decide
  · rw [h₂]
    decide

/-- The second shell, while the first terminal is displayed. -/
theorem vidmap_background :
    ∃ s', run (step shellImage) boot fourTicks = some shellsState ∧ vidmap shellsState 0x08048000 = .ok (0, s') ∧
      ¬ StaysOn s' (screenAddress s' shellsState.currentPid 0x08048000) shellsState.curPcb.tty := by
  have ht : shellsState.terminalNum = 0 ∧ shellsState.curPcb.tty = 1 := by decide +kernel
  have hv : vidmap shellsState 0x08048000 = .ok (0, _) := rfl
  obtain ⟨s, hs⟩ := Option.isSome_iff_exists.mp (show (run (step shellImage) boot fourTicks).isSome by decide +kernel)
  refine ⟨_, ?_, hv, ?_⟩
  · rw [shellsState, hs]
    rfl
  · rw [vidmap_address (by rw [ht.1]; decide) hv, ht.1, ht.2]
    exact not_staysOn (by decide) (by decide) (by decide)

end LimeOS
