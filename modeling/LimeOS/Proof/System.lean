import LimeOS.Impl.Halt
import LimeOS.Proof.Vidmap

/-!
# The kernel with its halts under way

The statements of a `halt` that nothing interrupts come to what it comes to in one
step (`halt_uninterrupted`). With ticks in between it goes on in whatever the kernel
has become by then, but the kernel and its halts switch to processes alone that have
been set up, and these are on the three terminals (`SystemTtys.step`).
-/

namespace LimeOS

/-! ## Known processes -/

/-- The processes `known`, to which alone the kernel switches, are on the three terminals, one of which is selected. -/
structure Ttys (known : Set Int) (s : State) : Prop where
  lt : s.terminalNum < 3
  tty : ∀ p ∈ known, (s.pcb p).tty < 3
  current : s.currentPid ∈ known
  executePid : ∀ u < 3, s.executePid u ∈ known
  parent : ∀ p ∈ known, (s.pcb p).parentId ∈ known

namespace Ttys

variable {known : Set Int} {s s₁ : State}

theorem aside (h : Ttys known s) (ha : Aside s s₁) (ht : s₁.terminalNum < 3) : Ttys known s₁ where
  lt := ht
  tty p hp := by
    rw [ha.tty]
    exact h.tty p hp
  current := ha.currentPid ▸ h.current
  executePid u hu := by
    rw [ha.executePid]
    exact h.executePid u hu
  parent p hp := by
    rw [ha.parentId]
    exact h.parent p hp

theorem screen (h : Ttys known s) (hf : ScreenFrame s s₁) : Ttys known s₁ :=
  h.aside hf.quiet.toAside (hf.terminalNum ▸ h.lt)

theorem caught (h : Ttys known s) (hc : Caught s s₁) : Ttys known s₁ := by
  refine h.aside hc.still.quiet.toAside ?_
  rcases hc.terminalNum with e | e
  · rw [e]
    exact h.lt
  · rw [e]
    exact h.tty _ h.current

theorem setPcb (h : Ttys known s) {p : Int} {b : Pcb} (ht : b.tty = (s.pcb p).tty)
    (hp : b.parentId = (s.pcb p).parentId) : Ttys known (s.setPcb p b) := by
  have hb : ∀ q, ((s.setPcb p b).pcb q).tty = (s.pcb q).tty ∧ ((s.setPcb p b).pcb q).parentId = (s.pcb q).parentId := by
    intro q
    simp only [State.setPcb, Function.update_apply]
    split
    · rename_i e
      rw [e]
      exact ⟨ht, hp⟩
    · exact ⟨rfl, rfl⟩
  refine ⟨h.lt, fun q hq => ?_, h.current, h.executePid, fun q hq => ?_⟩
  · rw [(hb q).1]
    exact h.tty q hq
  · rw [(hb q).2]
    exact h.parent q hq

/-- A process that is started by one that is known, or by the pid that it takes itself. -/
theorem started (h : Ttys known s) {n : Nat} (hpcb : s₁.pcb = s.pcb) (he : s₁.executePid = s.executePid)
    (ht : s₁.terminalNum < 3) (hc : s₁.currentPid ∈ insert (n : Int) known) (k : ExecuteFrame)
    (page args : Nat → Byte) : Ttys (insert (n : Int) known) (started s₁ k n page args) where
  lt := ht
  tty p hp := by
    simp only [LimeOS.started, Function.update_apply]
    split
    · exact ht
    · rename_i hne
      rw [hpcb]
      exact h.tty p (Set.mem_of_mem_insert_of_ne hp hne)
  current := Set.mem_insert _ _
  executePid u hu := by
    simp only [LimeOS.started, Function.update_apply]
    split
    · exact Set.mem_insert _ _
    · rw [he]
      exact Set.mem_insert_of_mem _ (h.executePid u hu)
  parent p hp := by
    simp only [LimeOS.started, Function.update_apply]
    split
    · exact hc
    · rename_i hne
      rw [hpcb]
      exact Set.mem_insert_of_mem _ (h.parent p (Set.mem_of_mem_insert_of_ne hp hne))

/-- The process of a terminal goes on. -/
theorem dispatched (h : Ttys known s) (hd : Dispatched s s₁) : Ttys known s₁ where
  lt := by
    rw [hd.terminalNum]
    split
    · decide
    · exact h.lt
  tty p hp := by
    rw [hd.pcb]
    exact h.tty p hp
  current := by
    rw [hd.currentPid, hd.pitTerminalNum]
    exact h.executePid _ (Nat.mod_lt _ (by decide))
  executePid u hu := by
    rw [hd.executePid]
    exact h.executePid u hu
  parent p hp := by
    rw [hd.pcb]
    exact h.parent p hp

/-- What a call of `execute` comes to knows the process that it starts. -/
theorem execute (h : Ttys known s) {img : Image} {command : Option CString} {k : ExecuteFrame} {r : ExecuteResult}
    (hx : LimeOS.execute img s command k = .ok r) : ∃ known', known ⊆ known' ∧ Ttys known' r.state := by
  rcases execute_eq_ok hx with ⟨v, s₁, rfl, hf, -⟩ | ⟨c, n, page, target, -, -, -, -, rfl⟩
  · exact ⟨known, subset_rfl, h.screen hf⟩
  · exact ⟨_, Set.subset_insert _ _, h.started rfl rfl h.lt (Set.mem_insert_of_mem _ h.current) k page _⟩

theorem execute_fault (h : Ttys known s) {img : Image} {command : Option CString} {k : ExecuteFrame}
    (hx : LimeOS.execute img s command k = .error (.pageFault s₁)) : Ttys known s₁ := by
  obtain ⟨-, -, n, page, -, rfl⟩ := execute_eq_fault hx
  exact ⟨h.lt, h.tty, h.current, h.executePid, h.parent⟩

theorem keyboardHandler (h : Ttys known s) (c : Byte) : Ttys known (keyboardHandler s c) := by
  refine h.aside (keyboardHandler_still s c).quiet.toAside ?_
  rcases keyboardHandler_display s c with hd | ⟨n, hn, hd⟩
  · rw [(State.display_inj hd).1]
    exact h.lt
  · rw [(State.display_inj hd).1, terminalSwitch_terminalNum]
    exact hn

end Ttys

theorem ShellsStarted.ttys {s : State} (h : ShellsStarted s) : Ttys {p | 0 ≤ p ∧ p < 3} s := by
  have hmem : ∀ t : Nat, t < 3 → (t : Int) ∈ {p : Int | 0 ≤ p ∧ p < 3} := fun t ht => ⟨by omega, by omega⟩
  have hpcb : ∀ p ∈ {p : Int | 0 ≤ p ∧ p < 3}, (s.pcb p).parentId = p ∧ (s.pcb p).tty < 3 := by
    rintro p ⟨h₀, h₃⟩
    obtain ⟨t, rfl⟩ := Int.eq_ofNat_of_zero_le h₀
    obtain ⟨hp, ht⟩ := h.pcb t (by omega)
    exact ⟨hp, by rw [ht]; omega⟩
  obtain ⟨u, hu, hc⟩ := h.current
  refine ⟨by rw [h.terminalNum]; decide, fun p hp => (hpcb p hp).2, hc ▸ hmem u hu, fun t ht => ?_, fun p hp => ?_⟩
  · rw [h.executePid t ht]
    exact hmem t ht
  · rw [(hpcb p hp).1]
    exact hp

section

variable {img : Image} {q q' : System}

theorem System.after_eq_some {α : Type} {q q' : System} {r : Except Fault α} {f : α → Option System}
    (h : q.after r f = some q') :
    (∃ a, r = .ok a ∧ f a = some q') ∨ ∃ s, r = .error (.pageFault s) ∧ q' = q.except s PF := by
  unfold System.after at h
  split at h
  · exact .inl ⟨_, rfl, h⟩
  · exact .inr ⟨_, rfl, (Option.some.inj h).symm⟩
  · cases h

/-! ## A `halt` that nothing interrupts -/

/-- The statements that follow, with nothing between them, lead from `q` to `q'`. -/
def Leads (img : Image) (k : ExecuteFrame) (q q' : System) : Prop :=
  ∃ n, run (systemStep img) q (List.replicate n (.next k)) = some q'

namespace Leads

variable {k : ExecuteFrame} {q₁ : System}

theorem refl (q : System) : Leads img k q q := ⟨0, rfl⟩

theorem next (h : systemStep img q (.next k) = some q₁) (hl : Leads img k q₁ q') : Leads img k q q' := by
  obtain ⟨n, hn⟩ := hl
  exact ⟨n + 1, by rw [List.replicate_succ, run_cons h, hn]⟩

theorem trans (h₁ : Leads img k q q₁) (h₂ : Leads img k q₁ q') : Leads img k q q' := by
  obtain ⟨m, hm⟩ := h₁
  obtain ⟨n, hn⟩ := h₂
  exact ⟨m + n, run_replicate_add hm hn⟩

end Leads

variable {k : ExecuteFrame} {saved : Int → Option Context}

/-- The loop over the descriptors. -/
theorem leads_close (halted : Int) : ∀ (n i : Nat) {s s' : State}, i + n = MAX_FD_NUM →
    (List.range' i n).foldlM (fun s (i : Nat) => (sysClose s i).map Prod.snd) s = Except.ok (ε := Fault) s' →
    Leads img k ⟨s, .halting halted (.close i), saved⟩ ⟨s', .halting halted .free, saved⟩
  | 0, i, s, s', hi, h => by
    cases h
    refine .next ?_ (.refl _)
    simp only [systemStep, haltNext]
    rw [if_neg (by omega)]
    rfl
  | n + 1, i, s, s', hi, h => by
    rw [List.range'_succ, List.foldlM_cons] at h
    cases hc : (sysClose s i).map Prod.snd with
    | error f =>
      rw [hc] at h
      cases h
    | ok s₁ =>
      rw [hc] at h
      obtain ⟨r, hr, rfl⟩ := map_eq_ok.mp hc
      refine .next ?_ (leads_close halted n (i + 1) (by omega) h)
      simp only [systemStep, haltNext]
      rw [if_pos (by omega), hr]
      rfl

/-- The way back to the parent. -/
theorem leads_resume (s : State) (halted : Int) :
    Leads img k ⟨s, .halting halted .current, saved⟩ ⟨(resumeParent s halted).state, .user, saved⟩ :=
  .next rfl (.next rfl (.next rfl (.next rfl (.next rfl (.refl _)))))

/-- From the test for a root shell on. -/
theorem leads_test (saved : Int → Option Context) {s : State} {halted : Int} {r : HaltResult} (hcur : s.currentPid = halted)
    (h : (if halted = (s.pcb halted).parentId then
      match execute img s (some shellCommand) k with
      | .error f => .error f
      | .ok (.starts s target) => .ok (.starts s target)
      | .ok (.returns _ s) => .ok (resumeParent s halted)
      else Except.ok (ε := Fault) (resumeParent s halted)) = .ok r) :
    ∃ q', Leads img k ⟨s, .halting halted .test, saved⟩ q' ∧ q'.kernel = r.state ∧ q'.running = .user := by
  subst hcur
  by_cases hp : s.currentPid = (s.pcb s.currentPid).parentId
  · rw [if_pos hp] at h
    have hshell : Leads img k ⟨s, .halting s.currentPid .test, saved⟩ ⟨s, .halting s.currentPid .shell, saved⟩ :=
      .next (by simp only [systemStep, haltNext, if_pos hp]; rfl) (.refl _)
    cases hx : execute img s (some shellCommand) k with
    | error f =>
      rw [hx] at h
      cases h
    | ok e =>
      rw [hx] at h
      cases e with
      | starts s' target =>
        cases h
        exact ⟨_, hshell.trans (.next (by simp only [systemStep, haltNext, hx]; rfl) (.refl _)), rfl, rfl⟩
      | returns v s' =>
        cases h
        exact ⟨_, hshell.trans (.next (by simp only [systemStep, haltNext, hx]; rfl) (leads_resume s' _)), rfl, rfl⟩
  · rw [if_neg hp] at h
    cases h
    exact ⟨_, .next (by simp only [systemStep, haltNext, if_neg hp]; rfl) (leads_resume _ _), rfl, rfl⟩

/-- The statements of a `halt` that nothing interrupts come to what it comes to in one step. -/
theorem halt_uninterrupted {status : Byte} {r : HaltResult} (hq : q.running = .user)
    (h : halt img q.kernel status k = .ok r) :
    ∃ q₁ q', systemStep img q (.halt status) = some q₁ ∧ Leads img k q₁ q' ∧ q'.kernel = r.state ∧
      q'.running = .user := by
  obtain ⟨s, running, saved⟩ := q
  obtain rfl : running = .user := hq
  simp only [halt, halt256] at h
  generalize hc : closeAll (s.setPcb s.curPcb.parentId { s.pcb s.curPcb.parentId with returnValue := status.toNat }) = o
    at h
  cases o with
  | error f => cases h
  | ok s₁ =>
    have hcur : s₁.currentPid = s.currentPid := (closeAll_steady hc).1.currentPid
    rw [closeAll, List.range_eq_range'] at hc
    have htest : Leads img k ⟨s, .halting s.currentPid (.status status.toNat), saved⟩
        ⟨{ s₁ with pidFlags := Function.update s₁.pidFlags s.currentPid .FREE }, .halting s.currentPid .test, saved⟩ :=
      (Leads.next rfl (leads_close s.currentPid MAX_FD_NUM 0 (Nat.zero_add _) hc)).trans
        (.next (by simp only [systemStep, haltNext, hcur]; rfl) (.refl _))
    obtain ⟨q', hl, hq'⟩ := leads_test saved
      (s := { s₁ with pidFlags := Function.update s₁.pidFlags s.currentPid .FREE }) hcur h
    exact ⟨_, q', rfl, htest.trans hl, hq'⟩

/-! ## Ticks -/

theorem System.resume_eq_some {s : State} (h : q.resume s = some q') :
    ∃ c, q.saved s.currentPid = some c ∧ q' = ⟨s, c, Function.update q.saved s.currentPid none⟩ := by
  obtain ⟨c, hc, rfl⟩ := Option.map_eq_some_iff.mp h
  exact ⟨c, hc, rfl⟩

/-- What a tick comes to: the start of a root shell that is missing, or the dispatch of the next terminal's process. -/
theorem systemTick_eq_some (hs : HasShell img) {esp ebp : Nat} {k : ExecuteFrame}
    (h : systemTick img q esp ebp k = some q') :
    (∃ i < 3, ∃ page args, freePid q.kernel = some i ∧
        q' = q.save.start (started (shellCaller (saveContext q.kernel esp ebp) i) k i page args)) ∨
      (∀ i < 3, q.kernel.pidFlags (i : Nat) = .IN_USE) ∧
        ∃ s, Dispatched (saveContext q.kernel esp ebp) s ∧ s.maps = q.kernel.maps ∧ q.save.resume s = some q' := by
  by_cases hu : ∀ i < 3, q.kernel.pidFlags (i : Nat) = .IN_USE
  · rw [systemTick, taskSwitch_dispatches img hu] at h
    obtain ⟨s, hd, he⟩ := dispatch_eq (saveContext q.kernel esp ebp)
    have hm := dispatch_maps (saveContext q.kernel esp ebp)
    rw [he] at h hm
    exact .inr ⟨hu, s, hd, hm, h⟩
  · obtain ⟨i, hi, hf⟩ : ∃ i < 3, freePid q.kernel = some i := by
      cases hf : freePid q.kernel with
      | none => exact absurd (fun i hi => freePid_eq_none hf i (by simp only [MAX_PID]; omega)) hu
      | some i =>
        refine ⟨i, ?_, rfl⟩
        by_contra hi
        exact hu fun j hj => (freePid_eq_some hf).2.2 j (by omega)
    obtain ⟨page, args, target, ht⟩ := taskSwitch_starts hs hi hf esp ebp k
    rw [systemTick, ht] at h
    obtain rfl := Option.some.inj h
    exact .inl ⟨i, hi, page, args, hf, rfl⟩

/-! ## Contexts -/

/-- A context of the process's `halt_256` is there. -/
def System.Halted (q : System) (p : Int) : Prop :=
  ∃ pc, q.running = .halting p pc ∨ ∃ p', q.saved p' = some (.halting p pc)

namespace System.Halted

variable {p : Int} {s : State}

theorem of_save (h : q.save.Halted p) : q.Halted p := by
  obtain ⟨pc, h | ⟨p', h⟩⟩ := h
  · exact ⟨pc, .inl h⟩
  · simp only [System.save, Function.update_apply] at h
    split at h
    · exact ⟨pc, .inl (Option.some.inj h)⟩
    · exact ⟨pc, .inr ⟨p', h⟩⟩

theorem of_start (h : (q.start s).Halted p) : q.Halted p := by
  obtain ⟨pc, h | ⟨p', h⟩⟩ := h
  · cases h
  · simp only [System.start, Function.update_apply] at h
    split at h
    · cases h
    · exact ⟨pc, .inr ⟨p', h⟩⟩

theorem of_resume (hr : q.resume s = some q') (h : q'.Halted p) : q.Halted p := by
  obtain ⟨c, hc, rfl⟩ := System.resume_eq_some hr
  obtain ⟨pc, h | ⟨p', h⟩⟩ := h
  · exact ⟨pc, .inr ⟨s.currentPid, hc.trans (congrArg some h)⟩⟩
  · simp only [Function.update_apply] at h
    split at h
    · cases h
    · exact ⟨pc, .inr ⟨p', h⟩⟩

/-- No `halt` begins at a tick. -/
theorem of_tick (hs : HasShell img) {esp ebp : Nat} {k : ExecuteFrame} (ht : systemTick img q esp ebp k = some q')
    (h : q'.Halted p) : q.Halted p := by
  rcases systemTick_eq_some hs ht with ⟨i, -, page, args, -, rfl⟩ | ⟨-, s, -, -, hr⟩
  · exact of_save (of_start h)
  · exact of_save (of_resume hr h)

end System.Halted

/-- The kernel switches to known processes alone, and so do the halts that are under way. -/
structure SystemTtys (known : Set Int) (q : System) : Prop where
  kernel : Ttys known q.kernel
  halted : ∀ p, q.Halted p → p ∈ known

namespace SystemTtys

variable {known known' : Set Int} {s : State}

/-- A process goes on, or the current one is in its `halt_256` from now on. -/
theorem next (h : SystemTtys known q) (hk : Ttys known' q'.kernel) (hsub : known ⊆ known')
    (hh : ∀ p, q'.Halted p → q.Halted p ∨ p = q'.kernel.currentPid) : SystemTtys known' q' := by
  refine ⟨hk, fun p hp => ?_⟩
  rcases hh p hp with hp | rfl
  · exact hsub (h.halted p hp)
  · exact hk.current

theorem start (h : SystemTtys known q) (hk : Ttys known' s) (hsub : known ⊆ known') :
    SystemTtys known' (q.start s) := h.next hk hsub fun _ hp => .inl hp.of_start

theorem except (h : SystemTtys known q) (hk : Ttys known s) (v : Fin 20) : SystemTtys known (q.except s v) := by
  have hf := printfMessage_frame s (str (exceptionMessage v))
  refine h.next (hk.screen hf) subset_rfl fun p hp => ?_
  obtain ⟨pc, hp | hp⟩ := hp
  · cases hp
    exact .inr hf.currentPid.symm
  · exact .inl ⟨pc, .inr hp⟩

/-- The state of the kernel is another one. -/
theorem state (h : SystemTtys known q) (hk : Ttys known' s) (hsub : known ⊆ known') :
    SystemTtys known' { q with kernel := s } := h.next hk hsub fun _ hp => .inl hp

/-- The halt that is under way goes on. -/
theorem goto (h : SystemTtys known q) {p : Int} {pc₀ : HaltPc} (hr : q.running = .halting p pc₀) (hk : Ttys known' s)
    (hsub : known ⊆ known') (pc : HaltPc) : SystemTtys known' { q with kernel := s, running := .halting p pc } := by
  refine h.next hk hsub fun p' hp => .inl ?_
  obtain ⟨pc', hp | hp⟩ := hp
  · cases hp
    exact ⟨pc₀, .inl hr⟩
  · exact ⟨pc', .inr hp⟩

theorem tick (h : SystemTtys known q) (hs : HasShell img) {esp ebp : Nat} {k : ExecuteFrame}
    (ht : systemTick img q esp ebp k = some q') : ∃ known', SystemTtys known' q' := by
  have hh : ∀ p, q'.Halted p → q.Halted p ∨ p = q'.kernel.currentPid := fun _ hp => .inl (hp.of_tick hs ht)
  have hsave : Ttys known (saveContext q.kernel esp ebp) := h.kernel.setPcb rfl rfl
  rcases systemTick_eq_some hs ht with ⟨i, hi, page, args, -, rfl⟩ | ⟨-, s, hd, -, hr⟩
  · have hk : Ttys (insert (i : Int) known) (started (shellCaller (saveContext q.kernel esp ebp) i) k i page args) := by
      refine hsave.started ?_ ?_ hi (Set.mem_insert _ _) k page args <;> rfl
    exact ⟨_, h.next hk (Set.subset_insert _ _) hh⟩
  · obtain ⟨c, -, rfl⟩ := System.resume_eq_some hr
    exact ⟨known, h.next (hsave.dispatched hd) subset_rfl hh⟩

theorem haltNext (h : SystemTtys known q) {p : Int} {pc : HaltPc} (hr : q.running = .halting p pc) {k : ExecuteFrame}
    (hn : haltNext img q p k pc = some q') : ∃ known', SystemTtys known' q' := by
  have hp : p ∈ known := h.halted p ⟨pc, .inl hr⟩
  have hstate := h.kernel
  cases pc with
  | status v =>
    cases hn
    refine ⟨known, h.goto hr ?_ subset_rfl _⟩
    exact hstate.setPcb rfl rfl
  | close i =>
    simp only [LimeOS.haltNext] at hn
    split at hn
    · rcases System.after_eq_some hn with ⟨r, hc, hn⟩ | ⟨s, hc, -⟩
      · cases hn
        have ha := sysClose_steady hc
        exact ⟨known, h.goto hr (hstate.aside ha.toAside (ha.terminalNum ▸ hstate.lt)) subset_rfl _⟩
      · exact absurd hc (sysClose_ne_fault _ _ _)
    · cases hn
      exact ⟨known, h.goto hr hstate subset_rfl _⟩
  | shell =>
    rcases System.after_eq_some hn with ⟨r, hx, hn⟩ | ⟨s, hx, rfl⟩
    · obtain ⟨known', hsub, hk⟩ := hstate.execute hx
      cases r with
      | starts s target =>
        cases hn
        exact ⟨known', h.start hk hsub⟩
      | returns v s =>
        cases hn
        exact ⟨known', h.goto hr hk hsub _⟩
    · exact ⟨known, h.except (hstate.execute_fault hx) PF⟩
  | current =>
    cases hn
    refine ⟨known, h.goto hr ?_ subset_rfl _⟩
    exact ⟨hstate.lt, hstate.tty, hstate.parent p hp, hstate.executePid, hstate.parent⟩
  | executePid =>
    cases hn
    refine ⟨known, h.goto hr ?_ subset_rfl _⟩
    refine ⟨hstate.lt, hstate.tty, hstate.current, fun u hu => ?_, hstate.parent⟩
    simp only [Function.update_apply]
    split
    · exact hstate.current
    · exact hstate.executePid u hu
  | jump =>
    cases hn
    refine ⟨known, h.next hstate subset_rfl fun p hp => .inl ?_⟩
    obtain ⟨pc', hp | hp⟩ := hp
    · cases hp
    · exact ⟨pc', .inr hp⟩
  | free | test | paging | tss =>
    cases hn
    refine ⟨known, h.goto hr ?_ subset_rfl _⟩
    exact ⟨hstate.lt, hstate.tty, hstate.current, hstate.executePid, hstate.parent⟩

theorem call (h : SystemTtys known q) {e : Step} (hc : systemCall img q e = some q') :
    ∃ known', SystemTtys known' q' := by
  have hstate := h.kernel
  cases e with
  | execute command k =>
    rcases System.after_eq_some hc with ⟨r, hx, hc⟩ | ⟨s, hx, rfl⟩
    · obtain ⟨known', hsub, hk⟩ := hstate.execute hx
      cases r with
      | starts s target =>
        cases hc
        exact ⟨known', h.start hk hsub⟩
      | returns v s =>
        cases hc
        exact ⟨known', h.state hk hsub⟩
    · exact ⟨known, h.except (hstate.execute_fault hx) PF⟩
  | exception v k =>
    cases hc
    exact ⟨known, h.except hstate v⟩
  | fd c k =>
    rcases System.after_eq_some hc with ⟨r, hr, hc⟩ | ⟨s, hr, rfl⟩
    · cases hc
      have ha := fdCall_steady hr
      exact ⟨known, h.state (hstate.aside ha.toAside (ha.terminalNum ▸ hstate.lt)) subset_rfl⟩
    · exact ⟨known, h.except (hstate.caught (fdCall_eq_fault hr).1) PF⟩
  | getargs buf nbytes k =>
    rcases System.after_eq_some hc with ⟨r, hr, hc⟩ | ⟨s, hr, rfl⟩
    · cases hc
      rw [getargsThrough_eq_ok hr]
      exact ⟨known, h.state (hstate.aside (getargs_aside _ _ nbytes)
        (getargs_terminalNum q.kernel _ nbytes ▸ hstate.lt)) subset_rfl⟩
    · exact ⟨known, h.except (hstate.caught (getargsThrough_eq_fault hr).1) PF⟩
  | vidmap screenStart k =>
    rcases System.after_eq_some hc with ⟨r, hv, hc⟩ | ⟨s, hv, rfl⟩
    · cases hc
      exact ⟨known, h.state (hstate.aside (vidmap_still hv).quiet.toAside (vidmap_terminalNum hv ▸ hstate.lt)) subset_rfl⟩
    · rw [vidmap_eq_fault hv]
      exact ⟨known, h.except hstate PF⟩
  | _ => cases hc

theorem step (h : SystemTtys known q) (hs : HasShell img) {e : SystemEvent} (hstep : systemStep img q e = some q') :
    ∃ known', SystemTtys known' q' := by
  cases e with
  | step e =>
    cases e with
    | tick esp ebp k => exact h.tick hs hstep
    | key c =>
      cases hstep
      exact ⟨known, h.state (h.kernel.keyboardHandler c) subset_rfl⟩
    | rtc =>
      cases hstep
      exact ⟨known, h.state (h.kernel.aside (rtcHandler_still q.kernel).quiet.toAside h.kernel.lt) subset_rfl⟩
    | _ =>
      simp only [systemStep] at hstep
      split at hstep
      · exact h.call hstep
      · cases hstep
  | halt status =>
    simp only [systemStep] at hstep
    split at hstep
    · cases hstep
      refine ⟨known, h.next h.kernel subset_rfl fun p hp => ?_⟩
      obtain ⟨pc, hp | hp⟩ := hp
      · cases hp
        exact .inr rfl
      · exact .inl ⟨pc, .inr hp⟩
    · cases hstep
  | next k =>
    simp only [systemStep] at hstep
    split at hstep
    · cases hstep
    · rename_i hr
      exact h.haltNext hr hstep

end SystemTtys

end

end LimeOS
