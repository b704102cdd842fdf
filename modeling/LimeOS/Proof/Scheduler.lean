import LimeOS.Proof.Processes

/-!
# The contexts the scheduler loads

A history keeps, for every process, the context of the tick at which it was last
interrupted, and the terminal that the last dispatching tick selected
(`schedUpd`). Once the shells run, every terminal's process that is not the
current one has that context in its control block, with the top of its own kernel
stack (`Saved`): a step changes the control blocks and the kernel stack of the
current process's terminal only. So every tick loads what the history has
(`dispatch_ok`).
-/

namespace LimeOS

/-- For every process the context it was last interrupted with, and the terminal selected last. -/
structure SchedHist where
  last : Int → Option (Nat × Nat × Int)
  selected : Option Nat

/-- A tick saves the context of the current process; a process that is started has none yet. -/
def schedUpd (img : Image) (s : State) (e : Step) (hist : SchedHist) : SchedHist :=
  let last :=
    match e with
    | .tick esp ebp _ => Function.update hist.last s.currentPid (some (esp, ebp, s.tssEsp0))
    | _ => hist.last
  { last :=
      match startedPid img s e with
      | some p => Function.update last p none
      | none => last
    selected :=
      match e with
      | .tick esp ebp k =>
        match taskSwitch img s esp ebp k with
        | .ok (.dispatches _ _ s') => some s'.pitTerminalNum
        | _ => hist.selected
      | _ => hist.selected }

/-- What a tick that dispatches a process loads: the context with which it was last
interrupted, its own kernel stack and page, and it is of the terminal after the one selected last. -/
def LoadsLast (img : Image) (q : State × SchedHist) : Prop :=
  ∀ esp ebp k esp' ebp' s', taskSwitch img q.1 esp ebp k = .ok (.dispatches esp' ebp' s') →
    Function.update q.2.last q.1.currentPid (some (esp, ebp, q.1.tssEsp0)) s'.currentPid =
      some (esp', ebp', s'.tssEsp0) ∧
    s'.tssEsp0 = kernelStackTop s'.currentPid ∧ s'.programPde = programFrame s'.currentPid ∧
    ∀ t, q.2.selected = some t → s'.curPcb.tty = (t + 1) % TERMINAL_COUNT

/-- The context saved in a control block. -/
def savedContext (b : Pcb) : Nat × Nat × Int := (b.schedEsp, b.schedEbp, b.schedEsp0)

/-- What the scheduler relies on, once the shells run, with the chains of the terminals. -/
structure Saved (q : State × SchedHist) (stack : Nat → List Int) : Prop where
  chains : Stacks q.1 stack
  esp0 : q.1.tssEsp0 = kernelStackTop q.1.currentPid
  parent : ∀ t < 3, ∀ p ∈ stack t, (q.1.pcb p).parentId ≠ p →
    (q.1.pcb p).parentEsp0 = kernelStackTop (q.1.pcb p).parentId
  saved : ∀ t < 3, q.1.executePid t ≠ q.1.currentPid →
    q.2.last (q.1.executePid t) = some (savedContext (q.1.pcb (q.1.executePid t))) ∧
    (q.1.pcb (q.1.executePid t)).schedEsp0 = kernelStackTop (q.1.executePid t)
  selected : ∀ t, q.2.selected = some t → q.1.pitTerminalNum = t

section

variable {img : Image} {s s' : State} {hist : SchedHist} {stack : Nat → List Int}

/-- The processes of the other terminals are not the current one. -/
theorem Stacks.executePid_ne (h : Stacks s stack) {u : Nat} (hu : u < 3) (hne : u ≠ s.curPcb.tty) :
    s.executePid u ≠ s.currentPid := by
  obtain ⟨h₃, hc, hch⟩ := h.current_eq
  intro e
  exact h.not_mem h₃ hu hne hch.head_mem (e ▸ (h.chain u hu).head_mem)

/-- A step that is not a tick interrupts no process and selects no terminal. -/
theorem schedUpd_eq {e : Step} (he : ∀ esp ebp k, e ≠ .tick esp ebp k) : schedUpd img s e hist =
    { hist with
      last := match startedPid img s e with
        | some p => Function.update hist.last p none
        | none => hist.last } := by
  cases e with
  | tick esp ebp k => exact absurd rfl (he esp ebp k)
  | _ => rfl

namespace Saved

/-- A tick has saved the context of the current process: now every terminal's process has its own. -/
theorem all (h : Saved (s, hist) stack) (esp ebp : Nat) {t : Nat} (ht : t < 3) :
    Function.update hist.last s.currentPid (some (esp, ebp, s.tssEsp0)) (s.executePid t) =
        some (savedContext ((saveContext s esp ebp).pcb (s.executePid t))) ∧
      ((saveContext s esp ebp).pcb (s.executePid t)).schedEsp0 = kernelStackTop (s.executePid t) := by
  rw [saveContext_pcb]
  by_cases hc : s.executePid t = s.currentPid
  · rw [if_pos hc, hc, Function.update_self]
    exact ⟨rfl, h.esp0⟩
  · rw [if_neg hc, Function.update_of_ne hc]
    exact h.saved t ht hc

theorem loadsLast (h : Saved (s, hist) stack) : LoadsLast img (s, hist) := by
  intro esp ebp k esp' ebp' s' ht
  have hst := h.chains
  simp only at hst ht ⊢
  rw [taskSwitch_dispatches img (fun i hi => hst.root_inUse hi)] at ht
  obtain ⟨s₁, hd, he⟩ := dispatch_eq (saveContext s esp ebp)
  rw [he] at ht
  cases ht
  have hlt : s'.pitTerminalNum < 3 := by
    rw [hd.pitTerminalNum]
    exact Nat.mod_lt _ (by decide)
  have hq : s'.currentPid = s.executePid s'.pitTerminalNum := hd.currentPid
  obtain ⟨hlast, hesp0⟩ := h.all esp ebp hlt
  rw [← hq] at hlast hesp0
  refine ⟨?_, ?_, hd.programPde, fun t ht => ?_⟩
  · rw [hlast, hd.tssEsp0]
    rfl
  · rw [hd.tssEsp0, hesp0]
  · have hm := (hst.dispatched hd).chain s'.pitTerminalNum hlt
    have hpit : s.pitTerminalNum = t := h.selected t ht
    rw [State.curPcb, hd.currentPid, ← hd.executePid, hm.member_head.tty, hd.pitTerminalNum, ← hpit]
    rfl

/-- Steps that hand the processor to no other process. -/
theorem aside (h : Saved (s, hist) stack) (ha : Aside s s') (hn : s'.terminalNum < 3) : Saved (s', hist) stack := by
  have hctx : ∀ p, savedContext (s'.pcb p) = savedContext (s.pcb p) := fun p => by rw [ha.pcb]; rfl
  refine ⟨h.chains.aside ha hn, ?_, fun t ht p hp hr => ?_, fun t ht hc => ?_, fun t ht => ?_⟩
  · simp only [ha.tssEsp0, ha.currentPid]
    exact h.esp0
  · simp only [ha.parentId] at hr
    simp only [ha.parentId, ha.parentEsp0]
    exact h.parent t ht p hp hr
  · simp only [ha.executePid, ha.currentPid] at hc ⊢
    obtain ⟨h₁, h₂⟩ := h.saved t ht hc
    rw [hctx]
    refine ⟨h₁, ?_⟩
    rw [ha.pcb]
    exact h₂
  · simp only [ha.pitTerminalNum]
    exact h.selected t ht

/-- A process that a step ends comes to `halt_256` with all of it. -/
theorem endsIn (h : Saved (s, hist) stack) {e : Step} (he : EndsIn img s e s') : Saved (s', hist) stack := by
  have hst := he.stacks h.chains
  cases he with
  | call _ hc _ => exact h.aside hc.still.quiet.toAside hst.terminal
  | write hc _ => exact h.aside hc.still.quiet.toAside hst.terminal
  | load _ _ _ => exact ⟨hst, h.esp0, h.parent, h.saved, h.selected⟩

theorem dispatch (h : Saved (s, hist) stack) {esp ebp : Nat} (hd : Dispatched (saveContext s esp ebp) s') :
    Saved (s', ⟨Function.update hist.last s.currentPid (some (esp, ebp, s.tssEsp0)), some s'.pitTerminalNum⟩) stack := by
  have hlt : s'.pitTerminalNum < 3 := by
    rw [hd.pitTerminalNum]
    exact Nat.mod_lt _ (by decide)
  have hpcb : ∀ p, ((saveContext s esp ebp).pcb p).parentId = (s.pcb p).parentId ∧
      ((saveContext s esp ebp).pcb p).parentEsp0 = (s.pcb p).parentEsp0 := fun p => by
    rw [saveContext_pcb]
    split <;> exact ⟨rfl, rfl⟩
  refine ⟨h.chains.dispatched hd, ?_, fun t ht p hp hr => ?_, fun t ht _ => ?_, fun t ht => Option.some.inj ht⟩
  · simp only [hd.tssEsp0, hd.currentPid]
    exact (h.all esp ebp hlt).2
  · simp only [hd.pcb, (hpcb p).1, (hpcb p).2] at hr ⊢
    exact h.parent t ht p hp hr
  · simp only [hd.executePid, hd.pcb]
    exact h.all esp ebp ht

/-- A process is started with its parent's terminal displayed. -/
theorem start (h : Saved (s, hist) stack) (ht : s.terminalNum = s.curPcb.tty) {n : Nat} (hf : freePid s = some n)
    (k : ExecuteFrame) (page args : Nat → Byte) :
    Saved (started s k n page args, { hist with last := Function.update hist.last n none })
      (Function.update stack s.terminalNum ((n : Int) :: stack s.terminalNum)) := by
  have hst := h.chains
  obtain ⟨hlt, hfree, -⟩ := freePid_eq_some hf
  refine ⟨(hst.started ht hlt hfree k page args).1, rfl, fun u hu p hp hr => ?_, fun u hu hc => ?_, h.selected⟩
  · by_cases hpn : p = n
    · simp only [hpn, started, Function.update_self, newPcb]
      exact h.esp0
    · simp only [started, Function.update_of_ne hpn] at hr ⊢
      refine h.parent u hu p ?_ hr
      rw [Function.update_apply] at hp
      split at hp
      · rename_i e
        rw [e]
        exact (List.mem_cons.mp hp).resolve_left hpn
      · exact hp
  · -- the terminals but the displayed one are as they were
    have hut : u ≠ s.terminalNum := fun e => hc (by simp only [started, e, Function.update_self])
    have hn : s.executePid u ≠ (n : Int) := fun e => hst.not_mem_free hfree hu (e ▸ (hst.chain u hu).head_mem)
    simp only [started, Function.update_of_ne hut, Function.update_of_ne hn]
    exact h.saved u hu (hst.executePid_ne hu (ht ▸ hut))

/-- A process halts and its parent runs. -/
theorem resume (h : Saved (s, hist) stack) {status : Nat} (hr : s.curPcb.parentId ≠ s.currentPid)
    (hs : Resumed s status s') :
    Saved (s', hist) (Function.update stack s.curPcb.tty (stack s.curPcb.tty).tail) := by
  have hst := h.chains
  obtain ⟨h₃, hc, hch⟩ := hst.current_eq
  obtain ⟨l, -, hpar⟩ := hch.eq_cons hr
  have htty : (s.pcb s.curPcb.parentId).tty = s.curPcb.tty := hpar.member_head.tty
  refine ⟨(hst.resumed hs hr).1, ?_, fun u hu p hp hself => ?_, fun u hu hne => ?_, fun t ht => ?_⟩
  · simp only [hs.tssEsp0, hs.currentPid]
    exact h.parent _ h₃ s.currentPid hch.head_mem hr
  · simp only [hs.parentId] at hself
    simp only [hs.parentId, hs.parentEsp0]
    refine h.parent u hu p ?_ hself
    rw [Function.update_apply] at hp
    split at hp
    · rename_i e
      rw [e]
      exact List.mem_of_mem_tail hp
    · exact hp
  · have hut : u ≠ s.curPcb.tty := fun e => hne (by
      simp only [hs.executePid, htty, e, Function.update_self, hs.currentPid])
    simp only [hs.executePid, htty, Function.update_of_ne hut]
    obtain ⟨h₁, h₂⟩ := h.saved u hu (hst.executePid_ne hu hut)
    rw [hs.pcb]
    exact ⟨h₁, h₂⟩
  · simp only [hs.pitTerminalNum]
    exact h.selected t ht

/-- A root shell halts with its terminal displayed, and another one runs in its place. -/
theorem restart (h : Saved (s, hist) stack) {status : Nat} {s₂ : State} (hr : s.curPcb.parentId = s.currentPid)
    (hf : Freed s status s₂) (ht : s.terminalNum = s.curPcb.tty) (k : ExecuteFrame) (page args : Nat → Byte) :
    Saved (started s₂ k s.curPcb.tty page args,
      { hist with last := Function.update hist.last (s.curPcb.tty : Nat) none }) stack := by
  have hst := h.chains
  obtain ⟨hp, -⟩ := hst.root_eq hr
  refine ⟨(hst.restarted hf hr ht k page args).1, rfl, fun u hu p hmem hpar => ?_, fun u hu hne => ?_, fun t ht => ?_⟩
  · by_cases hpt : p = (s.curPcb.tty : Nat)
    · simp only [hpt, started, Function.update_self, newPcb, hf.currentPid] at hpar
      exact absurd hp hpar
    · simp only [started, Function.update_of_ne hpt, hf.parentId] at hpar
      simp only [started, Function.update_of_ne hpt, hf.parentId, hf.parentEsp0]
      exact h.parent u hu p hmem hpar
  · have hut : u ≠ s.curPcb.tty := fun e => hne (by
      simp only [started, e, hf.terminalNum, ht, Function.update_self])
    have hu' := hst.executePid_ne hu hut
    have hn : s.executePid u ≠ (s.curPcb.tty : Nat) := by rwa [← hp]
    simp only [started, hf.terminalNum, ht, Function.update_of_ne hut, hf.executePid, Function.update_of_ne hn]
    obtain ⟨h₁, h₂⟩ := h.saved u hu hu'
    rw [hf.pcb]
    exact ⟨h₁, h₂⟩
  · simp only [started, hf.pitTerminalNum]
    exact h.selected t ht

/-- A step from the running shells on. -/
theorem step (hs : HasShell img) {e : Step} (h : Saved (s, hist) stack) (hok : OwnTerminal img s e)
    (hstep : step img s e = some s') : ∃ stack', Saved (s', schedUpd img s e hist) stack' := by
  have hst := h.chains
  have hm := step_move hs hst hstep
  generalize hn : startedPid img s e = n at hm
  cases hm with
  | aside ha hlt hns =>
    have he : ∀ esp ebp k, e ≠ .tick esp ebp k := by
      rintro esp ebp k rfl
      exact hns trivial
    rw [schedUpd_eq he, hn]
    exact ⟨_, h.aside ha hlt⟩
  | start hst' _ hf =>
    simp only [schedUpd, hn]
    exact ⟨_, h.start (hok hst' (by rw [hf]; rfl)) hf _ _ _⟩
  | resume he hp hr =>
    rw [schedUpd_eq he.ne_tick, hn]
    exact ⟨_, (h.endsIn he).resume hp hr⟩
  | restart he hp hf _ =>
    rw [schedUpd_eq he.ne_tick, hn]
    exact ⟨_, (h.endsIn he).restart hp hf (hok.of_endsIn he hp) _ _ _⟩
  | @dispatch esp ebp k s' hd =>
    have ht := taskSwitch_dispatches img (fun i hi => hst.root_inUse hi) esp ebp k
    obtain ⟨s₁, hd₁, he⟩ := dispatch_eq (saveContext s esp ebp)
    rw [he] at ht
    simp only [schedUpd, hn, ht, hd₁.pitTerminalNum, ← hd.pitTerminalNum]
    exact ⟨_, h.dispatch hd⟩

end Saved

/-! ## Boot -/

/-- The first `i` shells have been started, by one tick each. -/
structure Booting (i : Nat) (q : State × SchedHist) : Prop where
  pidFlags : ∀ p, 0 ≤ p → p < 6 → (q.1.pidFlags p = .IN_USE ↔ p < i)
  pcb : ∀ t < i, (q.1.pcb (t : Nat)).parentId = (t : Nat) ∧ (q.1.pcb (t : Nat)).tty = t
  executePid : ∀ t < i, q.1.executePid t = (t : Nat)
  current : ∀ t, t + 1 = i → q.1.currentPid = (t : Nat) ∧ q.1.tssEsp0 = kernelStackTop (t : Nat)
  saved : ∀ t, t + 1 < i → q.2.last (t : Nat) = some (savedContext (q.1.pcb (t : Nat))) ∧
    (q.1.pcb (t : Nat)).schedEsp0 = kernelStackTop (t : Nat)
  selected : q.2.selected = none
  terminalNum : q.1.terminalNum < 3

/-- No process has been interrupted and no terminal selected. -/
def noHist : SchedHist := ⟨fun _ => none, none⟩

theorem booting_boot : Booting 0 (boot, noHist) := by
  refine ⟨fun p h₀ _ => ?_, fun t ht => absurd ht (by omega), fun t ht => absurd ht (by omega),
    fun t ht => absurd ht (by omega), fun t ht => absurd ht (by omega), rfl, by decide⟩
  show PidStatus.FREE = .IN_USE ↔ p < (0 : Nat)
  constructor
  · intro h
    cases h
  · omega

/-- A tick with its pointers and its frame. -/
def tickOf (b : Nat × Nat × ExecuteFrame) : Step := .tick b.1 b.2.1 b.2.2

namespace Booting

variable {i : Nat}

theorem freePid_eq (h : Booting i (s, hist)) (hi : i < 3) : freePid s = some i := by
  have hfree : s.pidFlags (i : Nat) ≠ .IN_USE := fun e => by
    have := (h.pidFlags i (by omega) (by omega)).mp e
    omega
  cases hf : freePid s with
  | none => exact absurd (freePid_eq_none hf i (by simp only [MAX_PID]; omega)) hfree
  | some n =>
    obtain ⟨hn, hfn, hlow⟩ := freePid_eq_some hf
    simp only [MAX_PID] at hn
    rcases Nat.lt_trichotomy n i with hlt | rfl | hlt
    · have hu : s.pidFlags (n : Nat) = .IN_USE := (h.pidFlags n (by omega) (by omega)).mpr (by omega)
      rw [hfn] at hu
      cases hu
    · rfl
    · exact absurd (hlow i hlt) hfree

/-- A tick starts the next shell. -/
theorem tick (hs : HasShell img) (h : Booting i (s, hist)) (hi : i < 3) {esp ebp : Nat} {k : ExecuteFrame}
    (hstep : LimeOS.step img s (.tick esp ebp k) = some s') :
    Booting (i + 1) (s', schedUpd img s (.tick esp ebp k) hist) := by
  obtain ⟨page, args, target, ht⟩ := taskSwitch_starts hs hi (h.freePid_eq hi) esp ebp k
  rw [LimeOS.step, ht] at hstep
  obtain rfl := Option.some.inj hstep
  have hne : ∀ t < i, ((t : Nat) : Int) ≠ (i : Nat) := fun t ht => by omega
  have hpcb : ∀ t < i, ((saveContext s esp ebp).pcb (t : Nat)).parentId = (s.pcb (t : Nat)).parentId ∧
      ((saveContext s esp ebp).pcb (t : Nat)).tty = (s.pcb (t : Nat)).tty := fun t _ => by
    rw [saveContext_pcb]
    split <;> exact ⟨rfl, rfl⟩
  simp only [schedUpd, startedPid, handledPid, ht, TickResult.state]
  refine ⟨fun p h₀ h₆ => ?_, fun t ht => ?_, fun t ht => ?_, fun t ht => ?_, fun t ht => ?_, h.selected, ?_⟩
  · show Function.update s.pidFlags i .IN_USE p = .IN_USE ↔ p < ((i + 1 : Nat) : Int)
    by_cases hp : p = i
    · rw [hp, Function.update_self]
      exact ⟨fun _ => by omega, fun _ => rfl⟩
    · rw [Function.update_of_ne hp]
      have := h.pidFlags p h₀ h₆
      simp only at this
      rw [this]
      omega
  · by_cases hti : t = i
    · rw [hti]
      simp only [started, Function.update_self]
      exact ⟨rfl, rfl⟩
    · simp only [started, Function.update_of_ne (hne t (by omega))]
      have h₁ := hpcb t (by omega)
      have h₂ := h.pcb t (by omega)
      exact ⟨h₁.1.trans h₂.1, h₁.2.trans h₂.2⟩
  · by_cases hti : t = i
    · rw [hti]
      exact Function.update_self _ _ _
    · refine (Function.update_of_ne hti _ _).trans ?_
      exact h.executePid t (by omega)
  · obtain rfl : t = i := by omega
    exact ⟨rfl, rfl⟩
  · have hlt : t < i := by omega
    have hb : (started (shellCaller (saveContext s esp ebp) i) k i page args).pcb (t : Nat) =
        (saveContext s esp ebp).pcb (t : Nat) := Function.update_of_ne (hne t hlt) _ _
    simp only [hb]
    rw [show (started (shellCaller (saveContext s esp ebp) i) k i page args).currentPid = (i : Int) from rfl,
      Function.update_of_ne (hne t hlt), saveContext_pcb]
    by_cases hc : ((t : Nat) : Int) = s.currentPid
    · rw [if_pos hc, ← hc, Function.update_self]
      refine ⟨rfl, ?_⟩
      by_cases hti : t + 1 = i
      · exact (h.current t hti).2
      · -- the shell before the last is not the current process
        have := (h.current (i - 1) (by omega)).1
        simp only at this
        omega
    · rw [if_neg hc, Function.update_of_ne hc]
      have hti : t + 1 ≠ i := fun e => hc (h.current t e).1.symm
      exact h.saved t (by omega)
  · show i < 3
    exact hi

theorem loadsLast (hs : HasShell img) (h : Booting i (s, hist)) (hi : i < 3) : LoadsLast img (s, hist) := by
  intro esp ebp k esp' ebp' s' ht
  obtain ⟨page, args, target, ht'⟩ := taskSwitch_starts hs hi (h.freePid_eq hi) esp ebp k
  rw [ht'] at ht
  cases ht

theorem saved_three (h : Booting 3 (s, hist)) : Saved (s, hist) fun t => [((t : Nat) : Int)] := by
  obtain ⟨hc, htss⟩ := h.current 2 rfl
  refine ⟨stacks_of_shells h.pidFlags h.pcb h.executePid ⟨2, by decide, hc⟩ h.terminalNum, ?_,
    fun t ht p hp hne => ?_, fun t ht hne => ?_, fun t ht => ?_⟩
  · simp only at hc htss ⊢
    rw [htss, hc]
  · rw [List.mem_singleton] at hp
    rw [hp] at hne
    exact absurd (h.pcb t ht).1 hne
  · have he : s.executePid t = (t : Nat) := h.executePid t ht
    simp only at hc
    simp only [he, hc] at hne ⊢
    exact h.saved t (by omega)
  · rw [h.selected] at ht
    cases ht

/-- One of the first ticks, and what follows it. -/
theorem always_cons (hs : HasShell img) {q : State × SchedHist} (h : Booting i q) (hi : i < 3)
    (b : Nat × Nat × ExecuteFrame) {es : List Step}
    (hrest : ∀ q', LimeOS.step img q.1 (tickOf b) = some q'.1 → Booting (i + 1) q' →
      Always (withHistory (LimeOS.step img) (schedUpd img)) (LoadsLast img) q' es) :
    Always (withHistory (LimeOS.step img) (schedUpd img)) (LoadsLast img) q (tickOf b :: es) := by
  refine ⟨h.loadsLast hs hi, fun q' hq => ?_⟩
  obtain ⟨hstep, he⟩ := withHistory_eq_some hq
  have hnext := h.tick hs hi hstep
  refine hrest q' hstep ?_
  have hq' : q' = (q'.1, schedUpd img q.1 (tickOf b) q.2) := by rw [← he]
  rw [hq']
  exact hnext

end Booting

end

/-- From boot, with the three ticks that start the shells first and any steps after them,
processes being started with the terminal of their parent displayed: every tick that
dispatches a process loads the context it was last interrupted with. -/
theorem dispatch_ok {img : Image} (hs : HasShell img) (b₁ b₂ b₃ : Nat × Nat × ExecuteFrame) {es : List Step}
    (hg : Guarded (step img) (OwnTerminal img) boot (tickOf b₁ :: tickOf b₂ :: tickOf b₃ :: es)) :
    Always (withHistory (step img) (schedUpd img)) (LoadsLast img) (boot, noHist)
      (tickOf b₁ :: tickOf b₂ :: tickOf b₃ :: es) := by
  refine booting_boot.always_cons hs (by decide) b₁ fun q₁ hq₁ h₁ => ?_
  refine h₁.always_cons hs (by decide) b₂ fun q₂ hq₂ h₂ => ?_
  refine h₂.always_cons hs (by decide) b₃ fun q₃ hq₃ h₃ => ?_
  have hg₃ := ((((hg _ hq₁).2 _ hq₂).2) _ hq₃).2
  refine Guarded.always (I := fun q => ∃ stack, Saved q stack) (fun q ⟨stack, h⟩ => h.loadsLast)
    (fun q e q' ⟨stack, h⟩ hok hq => ?_) ⟨_, h₃.saved_three⟩ (Guarded.withHistory q₃.2 hg₃)
  obtain ⟨hstep, he⟩ := withHistory_eq_some hq
  have hsaved := Saved.step hs h hok hstep
  rwa [← he] at hsaved

/-- Six ticks from boot bring back the first shell, on the displayed terminal. -/
def sixTicks : List Step := List.replicate 6 (tickOf (0, 0, emptyFrame))

theorem dispatch_ok_sixTicks :
    Guarded (step shellImage) (OwnTerminal shellImage) boot
        (sixTicks ++ [.execute (some shellCommand) emptyFrame, tickOf (1, 2, emptyFrame)]) ∧
      Always (withHistory (step shellImage) (schedUpd shellImage)) (LoadsLast shellImage) (boot, noHist)
        (sixTicks ++ [.execute (some shellCommand) emptyFrame, tickOf (1, 2, emptyFrame)]) := by
  have hg : Guarded (step shellImage) (OwnTerminal shellImage) boot
      (sixTicks ++ [.execute (some shellCommand) emptyFrame, tickOf (1, 2, emptyFrame)]) := by
    refine guarded_append (guarded_of_forall fun e he s => ?_) fun s' hr => ?_
    · rw [List.eq_of_mem_replicate he]
      exact fun h => h.elim
    · have hown : (run (step shellImage) boot sixTicks).map (fun s => (s.terminalNum, s.curPcb.tty)) = some (0, 0) := by
        decide +kernel
      rw [hr] at hown
      obtain ⟨h₁, h₂⟩ := Prod.mk.inj (Option.some.inj hown)
      exact fun _ _ => ⟨fun _ _ => h₁.trans h₂.symm, fun _ _ => ⟨fun h => h.elim, trivial⟩⟩
  exact ⟨hg, dispatch_ok shellImage_hasShell _ _ _ hg⟩

end LimeOS
