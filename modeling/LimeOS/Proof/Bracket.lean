import LimeOS.Proof.Processes
import LimeOS.Proof.Descriptors

/-!
# `execute` and `halt` as a bracket

What a process does between its start and its end is a nest of calls (`Body`):
its own calls and interrupts, `execute`s that return, and whole processes that
it starts and that end. A body leaves everything as it found it but the slots of
free pids and, of its own control block, the descriptors, the arguments and the
return value (`Within`). So a process that ends gives back to its caller all that
`execute` took, unless an `execute` has ended it, or one that it started, by a page
fault: the pid that was to be loaded is not given back (`execute_halt`).
-/

namespace LimeOS

/-- The state in which the handler of a call's page fault is entered. -/
def faultState {α : Type} : Except Fault α → Option State
  | .error (.pageFault s) => some s
  | _ => none

/-- How a process ends. -/
inductive Ending
  | halt (status : Byte)
  /-- An exception in its program. -/
  | exception (v : Fin 20)
  /-- A page fault in one of its calls. -/
  | fd (c : FdCall)
  | getargs (buf : Option Buffer) (nbytes : Int)
  | vidmap (screenStart : Nat)
  | execute (command : Option CString) (k : ExecuteFrame)

namespace Ending

/-- The state in which it comes to `halt_256`, if it ends so. -/
def enters (img : Image) (s : State) : Ending → Option State
  | .halt _ => some s
  | .exception v => some (printfMessage s (str (exceptionMessage v)))
  | .fd c => (faultState (fdCall img s c)).map handler
  | .getargs buf nbytes => (faultState (getargsThrough s buf nbytes)).map handler
  | .vidmap screenStart => (faultState (LimeOS.vidmap s screenStart)).map handler
  | .execute command k => (faultState (LimeOS.execute img s command k)).map handler
where
  /-- The handler of a page fault. -/
  handler (s : State) : State := printfMessage s (str (exceptionMessage PF))

/-- What `execute` returns for it. -/
def value : Ending → Nat
  | .halt status => status.toNat
  | _ => 256

/-- How many pids it leaves taken. -/
def leaks : Ending → Nat
  | .execute _ _ => 1
  | _ => 0

/-- What it comes to, with the frame of the `execute` that follows a root shell. -/
def exec (img : Image) (s : State) (k : ExecuteFrame) (e : Ending) : Option HaltResult :=
  (e.enters img s).bind fun s => (halt256 img s e.value k).toOption

end Ending

/-- A call on descriptors or arguments of the process itself that returns, or an interrupt of a device. -/
def ownStep (img : Image) (s : State) : Step → Option State
  | .key c => some (keyboardHandler s c)
  | .rtc => some (rtcHandler s)
  | .fd c _ => (fdCall img s c).toOption.map (·.2.2)
  | .getargs buf nbytes _ => (getargsThrough s buf nbytes).toOption.map (·.2.2)
  | .vidmap screenStart _ => (vidmap s screenStart).toOption.map Prod.snd
  | _ => none

/-- What the current process can do without ending, when no tick comes, and how many `execute`s end a process
in it by a page fault. -/
inductive Body (img : Image) : Nat → State → State → Prop
  | done (s : State) : Body img 0 s s
  | own {n : Nat} {s s₁ s' : State} {e : Step} : ownStep img s e = some s₁ → Body img n s₁ s' → Body img n s s'
  | fails {n : Nat} {s s₁ s' : State} {command : Option CString} {k : ExecuteFrame} {v : Int} :
      execute img s command k = .ok (.returns v s₁) → Body img n s₁ s' → Body img n s s'
  | nests {n n' : Nat} {s s₁ s₂ s₃ s' : State} {command : Option CString} {k k' : ExecuteFrame} {target esp ebp : Nat}
      {e : Ending} {v : Int} : execute img s command k = .ok (.starts s₁ target) → Body img n s₁ s₂ →
      e.exec img s₂ k' = some (.resumes v esp ebp s₃) → Body img n' s₃ s' → Body img (n + e.leaks + n') s s'

/-- From `f` to `f'` pids have only been taken, some if `n` is not 0. -/
structure Taken (n : Nat) (f f' : Int → PidStatus) : Prop where
  inUse : ∀ p, f p = .IN_USE → f' p = .IN_USE
  eq_iff : f' = f ↔ n = 0

namespace Taken

variable {m n : Nat} {f f₁ f' : Int → PidStatus}

theorem refl (f : Int → PidStatus) : Taken 0 f f := ⟨fun _ h => h, fun _ => rfl, fun _ => rfl⟩

theorem of_eq (h : f' = f) : Taken 0 f f' := h ▸ refl f

/-- What is taken and what is not cannot both be. -/
theorem antisymm (h : ∀ p, f p = .IN_USE → f' p = .IN_USE) (h' : ∀ p, f' p = .IN_USE → f p = .IN_USE) : f' = f := by
  funext p
  cases e : f p with
  | IN_USE => exact h p e
  | FREE =>
    by_contra hne
    rw [h' p (PidStatus.ne_FREE.mp hne)] at e
    cases e

theorem trans (h₁ : Taken m f f₁) (h₂ : Taken n f₁ f') : Taken (m + n) f f' := by
  refine ⟨fun p hp => h₂.inUse p (h₁.inUse p hp), fun e => ?_, fun e => ?_⟩
  · have hm : f₁ = f := antisymm h₁.inUse fun p hp => e ▸ h₂.inUse p hp
    have hn := h₂.eq_iff.mp (e.trans hm.symm)
    have := h₁.eq_iff.mp hm
    omega
  · rw [h₂.eq_iff.mpr (by omega), h₁.eq_iff.mpr (by omega)]

/-- A pid that is free. -/
theorem take {p : Int} (hp : f p = .FREE) : Taken 1 f (Function.update f p .IN_USE) := by
  refine ⟨fun q hq => ?_, fun e => ?_, fun e => by cases e⟩
  · rw [Function.update_apply]
    split
    · rfl
    · exact hq
  · have := congrFun e p
    rw [Function.update_self, hp] at this
    cases this

/-- One that was free is given back. -/
theorem free {p : Int} (hp : f p = .FREE) (h : Taken n (Function.update f p .IN_USE) f') :
    Taken n f (Function.update f' p .FREE) := by
  have hne : ∀ q, f q = .IN_USE → q ≠ p := fun q hq e => by
    rw [e, hp] at hq
    cases hq
  refine ⟨fun q hq => ?_, ?_⟩
  · rw [Function.update_of_ne (hne q hq)]
    exact h.inUse q (by rwa [Function.update_of_ne (hne q hq)])
  · rw [← h.eq_iff]
    constructor
    · intro e
      refine antisymm h.inUse fun q hq => ?_
      by_cases hqp : q = p
      · rw [hqp, Function.update_self]
      · have := congrFun e q
        rw [Function.update_of_ne hqp] at this
        rw [Function.update_of_ne hqp, ← this, hq]
    · intro e
      rw [e, Function.update_idem, ← hp, Function.update_eq_self]

end Taken

/-- What a body leaves as it was. -/
structure Within (img : Image) (n : Nat) (s s' : State) : Prop where
  currentPid : s'.currentPid = s.currentPid
  pidFlags : Taken n s.pidFlags s'.pidFlags
  programPde : s'.programPde = s.programPde
  tssEsp0 : s'.tssEsp0 = s.tssEsp0
  own : s'.curPcb = { s.curPcb with
    fdEntry := s'.curPcb.fdEntry, args := s'.curPcb.args, returnValue := s'.curPcb.returnValue }
  other : ∀ p ≠ s.currentPid, s.pidFlags p = .IN_USE → s'.pcb p = s.pcb p
  slots : Slots img s.curPcb.fdEntry → Slots img s'.curPcb.fdEntry

section

variable {img : Image} {n m : Nat} {s s₁ s₂ s₃ s' : State}

namespace Within

theorem refl (s : State) : Within img 0 s s := ⟨rfl, .refl _, rfl, rfl, rfl, fun _ _ _ => rfl, id⟩

theorem trans (h₁ : Within img m s s₁) (h₂ : Within img n s₁ s₂) : Within img (m + n) s s₂ where
  currentPid := h₂.currentPid.trans h₁.currentPid
  pidFlags := h₁.pidFlags.trans h₂.pidFlags
  programPde := h₂.programPde.trans h₁.programPde
  tssEsp0 := h₂.tssEsp0.trans h₁.tssEsp0
  own := by rw [h₂.own, h₁.own]
  other := fun p hp hu => (h₂.other p (by rwa [h₁.currentPid]) (h₁.pidFlags.inUse p hu)).trans (h₁.other p hp hu)
  slots := fun h => h₂.slots (h₁.slots h)

theorem aside (h : Aside s s₁) (hs : Slots img s.curPcb.fdEntry → Slots img s₁.curPcb.fdEntry) : Within img 0 s s₁ := by
  refine ⟨h.currentPid, .of_eq h.pidFlags, h.programPde, h.tssEsp0, ?_, fun p hp _ => h.other p hp, hs⟩
  rw [State.curPcb, h.currentPid, h.pcb]
  rfl

theorem still (h : Still s s₁) : Within img 0 s s₁ := aside h.quiet.toAside (by rw [h.curPcb]; exact id)

/-- The process goes on, in use and with its page in place. -/
theorem runs (h : Within img n s s₁) (hu : s.pidFlags s.currentPid = .IN_USE)
    (hpde : s.programPde = programFrame s.currentPid) :
    s₁.pidFlags s₁.currentPid = .IN_USE ∧ s₁.programPde = programFrame s₁.currentPid := by
  rw [h.currentPid]
  exact ⟨h.pidFlags.inUse _ hu, h.programPde.trans hpde⟩

end Within

theorem own_within {e : Step} (hs : ownStep img s e = some s₁) : Within img 0 s s₁ := by
  cases e with
  | key c =>
    obtain rfl := Option.some.inj hs
    exact .still (keyboardHandler_still s c)
  | rtc =>
    obtain rfl := Option.some.inj hs
    exact .still (rtcHandler_still s)
  | fd c k =>
    obtain ⟨r, hr, rfl⟩ := toOption_map_eq_some.mp hs
    exact .aside (fdCall_steady hr).toAside (fdCall_move hr).slots
  | getargs buf nbytes k =>
    obtain ⟨r, hr, rfl⟩ := toOption_map_eq_some.mp hs
    rw [getargsThrough_eq_ok hr]
    refine .aside (getargs_aside s _ nbytes) ?_
    rw [getargs_fdEntry]
    exact id
  | vidmap screenStart k =>
    obtain ⟨r, hr, rfl⟩ := toOption_map_eq_some.mp hs
    exact .still (vidmap_still hr)
  | _ => cases hs

/-! ## The end of a process -/

theorem Slots.sysClose_ok (h : Slots img s.curPcb.fdEntry) (n : Nat) : ∃ r, sysClose s n = .ok r := by
  by_cases hn : (n : Int) < 2 ∨ (n : Int) ≥ MAX_FD_NUM
  · exact ⟨_, if_pos hn⟩
  by_cases hf : (s.curPcb.fdEntry n).flags = .FREE
  · refine ⟨(-1, s), ?_⟩
    simp only [sysClose, hn, Int.toNat_natCast, hf, if_true, if_false]
  · exact ⟨_, h.sysClose_eq (by omega) (by simp only [MAX_FD_NUM] at *; omega) (PidStatus.ne_FREE.mp hf)⟩

theorem Slots.closeAll_ok (h : Slots img s.curPcb.fdEntry) : ∃ s', closeAll s = .ok s' := by
  have hl : ∀ (l : List Nat) (s : State), Slots img s.curPcb.fdEntry →
      ∃ s', l.foldlM (fun s (i : Nat) => (sysClose s i).map Prod.snd) s = Except.ok (ε := Fault) s' := by
    intro l
    induction l with
    | nil => exact fun s _ => ⟨s, rfl⟩
    | cons i l ih =>
      intro s h
      obtain ⟨r, hr⟩ := h.sysClose_ok i
      obtain ⟨s', hs'⟩ := ih r.2 ((sysClose_move hr).slots h)
      refine ⟨s', ?_⟩
      rw [List.foldlM_cons, hr]
      exact hs'
  exact hl _ s h

/-- A process with a parent ends. -/
theorem halt256_resumes (hs : Slots img s.curPcb.fdEntry) (hp : s.curPcb.parentId ≠ s.currentPid) (status : Nat)
    (k : ExecuteFrame) : ∃ s', halt256 img s status k =
      .ok (.resumes (toI32 status) s.curPcb.parentEsp s.curPcb.parentEbp s') ∧ Resumed s status s' := by
  have hslots : Slots img
      (s.setPcb s.curPcb.parentId { s.pcb s.curPcb.parentId with returnValue := status }).curPcb.fdEntry := by
    show Slots img (Function.update s.pcb s.curPcb.parentId _ s.currentPid).fdEntry
    rw [Function.update_of_ne (Ne.symm hp)]
    exact hs
  obtain ⟨s₁, hc⟩ := hslots.closeAll_ok
  have hr : ∃ r, halt256 img s status k = .ok r := by
    have hpar : (s₁.pcb s.currentPid).parentId = s.curPcb.parentId := (Freed.of_closeAll hc).parentId s.currentPid
    simp only [halt256, hc, hpar, if_neg (Ne.symm hp)]
    exact ⟨_, rfl⟩
  obtain ⟨r, hr⟩ := hr
  rcases halt256_eq_ok hr with ⟨-, s', rfl, hres⟩ | ⟨hp', -⟩
  · exact ⟨s', hr, hres⟩
  · exact absurd hp' hp

theorem faultState_eq_some {α : Type} {r : Except Fault α} (h : faultState r = some s) : r = .error (.pageFault s) := by
  unfold faultState at h
  split at h
  · rw [Option.some.inj h]
  · cases h

/-- A process comes to `halt_256` as it is, but for the pids that it leaves taken. -/
theorem Ending.enters_eq_some {e : Ending} (h : e.enters img s = some s₁) :
    s₁.currentPid = s.currentPid ∧ s₁.pcb = s.pcb ∧ Taken e.leaks s.pidFlags s₁.pidFlags := by
  have hcaught : ∀ {s₁ s₂ : State}, Caught s s₂ → s₁ = Ending.enters.handler s₂ →
      s₁.currentPid = s.currentPid ∧ s₁.pcb = s.pcb ∧ Taken 0 s.pidFlags s₁.pidFlags := by
    rintro s₁ s₂ hc rfl
    have hf := printfMessage_frame s₂ (str (exceptionMessage PF))
    exact ⟨hf.currentPid.trans hc.still.quiet.currentPid, hf.pcb.trans hc.pcb,
      .of_eq (hf.still.quiet.pidFlags.trans hc.still.quiet.pidFlags)⟩
  cases e with
  | halt status =>
    cases h
    exact ⟨rfl, rfl, .refl _⟩
  | exception v =>
    cases h
    have hf := printfMessage_frame s (str (exceptionMessage v))
    exact ⟨hf.currentPid, hf.pcb, .of_eq hf.still.quiet.pidFlags⟩
  | fd c =>
    obtain ⟨s₂, hs, rfl⟩ := Option.map_eq_some_iff.mp h
    exact hcaught (fdCall_eq_fault (faultState_eq_some hs)).1 rfl
  | getargs buf nbytes =>
    obtain ⟨s₂, hs, rfl⟩ := Option.map_eq_some_iff.mp h
    exact hcaught (getargsThrough_eq_fault (faultState_eq_some hs)).1 rfl
  | vidmap screenStart =>
    obtain ⟨s₂, hs, rfl⟩ := Option.map_eq_some_iff.mp h
    exact hcaught (vidmap_eq_fault (faultState_eq_some hs) ▸ .refl s) rfl
  | execute command k =>
    obtain ⟨s₂, hs, rfl⟩ := Option.map_eq_some_iff.mp h
    obtain ⟨-, -, n, page, hn, rfl⟩ := execute_eq_fault (faultState_eq_some hs)
    have hf := printfMessage_frame (loading s n page) (str (exceptionMessage PF))
    exact ⟨hf.currentPid, hf.pcb, hf.still.quiet.pidFlags ▸ .take (freePid_eq_some hn).2.1⟩

theorem Ending.exec_resumes (hs : Slots img s.curPcb.fdEntry) (hp : s.curPcb.parentId ≠ s.currentPid) {e : Ending}
    (he : e.enters img s = some s₁) (k : ExecuteFrame) : ∃ s', e.exec img s k =
      some (.resumes e.value s.curPcb.parentEsp s.curPcb.parentEbp s') ∧ Resumed s₁ e.value s' := by
  obtain ⟨hcur, hpcb, -⟩ := Ending.enters_eq_some he
  have hc : s₁.curPcb = s.curPcb := by rw [State.curPcb, hcur, hpcb, State.curPcb]
  have hv : e.value < 2 ^ 31 := by
    cases e with
    | halt status =>
      simp only [Ending.value]
      omega
    | _ => exact (by decide : 256 < 2 ^ 31)
  obtain ⟨s', hr, hres⟩ := halt256_resumes (hc ▸ hs) (by rwa [hc, hcur]) e.value k
  rw [toI32_natCast hv, hc] at hr
  refine ⟨s', ?_, hres⟩
  rw [Ending.exec, he, Option.bind_some, hr]
  rfl

/-! ## The bracket -/

theorem started_inUse (s : State) (k : ExecuteFrame) (n : Nat) (page args : Nat → Byte) :
    (started s k n page args).pidFlags (started s k n page args).currentPid = .IN_USE :=
  Function.update_self _ _ _

/-- A process is started by `s` and, after its body, ends: its caller has what it had, but for the pids that are
left taken. -/
theorem started_ends {k : ExecuteFrame} {p : Nat} {page args : Nat → Byte} (hu : s.pidFlags s.currentPid = .IN_USE)
    (hpde : s.programPde = programFrame s.currentPid) (hn : s.pidFlags p = .FREE)
    (hb : Within img n (started s k p page args) s₂) {e : Ending} (he : e.enters img s₂ = some s₁) (k' : ExecuteFrame) :
    ∃ s₃, e.exec img s₂ k' = some (.resumes e.value k.esp k.ebp s₃) ∧ s₃.currentPid = s.currentPid ∧
      Taken (n + e.leaks) s.pidFlags s₃.pidFlags ∧ s₃.programPde = s.programPde ∧ s₃.tssEsp0 = s.tssEsp0 ∧
      s₃.curPcb = { s.curPcb with returnValue := e.value } ∧
      ∀ q ≠ s.currentPid, s.pidFlags q = .IN_USE → s₃.pcb q = s.pcb q := by
  have hne : s.currentPid ≠ (p : Int) := fun h => by
    rw [h, hn] at hu
    cases hu
  have hnew : (started s k p page args).curPcb = newPcb s k p args := Function.update_self _ _ _
  have hown := hb.own
  rw [hnew] at hown
  have hpar : s₂.curPcb.parentId = s.currentPid := by rw [hown]; rfl
  have hcur : s₂.currentPid = (p : Int) := hb.currentPid
  have hslots : Slots img s₂.curPcb.fdEntry := hb.slots (by
    rw [hnew]
    exact (DescriptorTable.standard img _).slots)
  obtain ⟨s₃, hx, hr⟩ := Ending.exec_resumes hslots (by rw [hpar, hcur]; exact hne) he k'
  obtain ⟨hcur₁, hpcb₁, htaken⟩ := Ending.enters_eq_some he
  have hc₁ : s₁.curPcb = s₂.curPcb := by rw [State.curPcb, hcur₁, hpcb₁, State.curPcb]
  -- a process that was in use before the start is not touched by the body
  have hold : ∀ q ≠ (p : Int), s.pidFlags q = .IN_USE → s₁.pcb q = s.pcb q := by
    intro q hq hu
    rw [hpcb₁, hb.other q hq (by simp only [started, Function.update_of_ne hq]; exact hu)]
    exact Function.update_of_ne hq _ _
  have hafter : ∀ q ≠ (p : Int), s.pidFlags q = .IN_USE →
      s₃.pcb q = { s.pcb q with returnValue := if q = s.currentPid then e.value else (s.pcb q).returnValue } := by
    intro q hq hu
    rw [hr.pcb, hr.fdEntry q (by rwa [hcur₁, hcur]), hc₁, hpar, hold q hq hu]
  refine ⟨s₃, ?_, ?_, ?_, ?_, ?_, ?_, fun q hq hqu => ?_⟩
  · rw [hx, hown]
    rfl
  · rw [hr.currentPid, hc₁, hpar]
  · rw [hr.pidFlags, hcur₁, hcur]
    exact .free hn (hb.pidFlags.trans htaken)
  · rw [hr.programPde, hc₁, hpar, hpde]
  · rw [hr.tssEsp0, hc₁, hown]
    rfl
  · rw [State.curPcb, hr.currentPid, hc₁, hpar, hafter _ hne hu, if_pos rfl]
    rfl
  · rw [hafter q (fun h => by rw [h, hn] at hqu; cases hqu) hqu, if_neg hq]

/-- A body changes nothing of the processes in use but its own descriptors, arguments and return value. -/
theorem Body.within (h : Body img n s s') : s.pidFlags s.currentPid = .IN_USE →
    s.programPde = programFrame s.currentPid → Within img n s s' := by
  induction h with
  | done s => exact fun _ _ => .refl s
  | own hs _ ih =>
    intro hu hpde
    have h₁ := own_within hs
    obtain ⟨hu₁, hpde₁⟩ := h₁.runs hu hpde
    have h := h₁.trans (ih hu₁ hpde₁)
    rwa [Nat.zero_add] at h
  | fails hx _ ih =>
    intro hu hpde
    rcases execute_eq_ok hx with ⟨v, s₁, hv, hf, -⟩ | ⟨c, p, page, target, -, -, -, -, hv⟩
    · cases hv
      have h₁ : Within img 0 _ _ := .still hf.still
      obtain ⟨hu₁, hpde₁⟩ := h₁.runs hu hpde
      have h := h₁.trans (ih hu₁ hpde₁)
      rwa [Nat.zero_add] at h
    · cases hv
  | @nests n n' s s₁ s₂ s₃ s' command k k' target esp ebp e v hx _ hend _ ih₁ ih₂ =>
    intro hu hpde
    rcases execute_eq_ok hx with ⟨v, s₁, hv, -, -⟩ | ⟨c, p, page, target, -, -, -, hf, hv⟩
    · cases hv
    cases hv
    have hb := ih₁ (started_inUse ..) rfl
    obtain ⟨s₄, he, -⟩ := Option.bind_eq_some_iff.mp hend
    obtain ⟨s₃', hx', h₁, h₂, h₃, h₄, h₅, h₆⟩ := started_ends hu hpde (freePid_eq_some hf).2.1 hb he k'
    rw [hend] at hx'
    cases hx'
    have hw : Within img (n + e.leaks) s s₃ := by
      refine ⟨h₁, h₂, h₃, h₄, ?_, h₆, fun h => ?_⟩
      · rw [h₅]
      · rw [h₅]
        exact h
    obtain ⟨hu₃, hpde₃⟩ := hw.runs hu hpde
    exact hw.trans (ih₂ hu₃ hpde₃)

end

/-- Whatever a process does in between, with processes of its own nested to any depth, when it ends
`execute` returns its status to its caller, which has all that it had before; and the pids in use are those of
before exactly when no `execute` has ended a process by a page fault. -/
theorem execute_halt {img : Image} {n : Nat} {s s₁ s₂ s₃ : State} {command : Option CString} {k : ExecuteFrame}
    {target : Nat} (hu : s.pidFlags s.currentPid = .IN_USE) (hpde : s.programPde = programFrame s.currentPid)
    (hx : execute img s command k = .ok (.starts s₁ target)) (hb : Body img n s₁ s₂) {e : Ending}
    (he : e.enters img s₂ = some s₃) (k' : ExecuteFrame) :
    ∃ s₄, e.exec img s₂ k' = some (.resumes e.value k.esp k.ebp s₄) ∧ s₄.currentPid = s.currentPid ∧
      s₄.programPde = s.programPde ∧ s₄.tssEsp0 = s.tssEsp0 ∧ s₄.curPcb = { s.curPcb with returnValue := e.value } ∧
      (s₄.pidFlags = s.pidFlags ↔ n = 0 ∧ e.leaks = 0) := by
  rcases execute_eq_ok hx with ⟨v, s₁, hv, -, -⟩ | ⟨c, p, page, target, -, -, -, hf, hv⟩
  · cases hv
  cases hv
  have hw := hb.within (started_inUse ..) rfl
  obtain ⟨s₄, h₁, h₂, h₃, h₄, h₅, h₆, -⟩ := started_ends hu hpde (freePid_eq_some hf).2.1 hw he k'
  exact ⟨s₄, h₁, h₂, h₄, h₅, h₆, h₃.eq_iff.trans (by omega)⟩

/-- The second shell executes one that executes a third, which an exception ends; then it halts with 7. -/
theorem execute_halt_shellsState :
    ∃ s₁ s₂ s₄ target, execute shellImage shellsState (some shellCommand) emptyFrame = .ok (.starts s₁ target) ∧
      Body shellImage 0 s₁ s₂ ∧ s₂.currentPid = 3 ∧
      Ending.exec shellImage s₂ emptyFrame (.halt 7#8) =
        some (.resumes (7#8).toNat emptyFrame.esp emptyFrame.ebp s₄) ∧ s₄.currentPid = shellsState.currentPid ∧
      s₄.programPde = shellsState.programPde ∧ s₄.tssEsp0 = shellsState.tssEsp0 ∧
      s₄.curPcb = { shellsState.curPcb with returnValue := (7#8).toNat } ∧ s₄.pidFlags = shellsState.pidFlags := by
  have hu : shellsState.pidFlags shellsState.currentPid = .IN_USE := by decide +kernel
  have hpde : shellsState.programPde = programFrame shellsState.currentPid := by decide +kernel
  have hfree : freePid shellsState = some 3 := by decide +kernel
  obtain ⟨page, target, hx⟩ := execute_shell shellImage_hasShell shellsState emptyFrame hfree
  have hfree₁ : freePid (started shellsState emptyFrame 3 page (shellsState.pcb (3 : Nat)).args) = some 4 := by
    have h : ((List.range MAX_PID).find? fun i =>
        Function.update shellsState.pidFlags (3 : Nat) .IN_USE (i : Nat) = PidStatus.FREE) = some 4 := by decide +kernel
    exact h
  obtain ⟨page', target', hx'⟩ := execute_shell shellImage_hasShell _ emptyFrame hfree₁
  obtain ⟨s₂, hend, hcur₂, -⟩ := started_ends (started_inUse ..) rfl (freePid_eq_some hfree₁).2.1
    (Within.refl (started _ emptyFrame 4 page' _)) (e := .exception PF) rfl emptyFrame
  have hbody := Body.nests hx' (.done _) hend (.done s₂)
  obtain ⟨s₄, h₁, h₂, h₃, h₄, h₅, h₆⟩ := execute_halt hu hpde hx hbody (e := .halt 7#8) rfl emptyFrame
  exact ⟨_, s₂, s₄, target, hx, hbody, hcur₂, h₁, h₂, h₃, h₄, h₅, h₆.mpr ⟨rfl, rfl⟩⟩

/-! ## A file that is too long -/

/-- An `execute` ends its process exactly when it has a file to load that is too long, and a pid for it. -/
theorem Ending.enters_execute_iff {img : Image} {s : State} {command : Option CString} {k : ExecuteFrame} :
    ((Ending.execute command k).enters img s).isSome ↔
      Startable img command k ∧ TooLong img command k ∧ (freePid s).isSome := by
  rw [Ending.enters, Option.isSome_map]
  constructor
  · intro h
    obtain ⟨s₁, hs⟩ := Option.isSome_iff_exists.mp h
    obtain ⟨hst, hlong, n, page, hn, -⟩ := execute_eq_fault (faultState_eq_some hs)
    exact ⟨hst, hlong, by rw [hn]; rfl⟩
  · rintro ⟨hst, hlong, hf⟩
    obtain ⟨n, hn⟩ := Option.isSome_iff_exists.mp hf
    obtain ⟨page, hx⟩ := execute_fault hst hlong hn
    rw [hx]
    rfl

/-- An image with the executables `shell`, of 28 bytes, and `long`, of 28 bytes more than fit its page. -/
def longImage : Image := fun a =>
  if a = 0 ∨ a = 4 then 2#8
  else if a = 8 then 1#8
  else if 64 ≤ a ∧ a < 69 then shellCommand.1.getD (a - 64) 0#8
  else if a = 96 then 2#8
  else if 128 ≤ a ∧ a < 132 then (str "long").getD (a - 128) 0#8
  else if a = 160 then 2#8
  else if a = 164 then 1#8
  else if a = 4096 then 28#8
  else if 8192 ≤ a ∧ a < 8195 then [0x1c#8, 0x80#8, 0x3b#8].getD (a - 8192) 0#8
  else if 12288 ≤ a ∧ a < 12292 then magicNumber (a - 12288)
  else 0#8

def longCommand : CString := ⟨str "long", by decide⟩

theorem longImage_hasShell : HasShell longImage :=
  ⟨dentryAt longImage 0, by decide +kernel, by decide +kernel, by decide +kernel, by decide +kernel⟩

theorem longCommand_startable : Startable longImage (some longCommand) emptyFrame :=
  ⟨longCommand, dentryAt longImage 1, rfl, by decide +kernel, by decide +kernel, by decide +kernel, by decide +kernel⟩

theorem longCommand_tooLong : TooLong longImage (some longCommand) emptyFrame :=
  ⟨longCommand, dentryAt longImage 1, rfl, by decide +kernel, by decide +kernel⟩

/-- The state after one tick, with the first shell running. -/
def longState : State := (run (step longImage) boot [.tick 0 0 emptyFrame]).getD boot

/-- The first shell executes another one, which executes `long`: it ends, and the pid for `long` stays taken. -/
theorem longState_execute_leaks :
    (run (step longImage) boot [.tick 0 0 emptyFrame]).isSome ∧
      longState.pidFlags longState.currentPid = .IN_USE ∧ longState.programPde = programFrame longState.currentPid ∧
      ∃ s₁ s₄ target, execute longImage longState (some shellCommand) emptyFrame = .ok (.starts s₁ target) ∧
        Ending.exec longImage s₁ emptyFrame (.execute (some longCommand) emptyFrame) =
          some (.resumes 256 emptyFrame.esp emptyFrame.ebp s₄) ∧ s₄.pidFlags ≠ longState.pidFlags := by
  have hu : longState.pidFlags longState.currentPid = .IN_USE := by decide +kernel
  have hpde : longState.programPde = programFrame longState.currentPid := by decide +kernel
  have hfree : freePid longState = some 1 := by decide +kernel
  obtain ⟨page, target, hx⟩ := execute_shell longImage_hasShell longState emptyFrame hfree
  have hfree₁ : freePid (started longState emptyFrame 1 page (longState.pcb (1 : Nat)).args) = some 2 := by
    have h : ((List.range MAX_PID).find? fun i =>
        Function.update longState.pidFlags (1 : Nat) .IN_USE (i : Nat) = PidStatus.FREE) = some 2 := by decide +kernel
    exact h
  obtain ⟨s₃, he⟩ := Option.isSome_iff_exists.mp <| Ending.enters_execute_iff.mpr
    ⟨longCommand_startable, longCommand_tooLong, by rw [hfree₁]; rfl⟩
  obtain ⟨s₄, h₁, -, h₃, -⟩ := started_ends hu hpde (freePid_eq_some hfree).2.1 (.refl _) he emptyFrame
  refine ⟨by decide +kernel, hu, hpde, _, s₄, target, hx, h₁, fun e => ?_⟩
  cases h₃.eq_iff.mp e

end LimeOS
