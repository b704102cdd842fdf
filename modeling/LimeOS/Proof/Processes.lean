import LimeOS.Proof.Switch

/-!
# The processes of the terminals

Every terminal has a chain of processes: from the one it runs, parent by parent,
to its root shell (`Chain`). A process started while its caller's terminal is
displayed goes on top of that chain and one that halts comes off it, so that the
chains stay apart (`Stacks`) and hold the pids in use (`Accounted`). A process
started while another terminal is displayed breaks the property at once, and so does
a file that is too long to load: its pid stays taken (`owned_iff`).
-/

namespace LimeOS

/-- A pid in use, of a process of terminal `t`. -/
structure Member (s : State) (t : Nat) (p : Int) : Prop where
  nonneg : 0 ≤ p
  lt : p < 6
  inUse : s.pidFlags p = .IN_USE
  tty : (s.pcb p).tty = t

/-- The parents from `p` on, all of terminal `t`, up to one that is its own parent. -/
inductive Chain (s : State) (t : Nat) : Int → List Int → Prop
  | root {p : Int} : Member s t p → (s.pcb p).parentId = p → Chain s t p [p]
  | link {p : Int} {l : List Int} : Member s t p → (s.pcb p).parentId ≠ p →
      Chain s t (s.pcb p).parentId l → Chain s t p (p :: l)

/-- Every terminal runs a process whose parents, on that terminal, lead to a root
shell; these chains are apart and hold exactly the pids in use; and the current
process is one of the three. -/
def Owned (s : State) : Prop :=
  ∃ chain : Nat → List Int, (∀ t < 3, Chain s t (s.executePid t) (chain t)) ∧
    (∀ t < 3, ∀ u < 3, t ≠ u → ∀ p ∈ chain t, p ∉ chain u) ∧
    (∀ p, 0 ≤ p → p < 6 → (s.pidFlags p = .IN_USE ↔ ∃ t < 3, p ∈ chain t)) ∧
    ∃ t < 3, s.currentPid = s.executePid t

namespace Chain

variable {s s' : State} {t : Nat} {p : Int} {l : List Int}

theorem member_head (h : Chain s t p l) : Member s t p := by
  cases h with
  | root hm _ => exact hm
  | link hm _ _ => exact hm

theorem head_mem (h : Chain s t p l) : p ∈ l := by
  cases h with
  | root _ _ => exact List.mem_cons_self
  | link _ _ _ => exact List.mem_cons_self

theorem member (h : Chain s t p l) : ∀ q ∈ l, Member s t q := by
  induction h with
  | root hm _ =>
    intro q hq
    rw [List.mem_singleton] at hq
    exact hq ▸ hm
  | link hm _ _ ih =>
    intro q hq
    rcases List.mem_cons.mp hq with rfl | hq
    · exact hm
    · exact ih q hq

/-- A chain whose processes keep their flags, terminals and parents. -/
theorem congr (h : Chain s t p l) (hf : ∀ q ∈ l, s'.pidFlags q = s.pidFlags q)
    (hp : ∀ q ∈ l, (s'.pcb q).parentId = (s.pcb q).parentId) (ht : ∀ q ∈ l, (s'.pcb q).tty = (s.pcb q).tty) :
    Chain s' t p l := by
  have hm : ∀ q ∈ l, Member s' t q := fun q hq =>
    ⟨(h.member q hq).nonneg, (h.member q hq).lt, (hf q hq).trans (h.member q hq).inUse,
      (ht q hq).trans (h.member q hq).tty⟩
  induction h with
  | root _ hr => exact .root (hm _ List.mem_cons_self) (by rw [hp _ List.mem_cons_self, hr])
  | @link p l _ hr _ ih =>
    have hp' := hp p List.mem_cons_self
    refine .link (hm _ List.mem_cons_self) (by rwa [hp']) ?_
    rw [hp']
    exact ih (fun q hq => hf q (List.mem_cons_of_mem _ hq)) (fun q hq => hp q (List.mem_cons_of_mem _ hq))
      (fun q hq => ht q (List.mem_cons_of_mem _ hq)) (fun q hq => hm q (List.mem_cons_of_mem _ hq))

/-- A root shell has no chain but itself. -/
theorem eq_singleton (h : Chain s t p l) (hr : (s.pcb p).parentId = p) : l = [p] := by
  cases h with
  | root _ _ => rfl
  | link _ hn _ => exact absurd hr hn

/-- A process with a parent is on top of its parent's chain. -/
theorem eq_cons (h : Chain s t p l) (hr : (s.pcb p).parentId ≠ p) :
    ∃ l', l = p :: l' ∧ Chain s t (s.pcb p).parentId l' := by
  cases h with
  | root _ hr' => exact absurd hr' hr
  | link _ _ hc => exact ⟨_, rfl, hc⟩

/-- The parents of a chain's processes are on it. -/
theorem parent_mem (h : Chain s t p l) : ∀ q ∈ l, (s.pcb q).parentId ∈ l := by
  induction h with
  | root _ hr =>
    intro q hq
    rw [List.mem_singleton] at hq
    rw [hq, hr]
    exact List.mem_cons_self
  | link _ _ hc ih =>
    intro q hq
    rcases List.mem_cons.mp hq with rfl | hq
    · exact List.mem_cons_of_mem _ hc.head_mem
    · exact List.mem_cons_of_mem _ (ih q hq)

/-- A chain from a set of processes that has their parents stays in it. -/
theorem subset {X : Int → Prop} (h : Chain s t p l) (hX : ∀ q, X q → X (s.pcb q).parentId) (hp : X p) :
    ∀ q ∈ l, X q := by
  induction h with
  | root _ _ =>
    intro q hq
    rw [List.mem_singleton] at hq
    rwa [hq]
  | link _ _ _ ih =>
    intro q hq
    rcases List.mem_cons.mp hq with rfl | hq
    · exact hp
    · exact ih (hX _ hp) q hq

end Chain

/-- The chains of the three terminals, each on the root shell with the terminal's pid. -/
structure Stacks (s : State) (stack : Nat → List Int) : Prop where
  chain : ∀ t < 3, Chain s t (s.executePid t) (stack t)
  nodup : ∀ t < 3, (stack t).Nodup
  root : ∀ t < 3, ((t : Nat) : Int) ∈ stack t ∧ (s.pcb (t : Nat)).parentId = (t : Nat)
  current : ∃ t < 3, s.currentPid = s.executePid t
  terminal : s.terminalNum < 3

/-- Every pid in use is in a chain. -/
def Accounted (s : State) (stack : Nat → List Int) : Prop :=
  ∀ p, 0 ≤ p → p < 6 → s.pidFlags p = .IN_USE → ∃ t < 3, p ∈ stack t

namespace Stacks

variable {s s' : State} {stack : Nat → List Int}

theorem owned (h : Stacks s stack) (ha : Accounted s stack) : Owned s := by
  refine ⟨stack, h.chain, fun t ht u hu hne p hp hp' => ?_, fun p h₀ h₆ => ⟨ha p h₀ h₆, ?_⟩, h.current⟩
  · exact hne (((h.chain t ht).member p hp).tty.symm.trans ((h.chain u hu).member p hp').tty)
  · rintro ⟨t, ht, hp⟩
    exact ((h.chain t ht).member p hp).inUse

/-- The current process is the one its terminal runs. -/
theorem current_eq (h : Stacks s stack) :
    s.curPcb.tty < 3 ∧ s.currentPid = s.executePid s.curPcb.tty ∧
      Chain s s.curPcb.tty s.currentPid (stack s.curPcb.tty) := by
  obtain ⟨t, ht, hc⟩ := h.current
  have htty : s.curPcb.tty = t := by
    rw [State.curPcb, hc]
    exact (h.chain t ht).member_head.tty
  rw [htty, hc]
  exact ⟨ht, rfl, h.chain t ht⟩

theorem root_inUse (h : Stacks s stack) {t : Nat} (ht : t < 3) : s.pidFlags (t : Nat) = .IN_USE :=
  ((h.chain t ht).member _ (h.root t ht).1).inUse

/-- Nothing that the chains are about has changed. -/
theorem congr (h : Stacks s stack) (hf : s'.pidFlags = s.pidFlags) (he : s'.executePid = s.executePid)
    (hp : ∀ p, (s'.pcb p).parentId = (s.pcb p).parentId) (ht : ∀ p, (s'.pcb p).tty = (s.pcb p).tty)
    (hc : ∃ t < 3, s'.currentPid = s.executePid t) (hn : s'.terminalNum < 3) : Stacks s' stack := by
  refine ⟨fun t h₃ => ?_, h.nodup, fun t h₃ => ⟨(h.root t h₃).1, ?_⟩, ?_, hn⟩
  · rw [he]
    exact (h.chain t h₃).congr (fun q _ => by rw [hf]) (fun q _ => hp q) (fun q _ => ht q)
  · rw [hp]
    exact (h.root t h₃).2
  · rwa [he]

theorem aside (h : Stacks s stack) (ha : Aside s s') (hn : s'.terminalNum < 3) : Stacks s' stack :=
  h.congr ha.pidFlags ha.executePid ha.parentId ha.tty (by rw [ha.currentPid]; exact h.current) hn

/-- A free pid is in no chain. -/
theorem not_mem_free (h : Stacks s stack) {n : Int} (hf : s.pidFlags n = .FREE) {t : Nat} (ht : t < 3) : n ∉ stack t := by
  intro hn
  have := ((h.chain t ht).member n hn).inUse
  rw [hf] at this
  cases this

/-- A pid that is taken for nothing is in no chain. -/
theorem load (h : Stacks s stack) {n : Nat} (hn : freePid s = some n) (page : Nat → Byte) :
    Stacks (loading s n page) stack := by
  have hne : ∀ t < 3, ∀ q ∈ stack t, q ≠ (n : Int) := fun t ht q hq e =>
    h.not_mem_free (freePid_eq_some hn).2.1 ht (e ▸ hq)
  refine ⟨fun t ht => ?_, h.nodup, h.root, h.current, h.terminal⟩
  exact (h.chain t ht).congr (fun q hq => Function.update_of_ne (hne t ht q hq) _ _) (fun _ _ => rfl) fun _ _ => rfl

/-- The chain of one terminal is replaced, and the others keep theirs. -/
theorem replace (h : Stacks s stack) {t : Nat} (ht : t < 3) {l : List Int} (hch : Chain s' t (s'.executePid t) l)
    (hnd : l.Nodup) (hroot : ((t : Nat) : Int) ∈ l) (hself : (s'.pcb (t : Nat)).parentId = (t : Nat))
    (hexec : ∀ u < 3, u ≠ t → s'.executePid u = s.executePid u)
    (hsame : ∀ u < 3, u ≠ t → ∀ q ∈ stack u, s'.pidFlags q = s.pidFlags q ∧
      (s'.pcb q).parentId = (s.pcb q).parentId ∧ (s'.pcb q).tty = (s.pcb q).tty)
    (hall : ∀ p, 0 ≤ p → p < 6 → s'.pidFlags p = .IN_USE → p ∈ l ∨ s.pidFlags p = .IN_USE ∧ p ∉ stack t)
    (hcur : s'.currentPid = s'.executePid t) (hterm : s'.terminalNum < 3) :
    Stacks s' (Function.update stack t l) ∧ (Accounted s stack → Accounted s' (Function.update stack t l)) := by
  refine ⟨⟨fun u hu => ?_, fun u hu => ?_, fun u hu => ⟨?_, ?_⟩, ⟨t, ht, hcur⟩, hterm⟩, fun ha p h₀ h₆ hp => ?_⟩
  · by_cases e : u = t
    · subst e
      rwa [Function.update_self]
    · rw [Function.update_of_ne e, hexec u hu e]
      exact (h.chain u hu).congr (fun q hq => (hsame u hu e q hq).1) (fun q hq => (hsame u hu e q hq).2.1)
        (fun q hq => (hsame u hu e q hq).2.2)
  · by_cases e : u = t
    · subst e
      rwa [Function.update_self]
    · rw [Function.update_of_ne e]
      exact h.nodup u hu
  · by_cases e : u = t
    · subst e
      rwa [Function.update_self]
    · rw [Function.update_of_ne e]
      exact (h.root u hu).1
  · by_cases e : u = t
    · subst e
      exact hself
    · rw [(hsame u hu e _ (h.root u hu).1).2.1]
      exact (h.root u hu).2
  · rcases hall p h₀ h₆ hp with hl | ⟨hu, hn⟩
    · exact ⟨t, ht, by rwa [Function.update_self]⟩
    · obtain ⟨u, hu₃, hq⟩ := ha p h₀ h₆ hu
      have e : u ≠ t := fun e => hn (e ▸ hq)
      exact ⟨u, hu₃, by rwa [Function.update_of_ne e]⟩

/-- Processes of different terminals are different. -/
theorem not_mem (h : Stacks s stack) {t u : Nat} (ht : t < 3) (hu : u < 3) (hne : u ≠ t) {p : Int}
    (hp : p ∈ stack t) : p ∉ stack u := fun hp' =>
  hne (((h.chain u hu).member p hp').tty.symm.trans ((h.chain t ht).member p hp).tty)

/-- A process started with its caller's terminal displayed goes on top of that terminal's chain. -/
theorem started (h : Stacks s stack) (ht : s.terminalNum = s.curPcb.tty) {n : Nat} (hn : n < 6)
    (hf : s.pidFlags n = .FREE) (k : ExecuteFrame) (page args : Nat → Byte) :
    let stack' := Function.update stack s.terminalNum ((n : Int) :: stack s.terminalNum)
    Stacks (started s k n page args) stack' ∧ (Accounted s stack → Accounted (started s k n page args) stack') := by
  obtain ⟨h₃, hc, hch⟩ := h.current_eq
  rw [← ht] at h₃ hc hch
  have hnot : ∀ t < 3, ∀ q ∈ stack t, q ≠ (n : Int) := fun t h₃ q hq e => h.not_mem_free hf h₃ (e ▸ hq)
  have hsame : ∀ t < 3, ∀ q ∈ stack t, (LimeOS.started s k n page args).pidFlags q = s.pidFlags q ∧
      ((LimeOS.started s k n page args).pcb q).parentId = (s.pcb q).parentId ∧
      ((LimeOS.started s k n page args).pcb q).tty = (s.pcb q).tty := fun t h₃ q hq => by
    simp only [LimeOS.started, Function.update_of_ne (hnot t h₃ q hq), and_self]
  have hpcb : (LimeOS.started s k n page args).pcb n = newPcb s k n args := Function.update_self _ _ _
  refine h.replace h₃ ?_ ?_ (List.mem_cons_of_mem _ (h.root _ h₃).1) ?_ (fun u _ e => Function.update_of_ne e _ _)
    (fun u hu _ => hsame u hu) (fun p h₀ h₆ hp => ?_) ?_ h.terminal
  · rw [show (LimeOS.started s k n page args).executePid s.terminalNum = (n : Int) from Function.update_self _ _ _]
    refine .link ⟨by omega, by omega, Function.update_self _ _ _, by rw [hpcb]; rfl⟩ ?_ ?_
    · rw [hpcb]
      exact hnot _ h₃ _ hch.head_mem
    · rw [hpcb]
      exact hch.congr (fun q hq => (hsame _ h₃ q hq).1) (fun q hq => (hsame _ h₃ q hq).2.1)
        (fun q hq => (hsame _ h₃ q hq).2.2)
  · exact List.nodup_cons.mpr ⟨fun hm => hnot _ h₃ _ hm rfl, h.nodup _ h₃⟩
  · rw [(hsame _ h₃ _ (h.root _ h₃).1).2.1]
    exact (h.root _ h₃).2
  · by_cases e : p = n
    · exact .inl (by rw [e]; exact List.mem_cons_self)
    · rw [show (LimeOS.started s k n page args).pidFlags p = s.pidFlags p from Function.update_of_ne e _ _] at hp
      by_cases hm : p ∈ stack s.terminalNum
      · exact .inl (List.mem_cons_of_mem _ hm)
      · exact .inr ⟨hp, hm⟩
  · simp only [LimeOS.started, Function.update_self]

/-! ### Halting -/

/-- A process that halts comes off the top of its terminal's chain. -/
theorem resumed (h : Stacks s stack) {status : Nat} (hf : Resumed s status s')
    (hr : s.curPcb.parentId ≠ s.currentPid) :
    let stack' := Function.update stack s.curPcb.tty (stack s.curPcb.tty).tail
    Stacks s' stack' ∧ (Accounted s stack → Accounted s' stack') := by
  obtain ⟨h₃, hc, hch⟩ := h.current_eq
  obtain ⟨l, hl, hch'⟩ := hch.eq_cons hr
  have hnd := h.nodup _ h₃
  rw [hl] at hnd
  obtain ⟨hnot, hnd⟩ := List.nodup_cons.mp hnd
  have htty : (s.pcb s.curPcb.parentId).tty = s.curPcb.tty := hch'.member_head.tty
  have hexec : s'.executePid = Function.update s.executePid s.curPcb.tty s.curPcb.parentId := by
    rw [hf.executePid, htty]
  have hsame : ∀ q ≠ s.currentPid, s'.pidFlags q = s.pidFlags q ∧ (s'.pcb q).parentId = (s.pcb q).parentId ∧
      (s'.pcb q).tty = (s.pcb q).tty := fun q hq =>
    ⟨by rw [hf.pidFlags, Function.update_of_ne hq], hf.parentId q, hf.tty q⟩
  have hne : ∀ q ∈ l, q ≠ s.currentPid := fun q hq e => hnot (e ▸ hq)
  rw [hl, List.tail_cons]
  refine h.replace h₃ ?_ hnd ?_ ?_ (fun u _ e => by rw [hexec, Function.update_of_ne e]) (fun u hu e q hq => ?_)
    (fun p h₀ h₆ hp => ?_) ?_ ?_
  · rw [hexec, Function.update_self]
    exact hch'.congr (fun q hq => (hsame q (hne q hq)).1) (fun q hq => (hsame q (hne q hq)).2.1)
      (fun q hq => (hsame q (hne q hq)).2.2)
  · -- the root shell is its own parent, so it is not the process that halts
    have hm := (h.root _ h₃).1
    rw [hl] at hm
    rcases List.mem_cons.mp hm with e | hm
    · refine absurd ?_ hr
      rw [State.curPcb, ← e]
      exact (h.root _ h₃).2
    · exact hm
  · rw [hf.parentId]
    exact (h.root _ h₃).2
  · refine hsame q fun hq' => ?_
    exact h.not_mem h₃ hu e hch.head_mem (hq' ▸ hq)
  · have hpc : p ≠ s.currentPid := fun e => by
      rw [e, hf.pidFlags, Function.update_self] at hp
      cases hp
    rw [(hsame p hpc).1] at hp
    by_cases hm : p ∈ l
    · exact .inl hm
    · refine .inr ⟨hp, ?_⟩
      rw [hl, List.mem_cons, not_or]
      exact ⟨hpc, hm⟩
  · rw [hf.currentPid, hexec, Function.update_self]
  · rw [hf.terminalNum]
    exact h.terminal

/-- A root shell is the terminal's pid, alone in its chain. -/
theorem root_eq (h : Stacks s stack) (hr : s.curPcb.parentId = s.currentPid) :
    s.currentPid = (s.curPcb.tty : Nat) ∧ stack s.curPcb.tty = [s.currentPid] := by
  obtain ⟨h₃, hc, hch⟩ := h.current_eq
  have hl := hch.eq_singleton hr
  have hm := (h.root _ h₃).1
  rw [hl, List.mem_singleton] at hm
  exact ⟨hm.symm, hl⟩

/-- The pid of a root shell that halts is the lowest free one. -/
theorem freePid_freed (h : Stacks s stack) {status : Nat} {s₂ : State} (hf : Freed s status s₂)
    (hr : s.curPcb.parentId = s.currentPid) : freePid s₂ = some s.curPcb.tty := by
  obtain ⟨h₃, hc, hch⟩ := h.current_eq
  obtain ⟨hp, -⟩ := h.root_eq hr
  have hfree : s₂.pidFlags (s.curPcb.tty : Nat) = .FREE := by
    rw [hf.pidFlags, ← hp, Function.update_self]
  cases hfp : freePid s₂ with
  | none =>
    have := freePid_eq_none hfp s.curPcb.tty (by simp only [MAX_PID]; omega)
    rw [hfree] at this
    cases this
  | some n =>
    obtain ⟨-, hn, hlt⟩ := freePid_eq_some hfp
    rcases Nat.lt_trichotomy n s.curPcb.tty with hl | hl | hl
    · -- a lower pid is another root shell, in use
      have hu := h.root_inUse (t := n) (by omega)
      rw [hf.pidFlags, Function.update_of_ne (by rw [hp]; omega), hu] at hn
      cases hn
    · rw [hl]
    · have := hlt _ hl
      rw [hfree] at this
      cases this

/-- A root shell that halts with its terminal displayed starts again in its place. -/
theorem restarted (h : Stacks s stack) {status : Nat} {s₂ : State} (hf : Freed s status s₂)
    (hr : s.curPcb.parentId = s.currentPid) (ht : s.terminalNum = s.curPcb.tty) (k : ExecuteFrame)
    (page args : Nat → Byte) :
    Stacks (LimeOS.started s₂ k s.curPcb.tty page args) stack ∧
      (Accounted s stack → Accounted (LimeOS.started s₂ k s.curPcb.tty page args) stack) := by
  obtain ⟨h₃, hc, hch⟩ := h.current_eq
  obtain ⟨hp, hl⟩ := h.root_eq hr
  have hpcb : (LimeOS.started s₂ k s.curPcb.tty page args).pcb (s.curPcb.tty : Nat) =
      newPcb s₂ k s.curPcb.tty args := Function.update_self _ _ _
  have hself : (newPcb s₂ k s.curPcb.tty args).parentId = (s.curPcb.tty : Nat) := hf.currentPid.trans hp
  have hterm : s₂.terminalNum = s.curPcb.tty := hf.terminalNum.trans ht
  have hexec : (LimeOS.started s₂ k s.curPcb.tty page args).executePid =
      Function.update s.executePid s.curPcb.tty (s.curPcb.tty : Nat) := by
    simp only [LimeOS.started, hf.executePid, hterm]
  have hsame : ∀ q ≠ s.currentPid, (LimeOS.started s₂ k s.curPcb.tty page args).pidFlags q = s.pidFlags q ∧
      ((LimeOS.started s₂ k s.curPcb.tty page args).pcb q).parentId = (s.pcb q).parentId ∧
      ((LimeOS.started s₂ k s.curPcb.tty page args).pcb q).tty = (s.pcb q).tty := fun q hq => by
    have hq' : q ≠ (s.curPcb.tty : Nat) := hp ▸ hq
    simp only [LimeOS.started, Function.update_of_ne hq', hf.pidFlags, Function.update_of_ne hq, hf.parentId, hf.tty,
      and_self]
  have hroot : ((s.curPcb.tty : Nat) : Int) ∈ stack s.curPcb.tty := (h.root _ h₃).1
  have hrep : Stacks (LimeOS.started s₂ k s.curPcb.tty page args)
        (Function.update stack s.curPcb.tty (stack s.curPcb.tty)) ∧
      (Accounted s stack → Accounted (LimeOS.started s₂ k s.curPcb.tty page args)
        (Function.update stack s.curPcb.tty (stack s.curPcb.tty))) := by
    refine h.replace h₃ ?_ (h.nodup _ h₃) hroot (by rw [hpcb, hself])
      (fun u _ e => by rw [hexec, Function.update_of_ne e]) (fun u hu e q hq => ?_) (fun p h₀ h₆ hp' => ?_) ?_ ?_
    · rw [hexec, Function.update_self, hl, hp]
      refine .root ⟨by omega, by omega, Function.update_self _ _ _, ?_⟩ (by rw [hpcb, hself])
      rw [hpcb]
      exact hterm
    · exact hsame q fun hq' => h.not_mem h₃ hu e hch.head_mem (hq' ▸ hq)
    · by_cases e : p = s.currentPid
      · exact .inl (e ▸ hch.head_mem)
      · rw [(hsame p e).1] at hp'
        refine .inr ⟨hp', ?_⟩
        rwa [hl, List.mem_singleton]
    · rw [hexec, Function.update_self]
      rfl
    · exact hf.terminalNum ▸ h.terminal
  rwa [Function.update_eq_self] at hrep

/-! ### Ticks -/

/-- A tick hands the processor to the process of another terminal. -/
theorem dispatched (h : Stacks s stack) {esp ebp : Nat} (hd : Dispatched (saveContext s esp ebp) s') : Stacks s' stack := by
  have hb : ∀ p, ((saveContext s esp ebp).pcb p).parentId = (s.pcb p).parentId ∧
      ((saveContext s esp ebp).pcb p).tty = (s.pcb p).tty := fun p => by
    rw [saveContext_pcb]
    split <;> exact ⟨rfl, rfl⟩
  refine h.congr hd.pidFlags hd.executePid (fun p => ?_) (fun p => ?_) ⟨s'.pitTerminalNum, ?_, hd.currentPid⟩ ?_
  · rw [hd.pcb]
    exact (hb p).1
  · rw [hd.pcb]
    exact (hb p).2
  · rw [hd.pitTerminalNum]
    exact Nat.mod_lt _ (by decide)
  · rw [hd.terminalNum]
    split
    · decide
    · exact h.terminal

/-! ### A pid that no process has -/

/-- A pid in use that no chain has, in a state whose processes are those of the chains. -/
theorem not_owned_of_taken (h : Stacks s stack) {n : Int} (h₀ : 0 ≤ n) (h₆ : n < 6) (hn : ∀ t < 3, n ∉ stack t)
    (hu : s'.pidFlags n = .IN_USE) (hexec : ∀ t < 3, ∃ u < 3, s'.executePid t ∈ stack u)
    (hpar : ∀ p, (∃ u < 3, p ∈ stack u) → (s'.pcb p).parentId = (s.pcb p).parentId) : ¬ Owned s' := by
  rintro ⟨chain, hchain, -, hall, -⟩
  obtain ⟨t, ht, hm⟩ := (hall n h₀ h₆).mp hu
  have hparent : ∀ p, (∃ u < 3, p ∈ stack u) → ∃ u < 3, (s'.pcb p).parentId ∈ stack u := by
    intro p hp
    rw [hpar p hp]
    obtain ⟨u, hu₃, hq⟩ := hp
    exact ⟨u, hu₃, (h.chain u hu₃).parent_mem p hq⟩
  obtain ⟨u, hu₃, hq⟩ := (hchain t ht).subset hparent (hexec t ht) n hm
  exact hn u hu₃ hq

end Stacks

/-! ## Steps -/

/-- A step in which the current process ends, with the terminal displayed that was: it halts, an exception is
handled, or a call other than `write` faults. -/
def Step.Ends (img : Image) (s : State) : Step → Prop
  | .halt _ _ => True
  | .exception _ _ => True
  | .fd (.write _ _ _) _ => False
  | .fd c _ => ∃ s₁, fdCall img s c = .error (.pageFault s₁)
  | .getargs buf nbytes _ => ∃ s₁, getargsThrough s buf nbytes = .error (.pageFault s₁)
  | .vidmap screenStart _ => ∃ s₁, LimeOS.vidmap s screenStart = .error (.pageFault s₁)
  | _ => False

/-- A step that hands the processor over. -/
def Step.Switches (img : Image) (s : State) : Step → Prop
  | .tick _ _ _ => True
  | .execute command k => Startable img command k ∧ (freePid s).isSome
  | e => e.Ends img s

/-- The pid of the process that a halt starts. -/
def HaltResult.startedPid : HaltResult → Option Int
  | .starts s' _ => some s'.currentPid
  | .resumes _ _ _ _ => none

/-- The pid of the process that a call starts, or the handler of its page fault. -/
def handledPid {α : Type} (img : Image) (k : ExecuteFrame) (r : Except Fault α) (pid : α → Option Int) : Option Int :=
  match r with
  | .ok a => pid a
  | .error (.pageFault s) => (exceptionHandler img s PF k).toOption.bind HaltResult.startedPid
  | .error _ => none

/-- The pid of the process that a step starts. -/
def startedPid (img : Image) (s : State) : Step → Option Int
  | .tick esp ebp k => handledPid img k (taskSwitch img s esp ebp k) fun r =>
    match r with
    | .starts s' _ => some s'.currentPid
    | .dispatches _ _ _ => none
  | .execute command k => handledPid img k (execute img s command k) fun r =>
    match r with
    | .starts s' _ => some s'.currentPid
    | .returns _ _ => none
  | .halt status k => handledPid img k (halt img s status k) HaltResult.startedPid
  | .exception v k => handledPid img k (exceptionHandler img s v k) HaltResult.startedPid
  | .fd c k => handledPid img k (fdCall img s c) fun _ => none
  | .getargs buf nbytes k => handledPid img k (getargsThrough s buf nbytes) fun _ => none
  | .vidmap screenStart k => handledPid img k (vidmap s screenStart) fun _ => none
  | _ => none

/-- The state in which the process that a step ends comes to `halt_256`. -/
inductive EndsIn (img : Image) (s : State) : Step → State → Prop
  | call {e : Step} {s₁ : State} : e.Ends img s → Caught s s₁ → s₁.terminalNum = s.terminalNum → EndsIn img s e s₁
  | write {fd : Int} {buf : Option Buffer} {nbytes : Int} {k : ExecuteFrame} {s₁ : State} : Caught s s₁ →
      s₁.terminalNum = s.curPcb.tty → EndsIn img s (.fd (.write fd buf nbytes) k) s₁
  | load {command : Option CString} {k : ExecuteFrame} {n : Nat} {page : Nat → Byte} : Startable img command k →
      TooLong img command k → freePid s = some n → EndsIn img s (.execute command k) (loading s n page)

/-- What a step can do to the processes, and the pid of the process it starts. -/
inductive Move (img : Image) (s : State) : Step → State → Option Int → Prop
  | aside {e : Step} {s' : State} : Aside s s' → s'.terminalNum < 3 → ¬ e.Switches img s → Move img s e s' none
  | start {command : Option CString} {k : ExecuteFrame} {n : Nat} {page args : Nat → Byte} :
      Startable img command k → ¬ TooLong img command k → freePid s = some n →
      Move img s (.execute command k) (started s k n page args) (some n)
  | resume {e : Step} {s₁ s' : State} {status : Nat} : EndsIn img s e s₁ → s₁.curPcb.parentId ≠ s₁.currentPid →
      Resumed s₁ status s' → Move img s e s' none
  | restart {e : Step} {s₁ s₂ : State} {status : Nat} {k : ExecuteFrame} {page args : Nat → Byte} : EndsIn img s e s₁ →
      s₁.curPcb.parentId = s₁.currentPid → Freed s₁ status s₂ → freePid s₂ = some s₁.curPcb.tty →
      Move img s e (started s₂ k s₁.curPcb.tty page args) (some (s₁.curPcb.tty : Nat))
  | dispatch {esp ebp : Nat} {k : ExecuteFrame} {s' : State} : Dispatched (saveContext s esp ebp) s' →
      Move img s (.tick esp ebp k) s' none

section

variable {img : Image} {s s₁ s' : State} {stack : Nat → List Int} {e : Step}

theorem Caught.curPcb (h : Caught s s₁) : s₁.curPcb = s.curPcb := h.still.curPcb

theorem Stacks.caught (h : Stacks s stack) (hc : Caught s s₁) : Stacks s₁ stack := by
  refine h.aside hc.still.quiet.toAside ?_
  rcases hc.terminalNum with e | e
  · rw [e]
    exact h.terminal
  · rw [e]
    exact h.current_eq.1

theorem EndsIn.stacks (he : EndsIn img s e s₁) (h : Stacks s stack) : Stacks s₁ stack := by
  cases he with
  | call _ hc _ => exact h.caught hc
  | write hc _ => exact h.caught hc
  | load _ _ hn => exact h.load hn _

namespace EndsIn

/-- The process is the one that ran. -/
theorem process (he : EndsIn img s e s₁) : s₁.currentPid = s.currentPid ∧ s₁.curPcb = s.curPcb := by
  cases he with
  | call _ hc _ => exact ⟨hc.still.quiet.currentPid, hc.curPcb⟩
  | write hc _ => exact ⟨hc.still.quiet.currentPid, hc.curPcb⟩
  | load _ _ _ => exact ⟨rfl, rfl⟩

theorem ne_tick (he : EndsIn img s e s₁) (esp ebp : Nat) (k : ExecuteFrame) : e ≠ .tick esp ebp k := by
  rintro rfl
  cases he with
  | call h _ _ => exact h

end EndsIn

theorem halt256_move (hs : HasShell img) (h : Stacks s stack) {status : Nat} {k : ExecuteFrame} {r : HaltResult}
    (he : EndsIn img s e s₁) {s₂ : State} (hf : ScreenFrame s₁ s₂) (hh : halt256 img s₂ status k = .ok r) :
    Move img s e r.state r.startedPid := by
  have hc : s₂.curPcb = s₁.curPcb ∧ s₂.currentPid = s₁.currentPid := by
    rw [hf]
    exact ⟨rfl, rfl⟩
  rcases halt256_eq_ok hh with ⟨hp, s', rfl, hr⟩ | ⟨hp, s₃, x, h₃, hx, hr⟩
  · rw [hc.1, hc.2] at hp
    exact .resume he hp (hr.of_screen hf)
  · rw [hc.1, hc.2] at hp
    have h₃ := h₃.of_screen hf
    have hfree := (he.stacks h).freePid_freed h₃ hp
    obtain ⟨page, target, hstart⟩ := execute_shell hs s₃ k hfree
    rw [hx] at hstart
    cases hstart
    subst hr
    exact .restart he hp h₃ hfree

/-- The step of a call: it has its result, or the handler of its page fault ends the process. -/
theorem handled_move (hs : HasShell img) (h : Stacks s stack) {α : Type} {r : Except Fault α} {f : α → State}
    {pid : α → Option Int} {k : ExecuteFrame} (hstep : handled img k (r.map f) = some s')
    (hok : ∀ a, r = .ok a → Move img s e (f a) (pid a)) (hfault : ∀ s₁, r = .error (.pageFault s₁) → EndsIn img s e s₁) :
    Move img s e s' (handledPid img k r pid) := by
  rcases handled_eq_some hstep with ⟨a, rfl, rfl⟩ | ⟨s₁, x, rfl, hx, rfl⟩
  · exact hok a rfl
  · simp only [handledPid, hx, Except.toOption, Option.bind_some]
    obtain ⟨s₂, hf, hh⟩ := exceptionHandler_eq_ok hx
    exact halt256_move hs h (hfault s₁ rfl) hf hh

theorem step_move (hs : HasShell img) (h : Stacks s stack) (hstep : step img s e = some s') :
    Move img s e s' (startedPid img s e) := by
  cases e with
  | tick esp ebp k =>
    obtain ⟨s', hd, hr⟩ := dispatch_eq (saveContext s esp ebp)
    have ht := taskSwitch_dispatches img (fun i hi => h.root_inUse hi) esp ebp k
    rw [hr] at ht
    refine handled_move hs h hstep (fun r hr => ?_) fun s₁ hr => ?_
    · rw [ht] at hr
      cases hr
      exact .dispatch hd
    · rw [ht] at hr
      cases hr
  | key c =>
    obtain rfl := Option.some.inj hstep
    refine .aside (keyboardHandler_still s c).quiet.toAside ?_ (fun h => h)
    rcases keyboardHandler_terminalNum s c with ht | ht
    · rw [ht]
      exact h.terminal
    · exact ht
  | rtc =>
    obtain rfl := Option.some.inj hstep
    exact .aside (rtcHandler_still s).quiet.toAside h.terminal (fun h => h)
  | execute command k =>
    refine handled_move hs h hstep (fun r hr => ?_) fun s₁ hr => ?_
    · rcases execute_eq_ok hr with ⟨v, s', rfl, hf, hns⟩ | ⟨c, n, page, target, rfl, hst, -, hn, rfl⟩
      · exact .aside hf.quiet.toAside (by rw [ExecuteResult.state, hf.terminalNum]; exact h.terminal) hns
      · refine .start hst (fun hlong => ?_) hn
        obtain ⟨page', hx⟩ := execute_fault hst hlong hn
        rw [hr] at hx
        cases hx
    · obtain ⟨hst, hlong, n, page, hn, rfl⟩ := execute_eq_fault hr
      exact .load hst hlong hn
  | halt status k =>
    exact handled_move hs h hstep
      (fun r hr => halt256_move hs h (.call trivial (.refl s) rfl) (.refl s) hr)
      fun s₁ hr => absurd hr (halt256_ne_fault hs _ _ _ _)
  | exception v k =>
    refine handled_move hs h hstep (fun r hr => ?_) fun s₁ hr => absurd hr (halt256_ne_fault hs _ _ _ _)
    obtain ⟨s₂, hf, hr⟩ := exceptionHandler_eq_ok hr
    exact halt256_move hs h (.call trivial (.refl s) rfl) hf hr
  | fd c k =>
    refine handled_move hs h hstep (fun r hr => ?_) fun s₁ hr => ?_
    · have hf := fdCall_steady hr
      refine .aside hf.toAside (by rw [hf.terminalNum]; exact h.terminal) fun he => ?_
      cases c with
      | write fd buf nbytes => exact he
      | _ =>
        obtain ⟨s₁, hs₁⟩ := he
        rw [hr] at hs₁
        cases hs₁
    · cases c with
      | write fd buf nbytes =>
        have hw := map_eq_error.mp hr
        exact .write (.of_write hw) (sysWrite_eq_fault hw).2.terminalNum
      | _ =>
        obtain ⟨hc, ht⟩ := fdCall_eq_fault hr
        exact .call ⟨s₁, hr⟩ hc (ht (by rintro fd buf n ⟨⟩))
  | getargs buf nbytes k =>
    refine handled_move hs h hstep (fun r hr => ?_) fun s₁ hr => ?_
    · have he : r = getargs s (buf.map Buffer.mem) nbytes := getargsThrough_eq_ok hr
      rw [he]
      refine .aside (getargs_aside s _ nbytes) ?_ fun hf => ?_
      · rw [getargs_terminalNum]
        exact h.terminal
      · obtain ⟨s₁, hs₁⟩ := hf
        rw [hr] at hs₁
        cases hs₁
    · obtain ⟨hc, ht⟩ := getargsThrough_eq_fault hr
      exact .call ⟨s₁, hr⟩ hc ht
  | vidmap screenStart k =>
    refine handled_move hs h hstep (fun r hr => ?_) fun s₁ hr => ?_
    · refine .aside (vidmap_still hr).quiet.toAside ?_ fun hf => ?_
      · rw [vidmap_terminalNum hr]
        exact h.terminal
      · obtain ⟨s₁, hs₁⟩ := hf
        rw [hr] at hs₁
        cases hs₁
    · have he : s₁ = s := vidmap_eq_fault hr
      exact .call ⟨s₁, hr⟩ (he ▸ .refl s) (by rw [he])

/-- The condition on a step: a process is started, also a root shell again, with
the terminal of the current process displayed. -/
def OwnTerminal (img : Image) (s : State) : Step → Prop
  | .execute command k => Startable img command k → (freePid s).isSome → s.terminalNum = s.curPcb.tty
  | e => e.Ends img s → s.curPcb.parentId = s.currentPid → s.terminalNum = s.curPcb.tty

/-- A file that is to be loaded fits its page. -/
def FileFits (img : Image) (s : State) : Step → Prop
  | .execute command k => Startable img command k → (freePid s).isSome → ¬ TooLong img command k
  | _ => True

theorem OwnTerminal.of_not_switches (he : ¬ e.Switches img s) : OwnTerminal img s e := by
  cases e with
  | execute command k => exact fun hst hf => absurd ⟨hst, hf⟩ he
  | tick esp ebp k => exact absurd trivial he
  | _ => exact fun h => absurd h he

theorem OwnTerminal.of_displayed (h : s.terminalNum = s.curPcb.tty) : OwnTerminal img s e := by
  cases e <;> exact fun _ _ => h

theorem OwnTerminal.of_not_root (he : e.Ends img s) (hr : s.curPcb.parentId ≠ s.currentPid) : OwnTerminal img s e := by
  cases e with
  | execute command k => exact he.elim
  | _ => exact fun _ h => absurd h hr

/-- A root shell that ends has its terminal displayed. -/
theorem OwnTerminal.of_endsIn (hok : OwnTerminal img s e) (he : EndsIn img s e s₁)
    (hr : s₁.curPcb.parentId = s₁.currentPid) : s₁.terminalNum = s₁.curPcb.tty := by
  obtain ⟨hcur, hpcb⟩ := he.process
  rw [hpcb, hcur] at hr
  rw [hpcb]
  cases he with
  | call h hc ht =>
    rw [ht]
    cases e with
    | execute command k => exact h.elim
    | _ => exact hok h hr
  | write _ ht => exact ht
  | load hst _ hn => exact hok hst (by rw [hn]; rfl)

theorem FileFits.of_not_switches (he : ¬ e.Switches img s) : FileFits img s e := by
  cases e with
  | execute command k => exact fun hst hf => absurd ⟨hst, hf⟩ he
  | _ => trivial

theorem FileFits.of_ends (he : e.Ends img s) : FileFits img s e := by
  cases e with
  | execute command k => exact he.elim
  | _ => trivial

theorem Move.stacks {n : Option Int} (hm : Move img s e s' n) (h : Stacks s stack) (hok : OwnTerminal img s e) :
    ∃ stack', Stacks s' stack' ∧ (FileFits img s e → Accounted s stack → Accounted s' stack') := by
  -- a process that ends comes to `halt_256` with the chains it had, and the pids unless a file was too long
  have hends : ∀ {s₁}, EndsIn img s e s₁ → FileFits img s e → Accounted s stack → Accounted s₁ stack := by
    intro s₁ he hfits ha
    cases he with
    | call _ hc _ =>
      rw [Accounted, hc.still.quiet.pidFlags]
      exact ha
    | write hc _ =>
      rw [Accounted, hc.still.quiet.pidFlags]
      exact ha
    | load hst hlong hn => exact absurd hlong (hfits hst (by rw [hn]; rfl))
  cases hm with
  | aside ha hn _ =>
    refine ⟨_, h.aside ha hn, fun _ hacc => ?_⟩
    rw [Accounted, ha.pidFlags]
    exact hacc
  | start hst _ hf =>
    obtain ⟨hlt, hfree, -⟩ := freePid_eq_some hf
    obtain ⟨h₁, h₂⟩ := h.started (hok hst (by rw [hf]; rfl)) hlt hfree _ _ _
    exact ⟨_, h₁, fun _ => h₂⟩
  | resume he hp hr =>
    obtain ⟨h₁, h₂⟩ := (he.stacks h).resumed hr hp
    exact ⟨_, h₁, fun hfits ha => h₂ (hends he hfits ha)⟩
  | restart he hp hf _ =>
    obtain ⟨h₁, h₂⟩ := (he.stacks h).restarted hf hp (hok.of_endsIn he hp) _ _ _
    exact ⟨_, h₁, fun hfits ha => h₂ (hends he hfits ha)⟩
  | dispatch hd =>
    refine ⟨_, h.dispatched hd, fun _ ha => ?_⟩
    rw [Accounted, hd.pidFlags]
    exact ha

/-- The pid that the loading of a file has taken stays taken when the process ends and its parent goes on. -/
theorem not_owned_of_resumed (h : Stacks s stack) {n : Nat} (hn : freePid s = some n) {page : Nat → Byte} {status : Nat}
    (hp : s.curPcb.parentId ≠ s.currentPid) (hr : Resumed (loading s n page) status s') : ¬ Owned s' := by
  obtain ⟨hlt, hfree, -⟩ := freePid_eq_some hn
  obtain ⟨h₃, hc, hch⟩ := h.current_eq
  obtain ⟨l, hl, hch'⟩ := hch.eq_cons hp
  have hne : (n : Int) ≠ s.currentPid := fun e => h.not_mem_free hfree h₃ (e ▸ hch.head_mem)
  simp only [MAX_PID] at hlt
  refine h.not_owned_of_taken (by omega) (by omega) (fun t => h.not_mem_free hfree) ?_ (fun t ht => ?_) fun p _ => hr.parentId p
  · rw [hr.pidFlags]
    exact (Function.update_of_ne hne _ _).trans (Function.update_self _ _ _)
  · have hpar : (loading s n page).curPcb.parentId ∈ stack s.curPcb.tty := by
      rw [hl]
      exact List.mem_cons_of_mem _ hch'.head_mem
    rw [hr.executePid, Function.update_apply]
    split
    · exact ⟨_, h₃, hpar⟩
    · exact ⟨t, ht, (h.chain t ht).head_mem⟩

/-- And when it is a root shell, which starts again. -/
theorem not_owned_of_restarted (h : Stacks s stack) {n : Nat} (hn : freePid s = some n) {page : Nat → Byte}
    {status : Nat} {s₂ : State} (hp : s.curPcb.parentId = s.currentPid) (hf : Freed (loading s n page) status s₂)
    (k : ExecuteFrame) (page' args : Nat → Byte) : ¬ Owned (started s₂ k s.curPcb.tty page' args) := by
  obtain ⟨hlt, hfree, -⟩ := freePid_eq_some hn
  obtain ⟨h₃, hc, hch⟩ := h.current_eq
  have hroot := (h.root_eq hp).1
  have hne : (n : Int) ≠ s.currentPid := fun e => h.not_mem_free hfree h₃ (e ▸ hch.head_mem)
  simp only [MAX_PID] at hlt
  refine h.not_owned_of_taken (by omega) (by omega) (fun t => h.not_mem_free hfree) ?_ (fun t ht => ?_) fun p _ => ?_
  · refine (Function.update_of_ne (hroot ▸ hne) _ _).trans ?_
    rw [hf.pidFlags]
    exact (Function.update_of_ne hne _ _).trans (Function.update_self _ _ _)
  · simp only [started, hf.executePid, Function.update_apply]
    split
    · exact ⟨_, h₃, hroot ▸ hch.head_mem⟩
    · exact ⟨t, ht, (h.chain t ht).head_mem⟩
  · simp only [started, Function.update_apply]
    split
    · rename_i e
      rw [e, (h.root _ h₃).2]
      exact hf.currentPid.trans hroot
    · exact hf.parentId p

/-- A process started on another terminal is filed there with a parent that is not, and a file that is too long
leaves a pid that no process has. -/
theorem Move.not_owned {n : Option Int} (hm : Move img s e s' n) (h : Stacks s stack)
    (hok : ¬ (OwnTerminal img s e ∧ FileFits img s e)) : ¬ Owned s' := by
  obtain ⟨h₃, hc, hch⟩ := h.current_eq
  cases hm with
  | aside _ _ hns => exact absurd ⟨.of_not_switches hns, .of_not_switches hns⟩ hok
  | @start command k n page args hst hlong hf =>
    rintro ⟨chain, hchain, -⟩
    obtain ⟨hlt, hfree, -⟩ := freePid_eq_some hf
    have hne : s.currentPid ≠ (n : Int) := fun e => h.not_mem_free hfree h₃ (e ▸ hch.head_mem)
    have hn := hchain _ h.terminal
    have hpcb : (started s k n page args).pcb n = newPcb s k n args := Function.update_self _ _ _
    rw [show (started s k n page args).executePid s.terminalNum = (n : Int) from Function.update_self _ _ _] at hn
    obtain ⟨l, -, hl⟩ := hn.eq_cons (by rw [hpcb]; exact hne)
    rw [hpcb] at hl
    have htty := hl.member_head.tty
    rw [show (newPcb s k n args).parentId = s.currentPid from rfl,
      show (started s k n page args).pcb s.currentPid = s.curPcb from Function.update_of_ne hne _ _] at htty
    exact hok ⟨fun _ _ => htty.symm, fun _ _ => hlong⟩
  | resume he hp hr =>
    cases he with
    | call hends hcaught _ =>
      rw [hcaught.curPcb, hcaught.still.quiet.currentPid] at hp
      exact absurd ⟨.of_not_root hends hp, .of_ends hends⟩ hok
    | write _ _ => exact absurd ⟨fun h => h.elim, trivial⟩ hok
    | load _ _ hn => exact not_owned_of_resumed h hn hp hr
  | @restart e s₁ s₂ status k page args he hp hf _ =>
    cases he with
    | write _ _ => exact absurd ⟨fun h => h.elim, trivial⟩ hok
    | load _ _ hn => exact not_owned_of_restarted h hn hp hf _ _ _
    | call hends hcaught ht =>
      -- the terminal's pid now runs a shell of the displayed terminal
      rintro ⟨chain, hchain, -⟩
      have h₁ := h.caught hcaught
      obtain ⟨h₃, hc, -⟩ := h₁.current_eq
      have hne : s₁.curPcb.tty ≠ s₁.terminalNum := fun e => hok ⟨by
        rw [ht, hcaught.curPcb] at e
        exact .of_displayed e.symm, .of_ends hends⟩
      have hn := hchain _ h₃
      have hexec : (started s₂ k s₁.curPcb.tty page args).executePid s₁.curPcb.tty = (s₁.curPcb.tty : Nat) := by
        simp only [started, hf.terminalNum]
        rw [Function.update_of_ne hne, hf.executePid, ← hc, (h₁.root_eq hp).1]
      rw [hexec] at hn
      have htty := hn.member_head.tty
      rw [show (started s₂ k s₁.curPcb.tty page args).pcb (s₁.curPcb.tty : Nat) = newPcb s₂ k s₁.curPcb.tty args from
        Function.update_self _ _ _, show (newPcb s₂ k s₁.curPcb.tty args).tty = s₂.terminalNum from rfl,
        hf.terminalNum] at htty
      exact hne htty.symm
  | dispatch _ => exact absurd ⟨fun h => h.elim, trivial⟩ hok

end

/-- The state in which the three root shells have been started. -/
structure ShellsStarted (s : State) : Prop where
  pidFlags : ∀ p, 0 ≤ p → p < 6 → (s.pidFlags p = .IN_USE ↔ p < 3)
  pcb : ∀ t < 3, (s.pcb (t : Nat)).parentId = (t : Nat) ∧ (s.pcb (t : Nat)).tty = t
  executePid : ∀ t < 3, s.executePid t = (t : Nat)
  current : ∃ t < 3, s.currentPid = (t : Nat)
  terminalNum : s.terminalNum = 0

/-- Three root shells, each alone in its terminal's chain. -/
theorem stacks_of_shells {s : State} (hf : ∀ p, 0 ≤ p → p < 6 → (s.pidFlags p = .IN_USE ↔ p < 3))
    (hp : ∀ t < 3, (s.pcb (t : Nat)).parentId = (t : Nat) ∧ (s.pcb (t : Nat)).tty = t)
    (he : ∀ t < 3, s.executePid t = (t : Nat)) (hc : ∃ t < 3, s.currentPid = (t : Nat)) (hn : s.terminalNum < 3) :
    Stacks s fun t => [((t : Nat) : Int)] := by
  refine ⟨fun t ht => ?_, fun t ht => by simp, fun t ht => ⟨by simp, (hp t ht).1⟩, ?_, hn⟩
  · rw [he t ht]
    exact .root ⟨by omega, by omega, (hf _ (by omega) (by omega)).mpr (by omega), (hp t ht).2⟩ (hp t ht).1
  · obtain ⟨t, ht, hc⟩ := hc
    exact ⟨t, ht, by rw [he t ht, hc]⟩

theorem ShellsStarted.accounted {s : State} (h : ShellsStarted s) : Accounted s fun t => [((t : Nat) : Int)] := by
  intro p h₀ h₆ hu
  have := (h.pidFlags p h₀ h₆).mp hu
  exact ⟨p.toNat, by omega, by simp only [List.mem_singleton]; omega⟩

theorem ShellsStarted.stacks {s : State} (h : ShellsStarted s) : Stacks s fun t => [((t : Nat) : Int)] :=
  stacks_of_shells h.pidFlags h.pcb h.executePid h.current (by rw [h.terminalNum]; decide)

/-- From the three root shells, in any order of steps: the terminals own their
processes in every state reached exactly when every process is started with the
terminal of its parent displayed, and every file that is loaded fits its page. -/
theorem owned_iff {img : Image} (hs : HasShell img) {s : State} (h : ShellsStarted s) (es : List Step) :
    Always (step img) Owned s es ↔
      Guarded (step img) (fun s e => OwnTerminal img s e ∧ FileFits img s e) s es := by
  refine always_iff_guarded (I := fun s => ∃ stack, Stacks s stack ∧ Accounted s stack) ?_ ?_ ?_
    ⟨_, h.stacks, h.accounted⟩
  · rintro s ⟨stack, h, ha⟩
    exact h.owned ha
  · rintro s e s' ⟨stack, h, ha⟩ ⟨hok, hfits⟩ hstep
    obtain ⟨stack', h', ha'⟩ := (step_move hs h hstep).stacks h hok
    exact ⟨stack', h', ha' hfits ha⟩
  · rintro s e s' ⟨stack, h, -⟩ hok hstep
    exact (step_move hs h hstep).not_owned h hok

/-- Four ticks from boot: three start the shells and the fourth dispatches one. -/
def fourTicks : List Step := List.replicate 4 (.tick 0 0 emptyFrame)

/-- The state after four ticks, with the second shell running and the first terminal displayed. -/
def shellsState : State := (run (step shellImage) boot fourTicks).getD boot

theorem shellsState_shellsStarted : ShellsStarted shellsState := by
  refine ⟨fun p h₀ h₆ => ?_, by decide +kernel, by decide +kernel, ⟨1, by decide, by decide +kernel⟩,
    by decide +kernel⟩
  obtain rfl | rfl | rfl | rfl | rfl | rfl : p = 0 ∨ p = 1 ∨ p = 2 ∨ p = 3 ∨ p = 4 ∨ p = 5 := by omega
  all_goals decide +kernel

theorem owned_iff_shellsState :
    ShellsStarted shellsState ∧
      (Always (step shellImage) Owned shellsState [.tick 0 0 emptyFrame, .halt 0#8 emptyFrame] ↔
        Guarded (step shellImage) (fun s e => OwnTerminal shellImage s e ∧ FileFits shellImage s e) shellsState
          [.tick 0 0 emptyFrame, .halt 0#8 emptyFrame]) :=
  ⟨shellsState_shellsStarted, owned_iff shellImage_hasShell shellsState_shellsStarted _⟩

/-- The second shell executes another one while the first terminal is displayed. -/
theorem shellsState_execute_not_owned :
    (run (step shellImage) boot fourTicks).isSome ∧
      ¬ Always (step shellImage) Owned shellsState [.execute (some shellCommand) emptyFrame] := by
  have h₀ := shellsState_shellsStarted.stacks
  have hstart := shellCommand_startable shellImage_hasShell emptyFrame
  have hfree : freePid shellsState = some 3 := by decide +kernel
  have hne : shellsState.terminalNum ≠ shellsState.curPcb.tty := by decide +kernel
  refine ⟨by decide +kernel, fun h => ?_⟩
  obtain ⟨page, target, hx⟩ := execute_shell shellImage_hasShell shellsState emptyFrame hfree
  have hstep : step shellImage shellsState (.execute (some shellCommand) emptyFrame) =
      some (started shellsState emptyFrame 3 page (shellsState.pcb (3 : Nat)).args) := by
    rw [step, hx]
    rfl
  refine (step_move shellImage_hasShell h₀ hstep).not_owned h₀ (fun hok => ?_) (h.2 _ hstep)
  exact hne (hok.1 hstart (by rw [hfree]; rfl))

end LimeOS
