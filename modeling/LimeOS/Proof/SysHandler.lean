import LimeOS.Impl.SysHandler

/-!
# The entry of a system call

`sys_handler` pushes ten words and pops ten on both of its paths, so the stack
pointer is back at `iret` (`sysHandler_called`, `sysHandler_error`). The saved
`edx` is popped into `edi`, and `edx` is what the function has left in the slot
of its third argument: the caller's registers are back exactly when that is
the caller's `edx` (`sysHandler_preserves_iff`).
-/

namespace LimeOS

/-! ## Saving and restoring -/

/-- The processor with the registers, the flags and the arguments on the stack. -/
def sysHandlerSaved (c : Cpu) : Cpu :=
  (((((((((c.push (c.reg .ebp)).push (c.reg .edi)).push (c.reg .esi)).push (c.reg .edx)).push (c.reg .ecx)).push
    (c.reg .ebx)).push c.eflags).push (c.reg .edx)).push (c.reg .ecx)).push (c.reg .ebx)

theorem sysHandlerPushes_eq (c : Cpu) : sysHandlerPushes.foldlM exec c = some (sysHandlerSaved c) := rfl

@[simp] theorem sysHandlerSaved_reg (c : Cpu) : (sysHandlerSaved c).reg = c.reg := by
  simp only [sysHandlerSaved, Cpu.push_reg]

@[simp] theorem sysHandlerSaved_eflags (c : Cpu) : (sysHandlerSaved c).eflags = c.eflags := by
  simp only [sysHandlerSaved, Cpu.push_eflags]

/-- The words that `restore` is to find above the arguments. -/
def savedWords (c : Cpu) : List Word :=
  [c.eflags, c.reg .ebx, c.reg .ecx, c.reg .edx, c.reg .esi, c.reg .edi, c.reg .ebp]

theorem sysHandlerSaved_holds (c : Cpu) :
    (sysHandlerSaved c).Holds ([c.reg .ebx, c.reg .ecx, c.reg .edx] ++ savedWords c) := by
  unfold sysHandlerSaved savedWords
  repeat' refine Cpu.Holds.push ?_ (by simp) _
  exact .nil c

theorem sysHandlerSaved_esp (c : Cpu) : (sysHandlerSaved c).esp = c.esp - 40 := by
  simp only [sysHandlerSaved, Cpu.push]
  bv_omega

/-- The pops of `restore`: the saved `edx` goes to `edi` before the saved `edi` does. -/
theorem sysHandlerRestore_eq {c : Cpu} {a₁ a₂ a₃ fl bx cx dx si di bp : Word}
    (h : c.Holds [a₁, a₂, a₃, fl, bx, cx, dx, si, di, bp]) :
    ∃ c', sysHandlerRestore.foldlM exec c = some c' ∧ c'.esp = c.esp + 40 ∧ c'.reg .eax = c.reg .eax ∧
      c'.reg .ebx = bx ∧ c'.reg .ecx = cx ∧ c'.reg .edx = a₃ ∧ c'.reg .esi = si ∧ c'.reg .edi = di ∧
      c'.reg .ebp = bp := by
  obtain ⟨e₁, h⟩ := h.popl .ebx
  obtain ⟨e₂, h⟩ := h.popl .ecx
  obtain ⟨e₃, h⟩ := h.popl .edx
  obtain ⟨e₄, h⟩ := h.popfl
  obtain ⟨e₅, h⟩ := h.popl .ebx
  obtain ⟨e₆, h⟩ := h.popl .ecx
  obtain ⟨e₇, h⟩ := h.popl .edi
  obtain ⟨e₈, h⟩ := h.popl .esi
  obtain ⟨e₉, h⟩ := h.popl .edi
  obtain ⟨e₁₀, -⟩ := h.popl .ebp
  rw [sysHandlerRestore, foldlM_exec_cons e₁, foldlM_exec_cons e₂, foldlM_exec_cons e₃, foldlM_exec_cons e₄,
    foldlM_exec_cons e₅, foldlM_exec_cons e₆, foldlM_exec_cons e₇, foldlM_exec_cons e₈, foldlM_exec_cons e₉,
    foldlM_exec_cons e₁₀]
  refine ⟨_, rfl, ?_, rfl, rfl, rfl, rfl, rfl, rfl, rfl⟩
  simp only [Cpu.set, Cpu.setFlags, Cpu.pop]
  bv_omega

/-! ## The two paths -/

section

variable {a : SyscallAddrs} {f : Word → Cpu → Cpu} {c : Cpu}

/-- The machine at `iret`, after a call from `c`. -/
structure Restored (c : Cpu) (eax edx : Word) (calls : List (Word × Cpu × Cpu)) (m : Machine) : Prop where
  pc : m.pc = 26
  calls : m.calls = calls
  esp : m.cpu.esp = c.esp
  eax : m.cpu.reg .eax = eax
  edx : m.cpu.reg .edx = edx
  reg : ∀ r ∈ [Reg.ebx, .ecx, .esi, .edi, .ebp], m.cpu.reg r = c.reg r

/-- From `restore`, with the saved words on the stack. -/
theorem sysHandler_restore {d : Cpu} {a₁ a₂ a₃ : Word} {calls : List (Word × Cpu × Cpu)}
    (h : d.Holds ([a₁, a₂, a₃] ++ savedWords c)) (he : d.esp = c.esp - 40) :
    ∃ m, Steps (sysHandler a) f 10 ⟨d, RESTORE, calls⟩ m ∧ Restored c (d.reg .eax) a₃ calls m := by
  obtain ⟨c', hc', hesp, hax, hbx, hcx, hdx, hsi, hdi, hbp⟩ := sysHandlerRestore_eq h
  refine ⟨_, steps_block ((sysHandler a).instrs.take 16) sysHandlerRestore ((sysHandler a).instrs.drop 26) rfl rfl hc', rfl, rfl, ?_, hax, hdx, ?_⟩
  · show c'.esp = c.esp
    rw [hesp, he, sub_add_cancel]
  · intro r hr
    simp only [List.mem_cons, List.not_mem_nil, or_false] at hr
    rcases hr with rfl | rfl | rfl | rfl | rfl
    · exact hbx
    · exact hcx
    · exact hsi
    · exact hdi
    · exact hbp

/-- The number that `eax` has on entry. -/
def callNumber (c : Cpu) : Int := (c.reg .eax).toInt

/-- The flags of the first comparison. -/
def flagsAtJl (c : Cpu) : Word := compareFlags c.eflags (c.reg .eax) 1

/-- The flags of the second. -/
def flagsAtJg (c : Cpu) : Word := compareFlags (flagsAtJl c) (c.reg .eax) 10

theorem sysHandler_jl : Steps (sysHandler a) f 12 ⟨c, 0, []⟩
    ⟨(sysHandlerSaved c).setFlags (flagsAtJl c), if callNumber c < 1 then ERROR_EAX else 12, []⟩ := by
  have hpush : Steps (sysHandler a) f 10 ⟨c, 0, []⟩ ⟨sysHandlerSaved c, 10, []⟩ :=
    steps_block [] sysHandlerPushes ((sysHandler a).instrs.drop 10) rfl rfl (sysHandlerPushes_eq c)
  have hcmp : Steps (sysHandler a) f 1 ⟨sysHandlerSaved c, 10, []⟩
      ⟨(sysHandlerSaved c).setFlags (flagsAtJl c), 11, []⟩ := by
    apply Steps.one (step_exec (i := .cmpl 1 .eax) rfl _)
    rw [exec, sysHandlerSaved_reg, sysHandlerSaved_eflags, flagsAtJl]
  have hjl := Steps.jl (p := sysHandler a) (f := f) (m := ⟨(sysHandlerSaved c).setFlags (flagsAtJl c), 11, []⟩)
    (x := c.reg .eax) (y := 1) rfl rfl
  rw [show (1 : Word).toInt = 1 by decide] at hjl
  exact (hpush.trans hcmp).trans hjl

theorem sysHandler_jg (h : ¬ callNumber c < 1) : Steps (sysHandler a) f 14 ⟨c, 0, []⟩
    ⟨(sysHandlerSaved c).setFlags (flagsAtJg c), if 10 < callNumber c then ERROR_EAX else 14, []⟩ := by
  have hjl := sysHandler_jl (a := a) (f := f) (c := c)
  rw [if_neg h] at hjl
  have hcmp : Steps (sysHandler a) f 1 ⟨(sysHandlerSaved c).setFlags (flagsAtJl c), 12, []⟩
      ⟨(sysHandlerSaved c).setFlags (flagsAtJg c), 13, []⟩ := by
    apply Steps.one (step_exec (i := .cmpl 10 .eax) rfl _)
    rw [exec, Cpu.setFlags_eflags, Cpu.setFlags_reg, Cpu.setFlags_setFlags, sysHandlerSaved_reg, flagsAtJg]
  have hjg := Steps.jg (p := sysHandler a) (f := f) (m := ⟨(sysHandlerSaved c).setFlags (flagsAtJg c), 13, []⟩)
    (x := c.reg .eax) (y := 10) rfl rfl
  rw [show (10 : Word).toInt = 10 by decide] at hjg
  exact (hjl.trans hcmp).trans hjg

/-- From `error_eax`. -/
theorem sysHandler_errorEax (fl : Word) : ∃ m,
    Steps (sysHandler a) f 12 ⟨(sysHandlerSaved c).setFlags fl, ERROR_EAX, []⟩ m ∧
      Restored c (-1) (c.reg .edx) [] m := by
  have hmov : Steps (sysHandler a) f 1 ⟨(sysHandlerSaved c).setFlags fl, ERROR_EAX, []⟩
      ⟨((sysHandlerSaved c).setFlags fl).set .eax (-1), 28, []⟩ := Steps.one rfl
  have hjmp : Steps (sysHandler a) f 1 ⟨((sysHandlerSaved c).setFlags fl).set .eax (-1), 28, []⟩
      ⟨((sysHandlerSaved c).setFlags fl).set .eax (-1), RESTORE, []⟩ := Steps.one rfl
  have hholds : (((sysHandlerSaved c).setFlags fl).set .eax (-1)).Holds
      ([c.reg .ebx, c.reg .ecx, c.reg .edx] ++ savedWords c) := (sysHandlerSaved_holds c).congr rfl rfl
  obtain ⟨m, hs, hm⟩ := sysHandler_restore hholds (sysHandlerSaved_esp c)
  exact ⟨m, (hmov.trans hjmp).trans hs, hm⟩

/-- A number that is none of a system call's. -/
theorem sysHandler_error (a : SyscallAddrs) (f : Word → Cpu → Cpu) (hn : ¬ (1 ≤ callNumber c ∧ callNumber c ≤ 10)) :
    ∃ n m, Steps (sysHandler a) f n ⟨c, 0, []⟩ m ∧ Restored c (-1) (c.reg .edx) [] m := by
  by_cases hl : callNumber c < 1
  · have hjl := sysHandler_jl (a := a) (f := f) (c := c)
    rw [if_pos hl] at hjl
    obtain ⟨m, hs, hm⟩ := sysHandler_errorEax (flagsAtJl c)
    exact ⟨_, m, hjl.trans hs, hm⟩
  · have hjg := sysHandler_jg (a := a) (f := f) hl
    rw [if_pos (by omega)] at hjg
    obtain ⟨m, hs, hm⟩ := sysHandler_errorEax (flagsAtJg c)
    exact ⟨_, m, hjg.trans hs, hm⟩

/-- The address of the system call's function. -/
def syscallAddr (a : SyscallAddrs) (c : Cpu) : Word := (syscallJumptable a).getD (c.reg .eax).toNat 0

/-- The processor on entry to the system call's function. -/
def sysHandlerEntry (a : SyscallAddrs) (c : Cpu) : Cpu :=
  (((sysHandlerSaved c).setFlags (flagsAtJg c)).set .eax (syscallAddr a c)).push (BitVec.ofNat 32 RESTORE)

/-- The numbers of the system calls are the same signed and unsigned. -/
theorem callNumber_eq (hn : 1 ≤ callNumber c ∧ callNumber c ≤ 10) : callNumber c = (c.reg .eax).toNat := by
  rw [callNumber, BitVec.toInt_eq_toNat_cond] at hn ⊢
  split at hn
  · rename_i h
    rw [if_pos h]
  · omega

/-- The number is an index of the table. -/
theorem syscallJumptable_getElem? (hn : 1 ≤ callNumber c ∧ callNumber c ≤ 10) :
    (syscallJumptable a)[(c.reg .eax).toNat]? = some (syscallAddr a c) := by
  have h := callNumber_eq hn
  have hlt : (c.reg .eax).toNat < (syscallJumptable a).length := by
    show _ < 11
    omega
  rw [syscallAddr, List.getD_eq_getElem?_getD, List.getElem?_eq_getElem hlt, Option.getD_some]

theorem sysHandlerEntry_holds (a : SyscallAddrs) (c : Cpu) :
    (sysHandlerEntry a c).Holds (BitVec.ofNat 32 RESTORE :: [c.reg .ebx, c.reg .ecx, c.reg .edx] ++ savedWords c) := by
  apply Cpu.Holds.push
  · exact (sysHandlerSaved_holds c).congr rfl rfl
  · simp [savedWords]

theorem sysHandlerEntry_esp (a : SyscallAddrs) (c : Cpu) : (sysHandlerEntry a c).esp = c.esp - 44 := by
  show (sysHandlerSaved c).esp - 4 = _
  rw [sysHandlerSaved_esp]
  bv_omega

/-- A number of a system call. -/
theorem sysHandler_called (hf : Cdecl 3 7 (f (syscallAddr a c))) (hn : 1 ≤ callNumber c ∧ callNumber c ≤ 10) :
    let back := f (syscallAddr a c) (sysHandlerEntry a c)
    ∃ n m, Steps (sysHandler a) f n ⟨c, 0, []⟩ m ∧
      Restored c (back.reg .eax) (back.mem (c.esp - 32)) [(syscallAddr a c, sysHandlerEntry a c, back)] m := by
  intro back
  have hjg := sysHandler_jg (a := a) (f := f) (c := c) (by omega)
  rw [if_neg (by omega)] at hjg
  have htable : Steps (sysHandler a) f 1 ⟨(sysHandlerSaved c).setFlags (flagsAtJg c), 14, []⟩
      ⟨((sysHandlerSaved c).setFlags (flagsAtJg c)).set .eax (syscallAddr a c), 15, []⟩ := by
    apply Steps.one
    show ((syscallJumptable a)[(((sysHandlerSaved c).setFlags (flagsAtJg c)).reg .eax).toNat]?).map _ = _
    rw [Cpu.setFlags_reg, sysHandlerSaved_reg, syscallJumptable_getElem? hn]
    rfl
  have hcall : Steps (sysHandler a) f 1
      ⟨((sysHandlerSaved c).setFlags (flagsAtJg c)).set .eax (syscallAddr a c), 15, []⟩
      ⟨back, RESTORE, [(syscallAddr a c, sysHandlerEntry a c, back)]⟩ := Steps.one rfl
  -- the saved words are under the arguments, and the third argument is where `edx` comes from
  have hholds := hf.holds (sysHandlerEntry_holds a c) rfl (by simp [savedWords])
  have hesp : back.esp = c.esp - 40 := by
    rw [hf.esp, sysHandlerEntry_esp]
    bv_omega
  obtain ⟨m, hs, hm⟩ := sysHandler_restore (a := a) (f := f) hholds hesp
  simp only [sysHandlerEntry_esp] at hm
  rw [show c.esp - 44 + 4 * BitVec.ofNat 32 (2 + 1) = c.esp - 32 by bv_omega] at hm
  exact ⟨_, m, ((hjg.trans htable).trans hcall).trans hs, hm⟩

end

/-! ## What the caller gets back -/

/-- The machine is at `iret`, with the stack pointer and the registers of the
caller, and in `eax` the result of the function of the number, the only one
called; for a number of none, -1 and no function called. -/
structure PreservesCaller (a : SyscallAddrs) (c : Cpu) (m : Machine) : Prop where
  atIret : (sysHandler a).instrs[m.pc]? = some .iret
  esp : m.cpu.esp = c.esp
  reg : ∀ r ∈ [Reg.ebx, .ecx, .edx, .esi, .edi, .ebp], m.cpu.reg r = c.reg r
  called : 1 ≤ callNumber c ∧ callNumber c ≤ 10 → ∃ addr entry back,
    (syscallJumptable a)[(callNumber c).toNat]? = some addr ∧ m.calls = [(addr, entry, back)] ∧
      m.cpu.reg .eax = back.reg .eax
  error : ¬ (1 ≤ callNumber c ∧ callNumber c ≤ 10) → m.calls = [] ∧ m.cpu.reg .eax = -1

namespace Restored

variable {a : SyscallAddrs} {c : Cpu} {eax edx : Word} {calls : List (Word × Cpu × Cpu)} {m : Machine}

theorem atIret (h : Restored c eax edx calls m) : (sysHandler a).instrs[m.pc]? = some .iret := by
  rw [h.pc]
  rfl

theorem step_eq_none (h : Restored c eax edx calls m) (f : Word → Cpu → Cpu) : m.step (sysHandler a) f = none := by
  rw [Machine.step, h.atIret]
  rfl

theorem reg_eq (h : Restored c eax edx calls m) (hdx : edx = c.reg .edx) :
    ∀ r ∈ [Reg.ebx, .ecx, .edx, .esi, .edi, .ebp], m.cpu.reg r = c.reg r := by
  intro r hr
  by_cases hr' : r = .edx
  · rw [hr', h.edx, hdx]
  · refine h.reg r ?_
    revert r
    decide

end Restored

/-- The function leaves the caller's `edx` in the slot of its third argument. -/
def KeepsThirdArgument (a : SyscallAddrs) (f : Word → Cpu → Cpu) (c : Cpu) : Prop :=
  (f (syscallAddr a c) (sysHandlerEntry a c)).mem (c.esp - 32) = c.reg .edx

section

variable {a : SyscallAddrs} {f : Word → Cpu → Cpu} {c : Cpu}

theorem cdecl_syscallAddr (hf : ∀ addr ∈ (syscallJumptable a).tail, Cdecl 3 7 (f addr))
    (hn : 1 ≤ callNumber c ∧ callNumber c ≤ 10) : Cdecl 3 7 (f (syscallAddr a c)) := by
  have h := callNumber_eq hn
  apply hf
  apply List.mem_of_getElem? (i := (c.reg .eax).toNat - 1)
  rw [List.getElem?_tail, Nat.sub_add_cancel (by omega), syscallJumptable_getElem? hn]

theorem sysHandler_preserves (hf : ∀ addr ∈ (syscallJumptable a).tail, Cdecl 3 7 (f addr))
    (hk : 1 ≤ callNumber c ∧ callNumber c ≤ 10 → KeepsThirdArgument a f c) :
    ∃ n m, Steps (sysHandler a) f n ⟨c, 0, []⟩ m ∧ PreservesCaller a c m := by
  by_cases hn : 1 ≤ callNumber c ∧ callNumber c ≤ 10
  · obtain ⟨n, m, hs, hm⟩ := sysHandler_called (cdecl_syscallAddr hf hn) hn
    refine ⟨n, m, hs, hm.atIret, hm.esp, hm.reg_eq (hk hn), fun _ => ⟨_, _, _, ?_, hm.calls, hm.eax⟩,
      fun h => absurd hn h⟩
    rw [callNumber_eq hn, Int.toNat_natCast, syscallJumptable_getElem? hn]
  · obtain ⟨n, m, hs, hm⟩ := sysHandler_error a f hn
    exact ⟨n, m, hs, hm.atIret, hm.esp, hm.reg_eq rfl, fun h => absurd h hn, fun _ => ⟨hm.calls, hm.eax⟩⟩

theorem sysHandler_not_preserves (hf : ∀ addr ∈ (syscallJumptable a).tail, Cdecl 3 7 (f addr))
    (hn : 1 ≤ callNumber c ∧ callNumber c ≤ 10) (hk : ¬ KeepsThirdArgument a f c) :
    ¬ ∃ n m, Steps (sysHandler a) f n ⟨c, 0, []⟩ m ∧ PreservesCaller a c m := by
  rintro ⟨n, m, hs, hm⟩
  obtain ⟨n', m', hs', hm'⟩ := sysHandler_called (cdecl_syscallAddr hf hn) hn
  have hnone : m.step (sysHandler a) f = none := by
    rw [Machine.step, hm.atIret]
    rfl
  obtain rfl := hs.unique hs' hnone (hm'.step_eq_none f)
  apply hk
  rw [KeepsThirdArgument, ← hm'.edx]
  exact hm.reg .edx (by decide)

end

/-- For every processor state on entry and functions that keep to the calling
convention: the caller's registers are back at `iret` exactly when the number is
none of a system call's or the function leaves the slot of its third argument. -/
theorem sysHandler_preserves_iff (a : SyscallAddrs) (f : Word → Cpu → Cpu)
    (hf : ∀ addr ∈ (syscallJumptable a).tail, Cdecl 3 7 (f addr)) (c : Cpu) :
    (∃ n m, Steps (sysHandler a) f n ⟨c, 0, []⟩ m ∧ PreservesCaller a c m) ↔
      (1 ≤ callNumber c ∧ callNumber c ≤ 10 → KeepsThirdArgument a f c) := by
  refine ⟨fun h hn => ?_, sysHandler_preserves hf⟩
  by_contra hk
  exact sysHandler_not_preserves hf hn hk h

/-- A function that only returns -1, as `set_handler` and `sigreturn` do. -/
def returnsMinusOne (c : Cpu) : Cpu := c.pop.set .eax (-1)

theorem returnsMinusOne_cdecl : Cdecl 3 7 returnsMinusOne := by
  refine ⟨fun c => rfl, fun c r hr => ?_, fun c k _ _ => rfl⟩
  refine Function.update_of_ne ?_ _ _
  revert r
  decide

/-- A function that stores to the slot of its third argument. -/
def clearsThirdArgument (c : Cpu) : Cpu := { c.pop with mem := Function.update c.mem (c.esp + 12) 0 }

theorem clearsThirdArgument_cdecl : Cdecl 3 7 clearsThirdArgument := by
  refine ⟨fun c => rfl, fun c r hr => rfl, fun c k h₁ h₂ => ?_⟩
  refine Function.update_of_ne ?_ _ _
  bv_omega

/-- A call with `number` in `eax` and 5 in `edx`. -/
def callWith (number : Word) : Cpu :=
  ⟨fun r => if r = .eax then number else if r = .edx then 5 else 0, 0x800000, 0x202, fun _ => 0⟩

/-- Addresses for the functions. -/
def someAddrs : SyscallAddrs := ⟨1, 2, 3, 4, 5, 6, 7, 8, 9, 10⟩

theorem sysHandler_preserves_sigreturn :
    ∃ n m, Steps (sysHandler someAddrs) (fun _ => returnsMinusOne) n ⟨callWith 10, 0, []⟩ m ∧
      PreservesCaller someAddrs (callWith 10) m :=
  (sysHandler_preserves_iff someAddrs _ (fun _ _ => returnsMinusOne_cdecl) (callWith 10)).mpr fun _ => by
    rw [KeepsThirdArgument]
    decide +kernel

/-- `read` with a compiled body that uses the slot of `nbytes`. -/
theorem sysHandler_clobbers_edx :
    (∀ addr ∈ (syscallJumptable someAddrs).tail, Cdecl 3 7 ((fun _ => clearsThirdArgument) addr)) ∧
    ¬ ∃ n m, Steps (sysHandler someAddrs) (fun _ => clearsThirdArgument) n ⟨callWith 3, 0, []⟩ m ∧
      PreservesCaller someAddrs (callWith 3) m := by
  refine ⟨fun _ _ => clearsThirdArgument_cdecl,
    sysHandler_not_preserves (fun _ _ => clearsThirdArgument_cdecl) (by decide) ?_⟩
  rw [KeepsThirdArgument]
  decide +kernel

end LimeOS
