import Mathlib.Data.BitVec
import Mathlib.Logic.Function.Basic
import LimeOS.Framework.Run

/-!
# A part of the IA-32

The general registers, the flags and the stack, and the instructions that save
and restore them, compare, branch and call. Code without branches runs to what
its instructions come to one after another (`steps_block`). What is on the
stack is a list (`Cpu.Holds`): `push` puts a word before it and `pop` takes one
off, whatever the stack pointer. A called function is what it does from its
first instruction to its return, and keeps what the calling convention says
(`Cdecl`).
-/

namespace LimeOS

abbrev Word := BitVec 32

inductive Reg
  | eax
  | ebx
  | ecx
  | edx
  | esi
  | edi
  | ebp
  deriving DecidableEq

/-- The double words of memory are by their addresses; those in use are a
multiple of four from the stack pointer. -/
structure Cpu where
  reg : Reg → Word
  esp : Word
  eflags : Word
  mem : Word → Word

inductive Instr
  | pushl (r : Reg)
  | popl (r : Reg)
  | pushfl
  | popfl
  /-- `cmpl $imm, %r`. -/
  | cmpl (imm : Word) (r : Reg)
  /-- `movl $imm, %r`. -/
  | movl (imm : Word) (r : Reg)
  /-- `movl table(,%r,4), %r`. -/
  | movlTable (r : Reg)
  | jl (target : Nat)
  | jg (target : Nat)
  | jmp (target : Nat)
  /-- `call *%r`. -/
  | call (r : Reg)
  | iret
  deriving DecidableEq

namespace Cpu

variable (c : Cpu)

def set (r : Reg) (v : Word) : Cpu := { c with reg := Function.update c.reg r v }

def setFlags (v : Word) : Cpu := { c with eflags := v }

def push (v : Word) : Cpu := { c with esp := c.esp - 4, mem := Function.update c.mem (c.esp - 4) v }

/-- The word at the stack pointer. -/
def top : Word := c.mem c.esp

def pop : Cpu := { c with esp := c.esp + 4 }

@[simp] theorem setFlags_eflags (v : Word) : (c.setFlags v).eflags = v := rfl
@[simp] theorem setFlags_reg (v : Word) : (c.setFlags v).reg = c.reg := rfl
@[simp] theorem setFlags_setFlags (v w : Word) : (c.setFlags v).setFlags w = c.setFlags w := rfl
@[simp] theorem push_reg (v : Word) : (c.push v).reg = c.reg := rfl
@[simp] theorem push_eflags (v : Word) : (c.push v).eflags = c.eflags := rfl

end Cpu

/-! ## Flags -/

abbrev CARRY : Word := 0x001
abbrev PARITY : Word := 0x004
abbrev ADJUST : Word := 0x010
abbrev ZERO : Word := 0x040
abbrev SIGN : Word := 0x080
abbrev OVERFLOW : Word := 0x800

/-- A flag of `eflags`, by its bit. -/
def flagWhen (b : Bool) (flag : Word) : Word := if b then flag else 0

/-- The flags that `a - b` leaves. -/
def compareFlags (eflags a b : Word) : Word :=
  (eflags &&& ~~~(CARRY ||| PARITY ||| ADJUST ||| ZERO ||| SIGN ||| OVERFLOW)) |||
    flagWhen (decide (a.toNat < b.toNat)) CARRY |||
    flagWhen (decide (((List.range 8).countP (a - b).getLsbD) % 2 = 0)) PARITY |||
    flagWhen (decide (a.toNat % 16 < b.toNat % 16)) ADJUST |||
    flagWhen (decide (a - b = 0)) ZERO |||
    flagWhen (a - b).msb SIGN |||
    flagWhen (a.msb != b.msb && a.msb != (a - b).msb) OVERFLOW

def isZero (eflags : Word) : Bool := eflags.getLsbD 6
def isSigned (eflags : Word) : Bool := eflags.getLsbD 7
def isOverflow (eflags : Word) : Bool := eflags.getLsbD 11

/-- The condition of `jl`. -/
def lessFlags (eflags : Word) : Bool := isSigned eflags != isOverflow eflags

/-- The condition of `jg`. -/
def greaterFlags (eflags : Word) : Bool := !isZero eflags && isSigned eflags == isOverflow eflags

theorem flagWhen_getElem (b : Bool) (flag : Word) {i : Nat} (hi : i < 32) :
    (flagWhen b flag)[i] = (b && flag[i]) := by
  cases b <;> simp [flagWhen]

theorem compareFlags_isZero (eflags a b : Word) : isZero (compareFlags eflags a b) = decide (a - b = 0) := by
  simp [isZero, compareFlags, flagWhen_getElem]

theorem compareFlags_isSigned (eflags a b : Word) : isSigned (compareFlags eflags a b) = (a - b).msb := by
  simp [isSigned, compareFlags, flagWhen_getElem]

theorem compareFlags_isOverflow (eflags a b : Word) :
    isOverflow (compareFlags eflags a b) = (a.msb != b.msb && a.msb != (a - b).msb) := by
  simp [isOverflow, compareFlags, flagWhen_getElem]

/-- The sign of a difference is that of the comparison, but for an overflow. -/
theorem compareFlags_less (eflags a b : Word) :
    lessFlags (compareFlags eflags a b) = decide (a.toInt < b.toInt) := by
  have ha := a.le_two_mul_toInt
  have ha' := a.two_mul_toInt_lt
  have hb := b.le_two_mul_toInt
  have hb' := b.two_mul_toInt_lt
  have hsub : (a - b).toInt = (a.toInt - b.toInt).bmod (2 ^ 32) := BitVec.toInt_sub
  rw [Int.bmod_def] at hsub
  rw [lessFlags, compareFlags_isSigned, compareFlags_isOverflow]
  simp only [BitVec.msb_eq_toInt]
  generalize a.toInt = x at *
  generalize b.toInt = y at *
  generalize (a - b).toInt = z at *
  by_cases hx : x < 0 <;> by_cases hy : y < 0 <;> by_cases hz : z < 0 <;> by_cases hl : x < y <;>
    simp only [hx, hy, hz, hl, decide_true, decide_false] <;> first | rfl | (exfalso; omega)

theorem compareFlags_greater (eflags a b : Word) :
    greaterFlags (compareFlags eflags a b) = decide (b.toInt < a.toInt) := by
  have hl := compareFlags_less eflags a b
  have hz : a - b = 0 ↔ a.toInt = b.toInt := by
    rw [BitVec.toInt_inj]
    exact sub_eq_zero
  rw [lessFlags, bne] at hl
  rw [greaterFlags, compareFlags_isZero, ← Bool.not_not (_ == _), hl, Bool.eq_iff_iff]
  simp only [Bool.and_eq_true, Bool.not_eq_true', decide_eq_false_iff_not, decide_eq_true_eq, hz]
  omega

/-! ## Execution -/

/-- An instruction that goes on with the next one. -/
def exec (c : Cpu) : Instr → Option Cpu
  | .pushl r => some (c.push (c.reg r))
  | .popl r => some (c.pop.set r c.top)
  | .pushfl => some (c.push c.eflags)
  | .popfl => some (c.pop.setFlags c.top)
  | .cmpl imm r => some (c.setFlags (compareFlags c.eflags (c.reg r) imm))
  | .movl imm r => some (c.set r imm)
  | _ => none

theorem foldlM_exec_cons {c c' : Cpu} {i : Instr} (h : exec c i = some c') (is : List Instr) :
    (i :: is).foldlM exec c = is.foldlM exec c' := by
  rw [List.foldlM_cons, h]
  rfl

/-- Code and the table that it calls through. -/
structure Code where
  instrs : List Instr
  table : List Word

/-- The processor, where it is in the code, and the calls made so far: the
address called, and the processor on entry to the function and on return. -/
structure Machine where
  cpu : Cpu
  pc : Nat
  calls : List (Word × Cpu × Cpu)

section

variable (p : Code) (f : Word → Cpu → Cpu)

/-- One instruction, with `f` the functions by their addresses; none at `iret`. -/
def Machine.step (m : Machine) : Option Machine :=
  match p.instrs[m.pc]? with
  | none => none
  | some (.jl target) => some { m with pc := if lessFlags m.cpu.eflags then target else m.pc + 1 }
  | some (.jg target) => some { m with pc := if greaterFlags m.cpu.eflags then target else m.pc + 1 }
  | some (.jmp target) => some { m with pc := target }
  | some (.movlTable r) =>
    p.table[(m.cpu.reg r).toNat]?.map fun v => { m with cpu := m.cpu.set r v, pc := m.pc + 1 }
  | some (.call r) =>
    let entry := m.cpu.push (BitVec.ofNat 32 (m.pc + 1))
    let back := f (m.cpu.reg r) entry
    some ⟨back, m.pc + 1, (m.cpu.reg r, entry, back) :: m.calls⟩
  | some i => (exec m.cpu i).map fun c => { m with cpu := c, pc := m.pc + 1 }

/-- The machine after `n` instructions. -/
structure Steps (n : Nat) (m m' : Machine) : Prop where
  eq : run (fun m (_ : Unit) => m.step p f) m (List.replicate n ()) = some m'

end

section

variable {p : Code} {f : Word → Cpu → Cpu} {m m₁ m₂ : Machine}

theorem Steps.trans {n k : Nat} (h₁ : Steps p f n m m₁) (h₂ : Steps p f k m₁ m₂) : Steps p f (n + k) m m₂ := by
  constructor
  exact run_replicate_add h₁.eq h₂.eq

theorem Steps.one (h : m.step p f = some m₁) : Steps p f 1 m m₁ := by
  constructor
  exact run_replicate_one h

/-- `jl` after a comparison. -/
theorem Steps.jl {target : Nat} {fl x y : Word} (hi : p.instrs[m.pc]? = some (.jl target))
    (hf : m.cpu.eflags = compareFlags fl x y) :
    Steps p f 1 m { m with pc := if x.toInt < y.toInt then target else m.pc + 1 } := by
  apply Steps.one
  rw [Machine.step, hi]
  simp only [hf, compareFlags_less, decide_eq_true_eq]

/-- `jg` after a comparison. -/
theorem Steps.jg {target : Nat} {fl x y : Word} (hi : p.instrs[m.pc]? = some (.jg target))
    (hf : m.cpu.eflags = compareFlags fl x y) :
    Steps p f 1 m { m with pc := if y.toInt < x.toInt then target else m.pc + 1 } := by
  apply Steps.one
  rw [Machine.step, hi]
  simp only [hf, compareFlags_greater, decide_eq_true_eq]

/-- The code ends in one way. -/
theorem Steps.unique {n k : Nat} (h₁ : Steps p f n m m₁) (h₂ : Steps p f k m m₂) (e₁ : m₁.step p f = none)
    (e₂ : m₂.step p f = none) : m₁ = m₂ := by
  obtain ⟨h₁⟩ := h₁
  obtain ⟨h₂⟩ := h₂
  induction n generalizing m k with
  | zero =>
    cases h₁
    cases k with
    | zero => exact Option.some.inj h₂
    | succ k =>
      obtain ⟨m', hm, -⟩ := run_cons_eq_some h₂
      exact absurd (e₁.symm.trans hm) (by simp)
  | succ n ih =>
    obtain ⟨m', hm, h₁'⟩ := run_cons_eq_some h₁
    cases k with
    | zero =>
      cases h₂
      exact absurd (e₂.symm.trans hm) (by simp)
    | succ k =>
      obtain ⟨m'', hm', h₂'⟩ := run_cons_eq_some h₂
      obtain rfl := Option.some.inj (hm.symm.trans hm')
      exact ih h₁' h₂'

theorem step_exec {i : Instr} {c : Cpu} (hi : p.instrs[m.pc]? = some i) (h : exec m.cpu i = some c) :
    m.step p f = some { m with cpu := c, pc := m.pc + 1 } := by
  cases i <;> simp_all [Machine.step, exec]

/-- Instructions without branches, from the first of them on. -/
theorem steps_block (before is after : List Instr) (hp : p.instrs = before ++ is ++ after) {c : Cpu}
    (hpc : m.pc = before.length) (h : is.foldlM exec m.cpu = some c) :
    Steps p f is.length m { m with cpu := c, pc := m.pc + is.length } := by
  induction is generalizing before m with
  | nil =>
    cases h
    exact ⟨rfl⟩
  | cons i is ih =>
    rw [List.foldlM_cons] at h
    obtain ⟨c₁, h₁, h₂⟩ := Option.bind_eq_some_iff.mp h
    have hi : p.instrs[m.pc]? = some i := by
      rw [hp, hpc, List.append_assoc, List.getElem?_append_right (Nat.le_refl _)]
      simp
    have hrest := ih (before ++ [i]) (m := { m with cpu := c₁, pc := m.pc + 1 }) (by rw [hp]; simp) (by simp [hpc]) h₂
    have hone := Steps.one (f := f) (step_exec hi h₁)
    rw [List.length_cons, Nat.add_comm is.length 1, ← Nat.add_assoc]
    exact hone.trans hrest

end

/-! ## The stack -/

theorem stack_succ (a : Word) (k : Nat) :
    a - 4 + 4 * BitVec.ofNat 32 (k + 1) = a + 4 * BitVec.ofNat 32 k := by
  bv_omega

theorem stack_ne (a : Word) {k : Nat} (hk : k + 1 < 2 ^ 30) : a + 4 * BitVec.ofNat 32 k ≠ a - 4 := by
  bv_omega

/-- The words from the stack pointer up. -/
def Cpu.Holds (c : Cpu) (ws : List Word) : Prop :=
  ∀ k v, ws[k]? = some v → c.mem (c.esp + 4 * BitVec.ofNat 32 k) = v

namespace Cpu.Holds

variable {c : Cpu} {ws : List Word}

theorem nil (c : Cpu) : c.Holds [] := fun k v h => by simp at h

theorem push (h : c.Holds ws) (hl : ws.length < 2 ^ 30) (v : Word) : (c.push v).Holds (v :: ws) := by
  intro k w hk
  cases k with
  | zero =>
    obtain rfl := Option.some.inj hk
    simp [Cpu.push]
  | succ k =>
    have hw : ws[k]? = some w := hk
    have hlt := (List.getElem?_eq_some_iff.mp hw).1
    show Function.update c.mem (c.esp - 4) v (c.esp - 4 + 4 * BitVec.ofNat 32 (k + 1)) = w
    rw [stack_succ, Function.update_of_ne (stack_ne _ (by omega))]
    exact h k w hw

theorem top_eq {w : Word} (h : c.Holds (w :: ws)) : c.top = w := by
  have h₀ := h 0 w rfl
  simpa [Cpu.top] using h₀

theorem pop {w : Word} (h : c.Holds (w :: ws)) : c.pop.Holds ws := by
  intro k v hk
  have hs := stack_succ (c.esp + 4) k
  rw [add_sub_cancel_right] at hs
  show c.mem (c.esp + 4 + 4 * BitVec.ofNat 32 k) = v
  rw [← hs]
  exact h (k + 1) v hk

/-- The stack is read and not the registers. -/
theorem congr (h : c.Holds ws) {c' : Cpu} (he : c'.esp = c.esp) (hm : c'.mem = c.mem) : c'.Holds ws := by
  intro k v hk
  rw [he, hm]
  exact h k v hk

theorem popl {w : Word} (h : c.Holds (w :: ws)) (r : Reg) :
    exec c (.popl r) = some (c.pop.set r w) ∧ (c.pop.set r w).Holds ws := by
  refine ⟨?_, h.pop.congr rfl rfl⟩
  rw [exec, h.top_eq]

theorem popfl {w : Word} (h : c.Holds (w :: ws)) :
    exec c .popfl = some (c.pop.setFlags w) ∧ (c.pop.setFlags w).Holds ws := by
  refine ⟨?_, h.pop.congr rfl rfl⟩
  rw [exec, h.top_eq]

end Cpu.Holds

/-! ## Functions -/

/-- What a C function may do, from its entry with the return address on the
stack to its return: it keeps `ebx`, `esi`, `edi` and `ebp`, takes the return
address off the stack, and leaves `saved` words of its caller's above its
`args` arguments. It may change all else, its arguments too. -/
structure Cdecl (args saved : Nat) (f : Cpu → Cpu) : Prop where
  esp : ∀ c, (f c).esp = c.esp + 4
  reg : ∀ c, ∀ r ∈ [Reg.ebx, .esi, .edi, .ebp], (f c).reg r = c.reg r
  stack : ∀ c k, args < k → k ≤ args + saved →
    (f c).mem (c.esp + 4 * BitVec.ofNat 32 k) = c.mem (c.esp + 4 * BitVec.ofNat 32 k)

/-- The caller's words are still there, above whatever is left of the arguments. -/
theorem Cdecl.holds {args saved : Nat} {f : Cpu → Cpu} (h : Cdecl args saved f) {c : Cpu} {ra : Word}
    {as ws : List Word} (hc : c.Holds (ra :: as ++ ws)) (ha : as.length = args) (hw : ws.length ≤ saved) :
    (f c).Holds ((List.range args).map (fun k => (f c).mem (c.esp + 4 * BitVec.ofNat 32 (k + 1))) ++ ws) := by
  intro k v hk
  have hs := stack_succ (c.esp + 4) k
  rw [add_sub_cancel_right] at hs
  rw [h.esp, ← hs]
  by_cases hka : k < args
  · rw [List.getElem?_append_left (by simpa using hka), List.getElem?_map, List.getElem?_range hka] at hk
    exact Option.some.inj hk
  · rw [List.getElem?_append_right (by simpa using hka), List.length_map, List.length_range] at hk
    have hlt := (List.getElem?_eq_some_iff.mp hk).1
    rw [h.stack c (k + 1) (by omega) (by omega)]
    apply hc
    rw [List.getElem?_append_right (by simp only [List.length_cons]; omega)]
    simp only [List.length_cons]
    rwa [show k + 1 - (as.length + 1) = k - args by omega]

end LimeOS
