import Mathlib.Logic.Relation
import LimeOS.Framework.Cpu
import LimeOS.Framework.Mem

/-!
# The IA-32 on memory by bytes

The instructions that test, count, and move bytes and strings, over the
registers of `Cpu`. A segment starts at address zero, whatever its selector. A
`rep` prefix is one iteration a step, so that an instruction that does not end
is not taken to. Code without branches runs to what its instructions come to
one after another (`Reaches.block`), and a test with the branch after it goes one
of two ways (`Reaches.testJz`).
-/

namespace LimeOS

/-- The registers, the zero and the direction flag, two of the segment registers, and memory. -/
structure ByteCpu where
  reg : Reg → Word
  zf : Bool
  df : Bool
  ds : BitVec 16
  es : BitVec 16
  mem : Mem

inductive ByteInstr
  /-- `testl %r, %q`. -/
  | testl (r q : Reg)
  /-- `testl $imm, %r`. -/
  | testlImm (imm : Word) (r : Reg)
  | jz (target : Nat)
  | jmp (target : Nat)
  /-- `movb (%a), %r`, the low byte of `r`. -/
  | movbFrom (a r : Reg)
  /-- `movb %r, (%a)`, the low byte of `r`. -/
  | movbTo (r a : Reg)
  /-- `addl $imm, %r`. -/
  | addl (imm : Word) (r : Reg)
  | subl (imm : Word) (r : Reg)
  | andl (imm : Word) (r : Reg)
  | shrl (k : Nat) (r : Reg)
  /-- `movl %r, %q`. -/
  | movl (r q : Reg)
  /-- `movw %ds, %r`, the low word of `r`. -/
  | movwFromDs (r : Reg)
  /-- `movw %r, %es`. -/
  | movwToEs (r : Reg)
  | cld
  | repStosl
  | repMovsl
  deriving DecidableEq

/-- Byte `k` of a word, the lowest first. -/
def byteOf (v : Word) (k : Nat) : Byte := v.extractLsb' (8 * k) 8

theorem byteOf_append (v : BitVec 24) (b : Byte) : byteOf (v ++ b) 0 = b := by
  ext i hi
  have h : (v ++ b).getLsbD i = b.getLsbD i := by rw [BitVec.getLsbD_append, if_pos hi]
  rw [byteOf, BitVec.getElem_extractLsb', Nat.mul_zero, Nat.zero_add, ← BitVec.getLsbD_eq_getElem hi]
  exact h

theorem byteOf_or (v w : Word) (k : Nat) : byteOf (v ||| w) k = byteOf v k ||| byteOf w k := by
  ext i hi
  simp [byteOf]

theorem getLsbD_and_0xFF (v : Word) (j : Nat) : (v &&& 0xFF).getLsbD j = (decide (j < 8) && v.getLsbD j) := by
  have hmask : ∀ j < 32, (0xFF : Word).getLsbD j = decide (j < 8) := by decide
  rw [BitVec.getLsbD_and, Bool.and_comm]
  by_cases hj : j < 32
  · rw [hmask j hj]
  · rw [BitVec.getLsbD_of_ge v j (by omega), Bool.and_false, Bool.and_false]

/-- The low byte of `v`, shifted to byte `j`. -/
theorem byteOf_shiftLeft (v : Word) {j k : Nat} (hk : k < 4) :
    byteOf ((v &&& 0xFF) <<< (8 * j)) k = if k = j then v.setWidth 8 else 0 := by
  ext i hi
  rw [byteOf, BitVec.getElem_extractLsb', BitVec.getLsbD_shiftLeft, getLsbD_and_0xFF]
  split
  · rename_i h
    subst h
    simp [hi, show 8 * k + i < 32 by omega]
  · by_cases hlt : 8 * k + i < 8 * j
    · simp [hlt]
    · simp [show ¬ 8 * k + i - 8 * j < 8 by omega]

/-- An address `k` bytes on. -/
theorem toNat_add_ofNat (a : Word) (k : Nat) : (a + BitVec.ofNat 32 k).toNat = (a.toNat + k) % 2 ^ 32 := by
  rw [BitVec.toNat_add, BitVec.toNat_ofNat, Nat.add_mod_mod]

namespace ByteCpu

variable (c : ByteCpu)

def set (r : Reg) (v : Word) : ByteCpu := { c with reg := Function.update c.reg r v }

/-- The zero flag after the result `v`. -/
def setZf (v : Word) : ByteCpu := { c with zf := decide (v = 0) }

/-- Four bytes from the address `a` on. -/
def store4 (a : Word) (b : Nat → Byte) : ByteCpu :=
  let m := (c.mem.store a.toNat (b 0)).store (a + 1).toNat (b 1)
  { c with mem := (m.store (a + 2).toNat (b 2)).store (a + 3).toNat (b 3) }

/-- A string instruction's pointer after one double word. -/
def advance (r : Reg) : ByteCpu := c.set r (if c.df then c.reg r - 4 else c.reg r + 4)

theorem advance_reg {c : ByteCpu} (h : c.df = false) (r : Reg) : (c.advance r).reg r = c.reg r + 4 := by
  show Function.update c.reg r _ r = _
  rw [Function.update_self, h]
  rfl

/-- One iteration of `stosl`. -/
def stosl : ByteCpu := (c.store4 (c.reg .edi) (byteOf (c.reg .eax))).advance .edi

/-- One iteration of `movsl`: the bytes are read before any is stored. -/
def movsl : ByteCpu :=
  ((c.store4 (c.reg .edi) fun k => c.mem.byte (c.reg .esi + BitVec.ofNat 32 k).toNat).advance .edi).advance .esi

/-- An instruction that goes on with the next one. -/
def exec (c : ByteCpu) : ByteInstr → Option ByteCpu
  | .testl r q => some (c.setZf (c.reg r &&& c.reg q))
  | .testlImm imm r => some (c.setZf (c.reg r &&& imm))
  | .movbFrom a r => some (c.set r ((c.reg r).extractLsb' 8 24 ++ c.mem.byte (c.reg a).toNat))
  | .movbTo r a => some { c with mem := c.mem.store (c.reg a).toNat (byteOf (c.reg r) 0) }
  | .addl imm r => some ((c.set r (c.reg r + imm)).setZf (c.reg r + imm))
  | .subl imm r => some ((c.set r (c.reg r - imm)).setZf (c.reg r - imm))
  | .andl imm r => some ((c.set r (c.reg r &&& imm)).setZf (c.reg r &&& imm))
  | .shrl k r => some ((c.set r (c.reg r >>> k)).setZf (c.reg r >>> k))
  | .movl r q => some (c.set q (c.reg r))
  | .movwFromDs r => some (c.set r ((c.reg r).extractLsb' 16 16 ++ c.ds))
  | .movwToEs r => some { c with es := (c.reg r).setWidth 16 }
  | .cld => some { c with df := false }
  | _ => none

/-- One iteration of a string instruction. -/
def iteration (c : ByteCpu) : ByteInstr → Option ByteCpu
  | .repStosl => some c.stosl
  | .repMovsl => some c.movsl
  | _ => none

end ByteCpu

/-- The processor and where it is in the code. -/
structure ByteMachine where
  cpu : ByteCpu
  pc : Nat

/-- One instruction, or one iteration of a repeated one; none at the end of the code. -/
def ByteMachine.step (p : List ByteInstr) (m : ByteMachine) : Option ByteMachine :=
  match p[m.pc]? with
  | none => none
  | some (.jz target) => some { m with pc := if m.cpu.zf then target else m.pc + 1 }
  | some (.jmp target) => some { m with pc := target }
  | some i =>
    match m.cpu.iteration i with
    | some c =>
      -- the count is tested before it is taken from
      if m.cpu.reg .ecx = 0 then some { m with pc := m.pc + 1 }
      else some { m with cpu := c.set .ecx (c.reg .ecx - 1) }
    | none => (m.cpu.exec i).map fun c => ⟨c, m.pc + 1⟩

/-- The machine comes to `m'`. -/
def Reaches (p : List ByteInstr) : ByteMachine → ByteMachine → Prop :=
  Relation.ReflTransGen fun m m' => m.step p = some m'

namespace Reaches

variable {p : List ByteInstr} {m m₁ m₂ : ByteMachine} {c c' : ByteCpu} {pc : Nat}

theorem refl (p : List ByteInstr) (m : ByteMachine) : Reaches p m m := Relation.ReflTransGen.refl

theorem trans (h₁ : Reaches p m m₁) (h₂ : Reaches p m₁ m₂) : Reaches p m m₂ := Relation.ReflTransGen.trans h₁ h₂

theorem one (h : m.step p = some m₁) : Reaches p m m₁ := Relation.ReflTransGen.single h

theorem exec {i : ByteInstr} (hi : p[pc]? = some i) (h : c.exec i = some c') : Reaches p ⟨c, pc⟩ ⟨c', pc + 1⟩ := by
  apply Reaches.one
  rw [ByteMachine.step]
  cases i <;> simp_all [ByteCpu.exec, ByteCpu.iteration]

/-- The first of the instructions from `pc` on, and the others. -/
theorem head_rest {i : ByteInstr} {is : List ByteInstr} (hp : i :: is <+: p.drop pc) :
    p[pc]? = some i ∧ is <+: p.drop (pc + 1) := by
  obtain ⟨after, ha⟩ := hp
  constructor
  · rw [← List.head?_drop, ← ha, List.cons_append, List.head?_cons]
  · refine ⟨after, ?_⟩
    rw [← List.tail_drop, ← ha, List.cons_append, List.tail_cons]

/-- Instructions without branches, from the first of them on. -/
theorem block {is : List ByteInstr} (hp : is <+: p.drop pc) (h : is.foldlM ByteCpu.exec c = some c') :
    Reaches p ⟨c, pc⟩ ⟨c', pc + is.length⟩ := by
  induction is generalizing c pc with
  | nil =>
    cases h
    exact refl p _
  | cons i is ih =>
    rw [List.foldlM_cons] at h
    obtain ⟨c₁, h₁, h₂⟩ := Option.bind_eq_some_iff.mp h
    obtain ⟨hi, hrest⟩ := head_rest hp
    rw [List.length_cons, Nat.add_comm is.length 1, ← Nat.add_assoc]
    exact (exec hi h₁).trans (ih hrest h₂)

/-- Such instructions, and the jump after them. -/
theorem blockJmp {is : List ByteInstr} {target : Nat} (hp : is ++ [.jmp target] <+: p.drop pc)
    (h : is.foldlM ByteCpu.exec c = some c') : Reaches p ⟨c, pc⟩ ⟨c', target⟩ := by
  have hi : p[pc + is.length]? = some (.jmp target) := by
    obtain ⟨after, ha⟩ := hp
    rw [← List.getElem?_drop, ← ha, List.append_assoc, List.getElem?_append_right (Nat.le_refl _), Nat.sub_self]
    rfl
  refine (block ((List.prefix_append _ _).trans hp) h).trans (one ?_)
  simp only [ByteMachine.step, hi]

/-- A test whose result is `v`, and the branch after it. -/
theorem testJz {i : ByteInstr} {v : Word} {target : Nat} (hp : [i, .jz target] <+: p.drop pc)
    (h : c.exec i = some (c.setZf v)) :
    Reaches p ⟨c, pc⟩ ⟨c.setZf v, if v = 0 then target else pc + 2⟩ := by
  obtain ⟨hi, hrest⟩ := head_rest hp
  obtain ⟨hj, -⟩ := head_rest hrest
  refine (exec hi h).trans (one ?_)
  simp only [ByteMachine.step, hj, ByteCpu.setZf, decide_eq_true_eq]

/-- A test whether a register is zero, and the branch after it. -/
theorem testlJz {r : Reg} {target : Nat} (hp : [.testl r r, .jz target] <+: p.drop pc) :
    Reaches p ⟨c, pc⟩ ⟨c.setZf (c.reg r), if c.reg r = 0 then target else pc + 2⟩ := by
  apply testJz hp
  rw [ByteCpu.exec, BitVec.and_self]

/-- An iteration of a repeated instruction. -/
theorem iterate {i : ByteInstr} (hi : p[pc]? = some i) (h : c.iteration i = some c') (hn : c.reg .ecx ≠ 0) :
    Reaches p ⟨c, pc⟩ ⟨c'.set .ecx (c'.reg .ecx - 1), pc⟩ := by
  apply Reaches.one
  rw [ByteMachine.step]
  cases i <;> simp_all [ByteCpu.iteration]

/-- A repeated instruction with no count left. -/
theorem iterated {i : ByteInstr} (hi : p[pc]? = some i) (h : c.iteration i = some c') (hn : c.reg .ecx = 0) :
    Reaches p ⟨c, pc⟩ ⟨c, pc + 1⟩ := by
  apply Reaches.one
  rw [ByteMachine.step]
  cases i <;> simp_all [ByteCpu.iteration]

end Reaches

end LimeOS
