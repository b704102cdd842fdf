import LimeOS.Framework.Run
import LimeOS.Spec.Interrupts
import Mathlib.Data.List.Find

/-!
# Interrupts

What `init_idt` leaves in the table, and how each vector is entered (`idt_enter`).
The driver and the controllers are lines (`Drives`, `irqs_refine`), and what is
delivered enters the handler of its line (`interrupts_handled`).
-/

namespace LimeOS

/-! ## The gates -/

/-- The bits of the eight bytes, by the field that they are in. -/
theorem getLsbD_val (d : IdtDesc) (j : Nat) : d.val.getLsbD j =
    if j < 16 then d.offset_15_00.getLsbD j else if j - 16 < 16 then d.segSelector.getLsbD (j - 16)
    else if j - 32 < 8 then d.reserved4.getLsbD (j - 32) else if j - 40 < 1 then d.reserved3.getLsbD (j - 40)
    else if j - 41 < 1 then d.reserved2.getLsbD (j - 41) else if j - 42 < 1 then d.reserved1.getLsbD (j - 42)
    else if j - 43 < 1 then d.size.getLsbD (j - 43) else if j - 44 < 1 then d.reserved0.getLsbD (j - 44)
    else if j - 45 < 2 then d.dpl.getLsbD (j - 45) else if j - 47 < 1 then d.present.getLsbD (j - 47)
    else d.offset_31_16.getLsbD (j - 48) := by
  show (d.offset_31_16 ++ d.present ++ d.dpl ++ d.reserved0 ++ d.size ++ d.reserved1 ++ d.reserved2 ++ d.reserved3 ++
    d.reserved4 ++ d.segSelector ++ d.offset_15_00 : BitVec (16 + 1 + 2 + 1 + 1 + 1 + 1 + 1 + 8 + 16 + 16)).getLsbD j = _
  simp only [BitVec.getLsbD_append, Nat.sub_sub]

/-- The two halves of a handler's address. -/
theorem setIdtEntry_offset (d : IdtDesc) (handler : BitVec 32) :
    (setIdtEntry d handler).offset_31_16 ++ (setIdtEntry d handler).offset_15_00 = handler := by
  have h : ∀ i < 32, (0xFFFF0000#32).getLsbD i = decide (16 ≤ i) := by decide
  have h' : ∀ i < 32, (0xFFFF#32).getLsbD i = decide (i < 16) := by decide
  apply BitVec.eq_of_getLsbD_eq
  intro i hi
  show (BitVec.setWidth 16 _ ++ BitVec.setWidth 16 _ : BitVec (16 + 16)).getLsbD i = _
  rw [BitVec.getLsbD_append]
  by_cases hlt : i < 16
  · rw [if_pos hlt, BitVec.getLsbD_setWidth, BitVec.getLsbD_and, h' i hi]
    simp [hlt]
  · simp [hlt, show i - 16 < 16 by omega, show 16 + (i - 16) = i by omega, h i hi, show 16 ≤ i by omega]

/-- What the processor reads in a gate. -/
theorem read_val (d : IdtDesc) : Gate.read d.val =
    ⟨d.offset_31_16 ++ d.offset_15_00, d.segSelector, d.size ++ d.reserved1 ++ d.reserved2 ++ d.reserved3, d.reserved0,
      d.dpl, d.present⟩ := by
  have hpart : ∀ {w : Nat} (start : Nat) (x : BitVec w), (∀ i < w, d.val.getLsbD (start + i) = x.getLsbD i) →
      d.val.extractLsb' start w = x := by
    intro w start x hx
    apply BitVec.eq_of_getLsbD_eq
    intro i hi
    rw [BitVec.getLsbD_extractLsb', hx i hi]
    simp [hi]
  rw [Gate.read, Gate.mk.injEq]
  refine ⟨?_, hpart 16 _ fun i hi => ?_, ?_, hpart 44 _ fun i hi => ?_, hpart 45 _ fun i hi => ?_, hpart 47 _ fun i hi => ?_⟩
  · congr 1
    · refine hpart 48 _ fun i hi => ?_
      rw [getLsbD_val]
      grind
    · refine hpart 0 _ fun i hi => ?_
      rw [getLsbD_val]
      grind
  · rw [getLsbD_val]
    grind
  · refine hpart 40 (d.size ++ d.reserved1 ++ d.reserved2 ++ d.reserved3 : BitVec (1 + 1 + 1 + 1)) fun i hi => ?_
    rw [getLsbD_val]
    simp only [BitVec.getLsbD_append]
    grind
  · rw [getLsbD_val]
    grind
  · rw [getLsbD_val]
    grind
  · rw [getLsbD_val]
    grind

/-- The entries set one after another, each once. -/
theorem foldl_setIdtEntry {addr : Handler → BitVec 32} : ∀ {es : List (Nat × Handler)}, (es.map Prod.fst).Nodup →
    ∀ (idt : Nat → IdtDesc) (v : Nat),
      es.foldl (fun idt e => Function.update idt e.1 (setIdtEntry (idt e.1) (addr e.2))) idt v =
        (es.lookup v).elim (idt v) fun h => setIdtEntry (idt v) (addr h)
  | [], _, _, _ => rfl
  | e :: es, hd, idt, v => by
    have hd' := List.nodup_cons.mp hd
    rw [List.foldl_cons, foldl_setIdtEntry hd'.2, List.lookup_cons]
    by_cases hv : v = e.1
    · subst hv
      have hnone : es.lookup e.1 = none := by
        refine List.lookup_eq_none_iff.mpr fun p hp => ?_
        rw [bne_iff_ne]
        rintro h
        rw [h] at hd'
        exact hd'.1 (List.mem_map_of_mem hp)
      rw [hnone, beq_self_eq_true]
      exact Function.update_self _ _ _
    · rw [Function.update_of_ne hv, beq_eq_false_iff_ne.mpr hv]

/-- Each gate is set by the loop. -/
theorem foldl_initGate {addr : Handler → BitVec 32} (idt : Nat → IdtDesc) {n v : Nat} (hv : v < n) :
    (List.range n).foldl (fun idt i => Function.update idt i (initGate addr i (idt i))) idt v = initGate addr v (idt v) := by
  have hlater : ∀ n ≤ v, (List.range n).foldl (fun idt i => Function.update idt i (initGate addr i (idt i))) idt v = idt v := by
    intro n hn
    induction n with
    | zero => rfl
    | succ n ih =>
      rw [List.range_succ, List.foldl_append, List.foldl_cons, List.foldl_nil, Function.update_of_ne (by omega), ih (by omega)]
  induction n with
  | zero => omega
  | succ n ih =>
    rw [List.range_succ, List.foldl_append, List.foldl_cons, List.foldl_nil]
    by_cases hvn : v = n
    · subst hvn
      rw [Function.update_self, hlater v (Nat.le_refl v)]
    · rw [Function.update_of_ne hvn, ih (by omega)]

/-- The gate of a vector: as the loop leaves it, for the vector's handler. -/
theorem initIdt_eq (addr : Handler → BitVec 32) (idt : Nat → IdtDesc) {v : Nat} (hv : v < NUM_VEC) :
    initIdt addr idt v = setIdtEntry (initGate addr v (idt v)) (addr (handlerOf v)) := by
  have hlookup : ∀ v < NUM_VEC, (idtEntries.lookup v).getD .undefinedInterrupt = handlerOf v := by decide +kernel
  rw [initIdt, foldl_setIdtEntry (by decide), foldl_initGate idt hv, ← hlookup v hv]
  cases idtEntries.lookup v <;> rfl

/-- **How a vector is entered** after `init_idt`, whatever was in the table: its handler's code, by the kernel's
segment, with interrupts off but for the system call; an `int` instruction of a program enters that one only. -/
theorem idt_enter (addr : Handler → BitVec 32) (idt : Nat → IdtDesc) {v : Nat} (hv : v < NUM_VEC) {cpl : Nat}
    (hcpl : cpl ≤ 3) (software : Bool) :
    (Gate.read (initIdt addr idt v).val).enter cpl software =
      if software = true ∧ cpl ≠ 0 ∧ v ≠ SYSTEM_CALL_VEC_NUM then .error 13
      else .ok ⟨addr (handlerOf v), KERNEL_CS, v ≠ SYSTEM_CALL_VEC_NUM⟩ := by
  rw [initIdt_eq addr idt hv, read_val, setIdtEntry_offset]
  by_cases hs : v = SYSTEM_CALL_VEC_NUM
  · subst hs
    have hdpl : ¬ 3 < cpl := by omega
    simp [Gate.enter, setIdtEntry, initGate, SYSTEM_CALL_VEC_NUM, EXCEPTION_DEFINED_BY_INTEL, hdpl]
  · simp [Gate.enter, setIdtEntry, initGate, hs, Nat.pos_iff_ne_zero]

/-- A table with nothing in it, and handlers one after another. -/
def emptyIdt : Nat → IdtDesc := fun _ => ⟨0, 0, 0, 0, 0, 0, 0, 0, 0, 0, 0⟩

theorem idt_enter_systemCall :
    (Gate.read (initIdt (fun _ => 0x400000) emptyIdt 0x80).val).enter 3 true = .ok ⟨0x400000, KERNEL_CS, false⟩ :=
  @idt_enter (fun _ => 0x400000) emptyIdt 0x80 (by decide) 3 (by decide) true

/-! ## The controllers -/

section
variable (s : I8259) (v : Byte)

theorem outb_master : s.outb v MASTER_8259_PORT = { s with chips := { s.chips with master := s.chips.master.command v } } := rfl

theorem outb_masterData :
    s.outb v (MASTER_8259_PORT + 1) = { s with chips := { s.chips with master := s.chips.master.data v } } := rfl

theorem outb_slave : s.outb v SLAVE_8259_PORT = { s with chips := { s.chips with slave := s.chips.slave.command v } } := rfl

theorem outb_slaveData :
    s.outb v (SLAVE_8259_PORT + 1) = { s with chips := { s.chips with slave := s.chips.slave.data v } } := rfl

end

theorem command_icw1 (c : Pic) : c.command ICW1 =
    { c with imr := 0, irr := 0, isr := 0, next := some 2, cascaded := true, needs4 := true } := rfl

/-- What `entry` leaves, whatever the controllers were. -/
theorem entryIrqs_eq (chips : Pics) : entryIrqs chips =
    ⟨0xF8, 0xFE, ⟨⟨0xF8, 0, 0, ICW2_MASTER, ICW3_MASTER, ICW4, none, true, true⟩,
      ⟨0xFE, 0, 0, ICW2_SLAVE, ICW3_SLAVE, ICW4, none, true, true⟩⟩⟩ := by
  simp only [entryIrqs, I8259.i8259Init, I8259.enableIrq, outb_masterData, outb_slaveData, outb_master, outb_slave,
    command_icw1, Pic.data, if_true, PIT_IRQ, Nat.reduceLT, Nat.reduceSub, if_false]
  have hm : clearBit (clearBit (clearBit ACT_LOW 1) 2) 0 = 0xF8 := by decide
  have hs : clearBit ACT_LOW 0 = 0xFE := by decide
  rw [hm, hs]

/-- A specific end of interrupt. -/
theorem command_eoi {n : Nat} (hn : n < 8) (c : Pic) :
    c.command (EOI ||| BitVec.ofNat 8 n) = { c with isr := clearBit c.isr n } := by
  have h : ∀ n < 8, (EOI ||| BitVec.ofNat 8 n).getLsbD 4 = false ∧ (EOI ||| BitVec.ofNat 8 n).getLsbD 3 = false ∧
      (EOI ||| BitVec.ofNat 8 n).extractLsb' 5 3 = 3 ∧ ((EOI ||| BitVec.ofNat 8 n).extractLsb' 0 3).toNat = n := by decide
  obtain ⟨h₄, h₃, h₅, h₀⟩ := h n hn
  rw [Pic.command, if_neg (by rw [h₄]; decide), if_neg (by rw [h₃]; decide), if_pos h₅, h₀]

/-- The driver and the controllers stand for lines: the masks agree, and each bit is that of its line. -/
structure Drives (s : I8259) (l : IrqLines) : Prop where
  master : s.chips.master.icw2 = ICW2_MASTER ∧ s.chips.master.icw3 = ICW3_MASTER ∧ s.chips.master.icw4 = ICW4 ∧
    s.chips.master.next = none
  slave : s.chips.slave.icw2 = ICW2_SLAVE ∧ s.chips.slave.icw3 = ICW3_SLAVE ∧ s.chips.slave.icw4 = ICW4 ∧
    s.chips.slave.next = none
  masks : s.chips.master.imr = s.masterMask ∧ s.chips.slave.imr = s.slaveMask
  enabled : ∀ n < 8, s.chips.master.imr.getLsbD n = !l.enabled n ∧ s.chips.slave.imr.getLsbD n = !l.enabled (8 + n)
  requested : ∀ n < 8, (n ≠ 2 → s.chips.master.irr.getLsbD n = l.requested n) ∧
    s.chips.slave.irr.getLsbD n = l.requested (8 + n)
  inService : ∀ n < 8, (n ≠ 2 → s.chips.master.isr.getLsbD n = decide (n ∈ l.outstanding)) ∧
    s.chips.slave.isr.getLsbD n = decide (8 + n ∈ l.outstanding)
  cascade : s.chips.master.isr.getLsbD 2 = decide (∃ n ∈ l.outstanding, 8 ≤ n)
  lines : ∀ n ∈ l.outstanding, n < 16 ∧ n ≠ 2
  one : ∀ m ∈ l.outstanding, ∀ n ∈ l.outstanding, 8 ≤ m → 8 ≤ n → m = n

theorem entry_drives (chips : Pics) : Drives (entryIrqs chips) entryLines where
  master := by rw [entryIrqs_eq]; exact ⟨rfl, rfl, rfl, rfl⟩
  slave := by rw [entryIrqs_eq]; exact ⟨rfl, rfl, rfl, rfl⟩
  masks := by rw [entryIrqs_eq]; exact ⟨rfl, rfl⟩
  enabled := by
    rw [entryIrqs_eq]
    decide
  requested := by
    rw [entryIrqs_eq]
    decide
  inService := by
    rw [entryIrqs_eq]
    decide
  cascade := by
    rw [entryIrqs_eq]
    decide
  lines := by simp [entryLines]
  one := by simp [entryLines]

namespace Drives

variable {s : I8259} {l : IrqLines}

/-- The master's mask is written, changed in one line. -/
theorem writeMaster (h : Drives s l) {n : Nat} (hn : n < 8) (on : Bool) {v : Byte}
    (hv : ∀ k < 8, v.getLsbD k = if k = n then !on else s.masterMask.getLsbD k) :
    Drives (({ s with masterMask := v } : I8259).outb v (MASTER_8259_PORT + 1))
      { l with enabled := Function.update l.enabled n on } := by
  rw [outb_masterData, Pic.data, h.master.2.2.2]
  refine ⟨⟨h.master.1, h.master.2.1, h.master.2.2.1, rfl⟩, h.slave, ⟨rfl, h.masks.2⟩, fun k hk => ⟨?_, ?_⟩, h.requested,
    h.inService, h.cascade, h.lines, h.one⟩
  · show v.getLsbD k = !Function.update l.enabled n on k
    rw [hv k hk, Function.update_apply, ← h.masks.1, (h.enabled k hk).1]
    split <;> rfl
  · show _ = !Function.update l.enabled n on (8 + k)
    rw [Function.update_of_ne (by omega)]
    exact (h.enabled k hk).2

theorem writeSlave (h : Drives s l) {n : Nat} (hn : 8 ≤ n) (on : Bool) {v : Byte}
    (hv : ∀ k < 8, v.getLsbD k = if k = n - 8 then !on else s.slaveMask.getLsbD k) :
    Drives (({ s with slaveMask := v } : I8259).outb v (SLAVE_8259_PORT + 1))
      { l with enabled := Function.update l.enabled n on } := by
  rw [outb_slaveData, Pic.data, h.slave.2.2.2]
  refine ⟨h.master, ⟨h.slave.1, h.slave.2.1, h.slave.2.2.1, rfl⟩, ⟨h.masks.1, rfl⟩, fun k hk => ⟨?_, ?_⟩, h.requested,
    h.inService, h.cascade, h.lines, h.one⟩
  · show _ = !Function.update l.enabled n on k
    rw [Function.update_of_ne (by omega)]
    exact (h.enabled k hk).1
  · show v.getLsbD k = !Function.update l.enabled n on (8 + k)
    rw [hv k hk, Function.update_apply, ← h.masks.2, (h.enabled k hk).2]
    simp only [show k = n - 8 ↔ 8 + k = n by omega]
    split <;> rfl

theorem enable (h : Drives s l) (n : Nat) :
    Drives (s.enableIrq n) { l with enabled := Function.update l.enabled n true } := by
  rw [I8259.enableIrq]
  split
  · rename_i hn
    refine h.writeMaster hn true fun k hk => ?_
    rw [getLsbD_clearBit _ _ hk]
    split <;> simp [*]
  · rename_i hn
    refine h.writeSlave (by omega) true fun k hk => ?_
    rw [getLsbD_clearBit _ _ hk]
    split <;> simp [*]

theorem disable (h : Drives s l) (n : Nat) :
    Drives (s.disableIrq n) { l with enabled := Function.update l.enabled n false } := by
  rw [I8259.disableIrq]
  split
  · rename_i hn
    refine h.writeMaster hn false fun k hk => ?_
    rw [getLsbD_setBit _ _ hk]
    split <;> simp [*]
  · rename_i hn
    refine h.writeSlave (by omega) false fun k hk => ?_
    rw [getLsbD_setBit _ _ hk]
    split <;> simp [*]

theorem eoi (h : Drives s l) {n : Nat} (hn : n < 16) (hok : Answered l (.eoi n)) :
    Drives (s.sendEoi n) { l with outstanding := l.outstanding.filter (· ≠ n) } := by
  have hlines : ∀ m ∈ l.outstanding.filter (· ≠ n), m < 16 ∧ m ≠ 2 := fun m hm => h.lines m (List.mem_filter.mp hm).1
  have hone : ∀ m ∈ l.outstanding.filter (· ≠ n), ∀ k ∈ l.outstanding.filter (· ≠ n), 8 ≤ m → 8 ≤ k → m = k :=
    fun m hm k hk => h.one m (List.mem_filter.mp hm).1 k (List.mem_filter.mp hk).1
  rw [I8259.sendEoi]
  split
  · rename_i hge
    have hmem : n ∈ l.outstanding := hok.resolve_left (by omega)
    rw [outb_slave, command_eoi (by omega), outb_master, show EOI ||| 2 = EOI ||| BitVec.ofNat 8 2 from rfl,
      command_eoi (by decide)]
    refine ⟨h.master, h.slave, h.masks, h.enabled, h.requested, fun k hk => ⟨fun hk2 => ?_, ?_⟩, ?_, hlines, hone⟩
    · show (clearBit s.chips.master.isr 2).getLsbD k = _
      rw [getLsbD_clearBit _ _ hk, (h.inService k hk).1 hk2]
      simp [hk2, show k ≠ n by omega]
    · show (clearBit s.chips.slave.isr (n - 8)).getLsbD k = _
      rw [getLsbD_clearBit _ _ hk, (h.inService k hk).2]
      simp [show k = n - 8 ↔ 8 + k = n by omega]
    · -- no other line behind the slave was in service
      show (clearBit s.chips.master.isr 2).getLsbD 2 = _
      rw [getLsbD_clearBit _ _ (by decide)]
      have hnone : ¬ ∃ k ∈ l.outstanding.filter (· ≠ n), 8 ≤ k := by
        rintro ⟨k, hk, hk8⟩
        obtain ⟨hk, hkn⟩ := List.mem_filter.mp hk
        simp [h.one k hk n hmem hk8 hge] at hkn
      simp [decide_eq_false hnone]
  · rename_i hlt
    have hlt : n < 8 := by omega
    have hn2 : n ≠ 2 := by
      rcases hok with hok | hok
      · exact hok.2
      · exact (h.lines n hok).2
    rw [outb_master, command_eoi hlt]
    refine ⟨h.master, h.slave, h.masks, h.enabled, h.requested, fun k hk => ⟨fun hk2 => ?_, ?_⟩, ?_, hlines, hone⟩
    · show (clearBit s.chips.master.isr n).getLsbD k = _
      rw [getLsbD_clearBit _ _ hk, (h.inService k hk).1 hk2]
      simp
    · rw [(h.inService k hk).2]
      simp [show 8 + k ≠ n by omega]
    · show (clearBit s.chips.master.isr n).getLsbD 2 = _
      rw [getLsbD_clearBit _ _ (by decide), h.cascade]
      have hsame : (∃ k ∈ l.outstanding.filter (· ≠ n), 8 ≤ k) ↔ ∃ k ∈ l.outstanding, 8 ≤ k := by
        constructor
        · rintro ⟨k, hk, hk8⟩
          exact ⟨k, (List.mem_filter.mp hk).1, hk8⟩
        · rintro ⟨k, hk, hk8⟩
          exact ⟨k, List.mem_filter.mpr ⟨hk, by simp; omega⟩, hk8⟩
      simp [decide_eq_decide.mpr hsame, hn2.symm]

theorem request (h : Drives s l) {n : Nat} (hn : n < 16) :
    Drives { s with chips := s.chips.request n } { l with requested := Function.update l.requested n true } := by
  rw [Pics.request]
  split
  · refine ⟨h.master, h.slave, h.masks, h.enabled, fun k hk => ⟨fun hk2 => ?_, ?_⟩, h.inService, h.cascade, h.lines, h.one⟩
    · show (setBit s.chips.master.irr n).getLsbD k = Function.update l.requested n true k
      rw [getLsbD_setBit _ _ hk, (h.requested k hk).1 hk2, Function.update_apply]
      split <;> simp [*]
    · show _ = Function.update l.requested n true (8 + k)
      rw [(h.requested k hk).2, Function.update_of_ne (by omega)]
  · refine ⟨h.master, h.slave, h.masks, h.enabled, fun k hk => ⟨fun hk2 => ?_, ?_⟩, h.inService, h.cascade, h.lines, h.one⟩
    · show _ = Function.update l.requested n true k
      rw [(h.requested k hk).1 hk2, Function.update_of_ne (by omega)]
    · show (setBit s.chips.slave.irr (n - 8)).getLsbD k = Function.update l.requested n true (8 + k)
      rw [getLsbD_setBit _ _ hk, (h.requested k hk).2, Function.update_apply]
      simp only [show k = n - 8 ↔ 8 + k = n by omega]
      split <;> simp [*]

/-! ### What is delivered -/

/-- No level as urgent as one of the master's is in service. -/
theorem master_free (h : Drives s l) {n : Nat} (hn : n < 8) :
    s.chips.master.free n = l.outstanding.all fun o => decide (n < urgency o) := by
  rw [Bool.eq_iff_iff]
  simp only [Pic.free, List.all_eq_true, List.mem_range, Bool.not_eq_true', decide_eq_true_eq]
  constructor
  · intro hfree o ho
    obtain ⟨ho16, ho2⟩ := h.lines o ho
    by_contra hle
    simp only [urgency] at hle
    split at hle
    · have hk := hfree o (by omega)
      rw [(h.inService o (by omega)).1 ho2] at hk
      simp [ho] at hk
    · have hk := hfree 2 (by omega)
      rw [h.cascade] at hk
      simp only [decide_eq_false_iff_not, not_exists, not_and] at hk
      exact hk o ho (by omega)
  · intro hout k hk
    by_cases hk2 : k = 2
    · subst hk2
      rw [h.cascade, decide_eq_false_iff_not]
      rintro ⟨o, ho, ho8⟩
      have := hout o ho
      simp only [urgency, if_neg (show ¬ o < 8 by omega)] at this
      omega
    · rw [(h.inService k (by omega)).1 hk2, decide_eq_false_iff_not]
      intro ho
      have := hout k ho
      simp only [urgency, if_pos (show k < 8 by omega)] at this
      omega

/-- A level of the master that is not the slave's. -/
theorem master_deliverable (h : Drives s l) {n : Nat} (hn : n < 8) (hn2 : n ≠ 2) :
    (s.chips.requests.getLsbD n && !s.chips.master.imr.getLsbD n && s.chips.master.free n) = l.deliverable n := by
  have hreq : s.chips.requests.getLsbD n = l.requested n := by
    rw [← (h.requested n hn).1 hn2, Pics.requests]
    split
    · rw [getLsbD_setBit _ _ hn]
      simp [hn2]
    · rw [getLsbD_clearBit _ _ hn]
      simp [hn2]
  have hu : urgency n = n := if_pos hn
  rw [hreq, (h.enabled n hn).1, h.master_free hn, IrqLines.deliverable, Bool.not_not, hu, decide_eq_true hn, Bool.true_or,
    Bool.and_true]

/-- While no line behind it is in service, the slave has the first of them that is requested and enabled. -/
theorem slave_pending (h : Drives s l) (hfree : s.chips.master.free 2 = true) :
    s.chips.slave.pending s.chips.slave.irr = (List.range 8).find? fun k => l.requested (8 + k) && l.enabled (8 + k) := by
  have hout := h.master_free (show 2 < 8 by decide)
  rw [hfree, eq_comm, List.all_eq_true] at hout
  have hisr : ∀ k < 8, s.chips.slave.isr.getLsbD k = false := by
    intro k hk
    rw [(h.inService k hk).2, decide_eq_false_iff_not]
    intro ho
    have := hout _ ho
    simp only [urgency, if_neg (show ¬ 8 + k < 8 by omega)] at this
    simp at this
  rw [Pic.pending]
  refine List.find?_congr fun k hk => ?_
  have hk := List.mem_range.mp hk
  have hslave : s.chips.slave.free k = true := by
    simp only [Pic.free, List.all_eq_true, List.mem_range, Bool.not_eq_true']
    intro j hj
    exact hisr j (by omega)
  rw [(h.requested k hk).2, (h.enabled k hk).2, hslave]
  simp

theorem deliverable_behind (h : Drives s l) (k : Nat) :
    l.deliverable (8 + k) =
      (l.requested (8 + k) && l.enabled (8 + k) && (l.enabled 2 && s.chips.master.free 2)) := by
  have hu : urgency (8 + k) = 2 := if_neg (by omega)
  rw [IrqLines.deliverable, h.master_free (by decide), hu, decide_eq_false (show ¬ 8 + k < 8 by omega), Bool.false_or,
    Bool.and_assoc]

/-- The slave asks for the master's level 2 when it has a line to deliver. -/
theorem requests_two : s.chips.requests.getLsbD 2 = (s.chips.slave.pending s.chips.slave.irr).isSome := by
  rw [Pics.requests]
  split
  · rename_i hp
    rw [hp, getLsbD_setBit _ _ (by decide)]
    simp
  · rename_i hp
    rw [Bool.eq_false_of_not_eq_true hp, getLsbD_clearBit _ _ (by decide)]
    simp

/-- The lines behind the slave are delivered through the master's level 2. -/
theorem behind_eq (h : Drives s l) : ((List.range 8).map (8 + ·)).find? l.deliverable =
    if s.chips.requests.getLsbD 2 && !s.chips.master.imr.getLsbD 2 && s.chips.master.free 2 then
      (s.chips.slave.pending s.chips.slave.irr).map (8 + ·)
    else none := by
  have hbehind : (l.deliverable ∘ fun k => 8 + k) = fun k =>
      l.requested (8 + k) && l.enabled (8 + k) && (l.enabled 2 && s.chips.master.free 2) :=
    funext h.deliverable_behind
  rw [List.find?_map, hbehind, requests_two, (h.enabled 2 (by decide)).1, Bool.not_not, Bool.and_assoc]
  cases hopen : l.enabled 2 && s.chips.master.free 2 with
  | false =>
    have hnone : ((List.range 8).find? fun k => l.requested (8 + k) && l.enabled (8 + k) && false) = none :=
      List.find?_eq_none.mpr fun k _ => by simp
    rw [hnone, Bool.and_false, if_neg (by decide), Option.map_none]
  | true =>
    rw [h.slave_pending (Bool.and_eq_true_iff.mp hopen).2]
    simp only [Bool.and_true]
    cases (List.range 8).find? fun k => l.requested (8 + k) && l.enabled (8 + k) <;> rfl

end Drives

/-- What the controllers answer at a level of the master. -/
def Pics.answer (c : Pics) (n : Nat) : Option (Byte × Pics) :=
  if c.master.icw3.getLsbD n then
    if c.slave.icw3 &&& 7 = BitVec.ofNat 8 n then
      (c.slave.pending c.slave.irr).map fun k => (c.slave.icw2 + BitVec.ofNat 8 k, ⟨c.master.accept n, c.slave.accept k⟩)
    else none
  else some (c.master.icw2 + BitVec.ofNat 8 n, { c with master := c.master.accept n })

theorem Pics.acknowledge_answer (c : Pics) : c.acknowledge = (c.master.pending c.requests).bind c.answer := rfl

/-- The controllers after an interrupt of a line is taken. -/
def Pics.taken (c : Pics) (n : Nat) : Pics :=
  if n < 8 then { c with master := c.master.accept n } else ⟨c.master.accept 2, c.slave.accept (n - 8)⟩

namespace Drives

variable {s : I8259} {l : IrqLines}

/-- At a level that is not the slave's the master delivers its own vector. -/
theorem answer_master (h : Drives s l) {n : Nat} (hn : n < 8 ∧ n ≠ 2) :
    s.chips.answer n = some (vectorOf n, s.chips.taken n) := by
  have hbit : ∀ n < 8, n ≠ 2 → ICW3_MASTER.getLsbD n = false := by decide
  rw [Pics.answer, h.master.2.1, hbit n hn.1 hn.2, if_neg (by decide), h.master.1, Pics.taken, if_pos hn.1]
  rfl

/-- At the slave's level the slave delivers its vector. -/
theorem answer_slave (h : Drives s l) {k : Nat} (hk : s.chips.slave.pending s.chips.slave.irr = some k) :
    s.chips.answer 2 = some (vectorOf (8 + k), s.chips.taken (8 + k)) := by
  have hk8 : k < 8 := List.mem_range.mp (List.mem_of_find?_eq_some hk)
  have hvector : ∀ k < 8, ICW2_SLAVE + BitVec.ofNat 8 k = vectorOf (8 + k) := by decide
  rw [Pics.answer, h.master.2.1, if_pos (show ICW3_MASTER.getLsbD 2 = true by decide), h.slave.2.1,
    if_pos (show ICW3_SLAVE &&& 7 = BitVec.ofNat 8 2 by decide), hk, Option.map_some, h.slave.1, hvector k hk8, Pics.taken,
    if_neg (by omega), Nat.add_sub_cancel_left]

/-- The controllers deliver the line that should be. -/
theorem acknowledge_eq (h : Drives s l) :
    s.chips.acknowledge = l.deliver.map fun n => (vectorOf n, s.chips.taken n) := by
  have hown : ∀ ns : List Nat, (∀ n ∈ ns, n < 8 ∧ n ≠ 2) →
      (ns.find? fun n => s.chips.requests.getLsbD n && !s.chips.master.imr.getLsbD n && s.chips.master.free n) =
        ns.find? l.deliverable := fun ns hns =>
    List.find?_congr fun n hn => h.master_deliverable (hns n hn).1 (hns n hn).2
  have hfirst : ∀ n ∈ [0, 1], n < 8 ∧ n ≠ 2 := by decide
  have hlast : ∀ n ∈ [3, 4, 5, 6, 7], n < 8 ∧ n ≠ 2 := by decide
  have hrange : List.range 8 = [0, 1] ++ ([2] ++ [3, 4, 5, 6, 7]) := by decide
  rw [Pics.acknowledge_answer, Pic.pending, hrange, List.find?_append, List.find?_append, hown _ hfirst, hown _ hlast,
    IrqLines.deliver, deviceLines, List.find?_append, List.find?_append, h.behind_eq]
  -- the lines before the slave's, those behind it, and those after
  cases hf : [0, 1].find? l.deliverable with
  | some n => exact h.answer_master (hfirst n (List.mem_of_find?_eq_some hf))
  | none =>
    rw [Option.none_or, Option.none_or, List.find?_singleton]
    cases hopen : s.chips.requests.getLsbD 2 && !s.chips.master.imr.getLsbD 2 && s.chips.master.free 2 with
    | true =>
      have hrequest : s.chips.requests.getLsbD 2 = true := by
        simp only [Bool.and_eq_true] at hopen
        exact hopen.1.1
      obtain ⟨k, hk⟩ := Option.isSome_iff_exists.mp (requests_two.symm.trans hrequest)
      rw [if_pos rfl, if_pos rfl, hk]
      exact h.answer_slave hk
    | false =>
      rw [if_neg (by decide), if_neg (by decide), Option.none_or]
      cases hl : [3, 4, 5, 6, 7].find? l.deliverable with
      | some n => exact h.answer_master (hlast n (List.mem_of_find?_eq_some hl))
      | none => rfl

end Drives

theorem IrqLines.deliver_spec {l : IrqLines} {n : Nat} (h : l.deliver = some n) :
    n < 16 ∧ n ≠ 2 ∧ ∀ o ∈ l.outstanding, urgency n < urgency o := by
  have hline : ∀ n ∈ deviceLines, n < 16 ∧ n ≠ 2 := by decide
  obtain ⟨h16, h2⟩ := hline n (List.mem_of_find?_eq_some h)
  have hd := List.find?_some h
  simp only [IrqLines.deliverable, Bool.and_eq_true, List.all_eq_true, decide_eq_true_eq] at hd
  exact ⟨h16, h2, hd.2⟩

theorem accept_irr (c : Pic) (n : Nat) {k : Nat} (hk : k < 8) :
    (c.accept n).irr.getLsbD k = (c.irr.getLsbD k && !decide (k = n)) := getLsbD_clearBit _ _ hk

/-- No interrupt ends by itself. -/
theorem accept_isr {c : Pic} (hc : c.icw4 = ICW4) (n : Nat) {k : Nat} (hk : k < 8) :
    (c.accept n).isr.getLsbD k = (c.isr.getLsbD k || decide (k = n)) := by
  have hauto : ICW4.getLsbD 1 = false := by decide
  show (if c.icw4.getLsbD 1 then c.isr else setBit c.isr n).getLsbD k = _
  rw [hc, hauto, if_neg (by decide), getLsbD_setBit _ _ hk]

namespace Drives

variable {s : I8259} {l : IrqLines} {n : Nat}

theorem deliver_lines (h : Drives s l) (hn : l.deliver = some n) : ∀ m ∈ n :: l.outstanding, m < 16 ∧ m ≠ 2 := by
  obtain ⟨h16, h2, -⟩ := IrqLines.deliver_spec hn
  intro m hm
  rcases List.mem_cons.mp hm with rfl | hm
  · exact ⟨h16, h2⟩
  · exact h.lines m hm

/-- A line behind the slave is delivered when no other is in service. -/
theorem deliver_one (h : Drives s l) (hn : l.deliver = some n) :
    ∀ m ∈ n :: l.outstanding, ∀ k ∈ n :: l.outstanding, 8 ≤ m → 8 ≤ k → m = k := by
  obtain ⟨-, -, hless⟩ := IrqLines.deliver_spec hn
  have halone : 8 ≤ n → ∀ m ∈ l.outstanding, ¬ 8 ≤ m := by
    intro hn8 m hm hm8
    have := hless m hm
    simp only [urgency, if_neg (show ¬ n < 8 by omega), if_neg (show ¬ m < 8 by omega)] at this
    omega
  intro m hm k hk hm8 hk8
  rcases List.mem_cons.mp hm with hmn | hm' <;> rcases List.mem_cons.mp hk with hkn | hk'
  · rw [hmn, hkn]
  · exact absurd hk8 (halone (hmn ▸ hm8) k hk')
  · exact absurd hm8 (halone (hkn ▸ hk8) m hm')
  · exact h.one m hm' k hk' hm8 hk8

/-- The line that is delivered is in service, and no longer requested. -/
theorem taken (h : Drives s l) (hn : l.deliver = some n) :
    Drives { s with chips := s.chips.taken n }
      { l with requested := Function.update l.requested n false, outstanding := n :: l.outstanding } := by
  have hlines := h.deliver_lines hn
  have hone := h.deliver_one hn
  obtain ⟨-, hn2, -⟩ := IrqLines.deliver_spec hn
  rw [Pics.taken]
  split
  · rename_i hlt
    refine ⟨h.master, h.slave, h.masks, h.enabled, fun k hk => ⟨fun hk2 => ?_, ?_⟩, fun k hk => ⟨fun hk2 => ?_, ?_⟩, ?_,
      hlines, hone⟩
    · show (s.chips.master.accept n).irr.getLsbD k = Function.update l.requested n false k
      rw [accept_irr _ _ hk, (h.requested k hk).1 hk2, Function.update_apply]
      split <;> simp [*]
    · show _ = Function.update l.requested n false (8 + k)
      rw [Function.update_of_ne (by omega)]
      exact (h.requested k hk).2
    · show (s.chips.master.accept n).isr.getLsbD k = _
      rw [accept_isr h.master.2.2.1 _ hk, (h.inService k hk).1 hk2]
      simp [Bool.or_comm]
    · rw [(h.inService k hk).2]
      simp [show 8 + k ≠ n by omega]
    · show (s.chips.master.accept n).isr.getLsbD 2 = _
      rw [accept_isr h.master.2.2.1 _ (by decide), h.cascade]
      simp [hn2.symm, show ¬ 8 ≤ n by omega]
  · rename_i hge
    refine ⟨h.master, h.slave, h.masks, h.enabled, fun k hk => ⟨fun hk2 => ?_, ?_⟩, fun k hk => ⟨fun hk2 => ?_, ?_⟩, ?_,
      hlines, hone⟩
    · show (s.chips.master.accept 2).irr.getLsbD k = Function.update l.requested n false k
      rw [accept_irr _ _ hk, (h.requested k hk).1 hk2, Function.update_of_ne (by omega)]
      simp [hk2]
    · show (s.chips.slave.accept (n - 8)).irr.getLsbD k = Function.update l.requested n false (8 + k)
      rw [accept_irr _ _ hk, (h.requested k hk).2, Function.update_apply]
      simp only [show k = n - 8 ↔ 8 + k = n by omega]
      split <;> simp [*]
    · show (s.chips.master.accept 2).isr.getLsbD k = _
      rw [accept_isr h.master.2.2.1 _ hk, (h.inService k hk).1 hk2]
      simp [hk2, show k ≠ n by omega]
    · show (s.chips.slave.accept (n - 8)).isr.getLsbD k = _
      rw [accept_isr h.slave.2.2.1 _ hk, (h.inService k hk).2]
      simp [show k = n - 8 ↔ 8 + k = n by omega, Bool.or_comm]
    · show (s.chips.master.accept 2).isr.getLsbD 2 = _
      rw [accept_isr h.master.2.2.1 _ (by decide)]
      simp [show 8 ≤ n by omega]

end Drives

/-! ### Runs -/

theorem Drives.step {s : I8259} {l : IrqLines} (e : IrqStep) (h : Drives s l)
    (hok : ∀ l', linesStep l e = some l' → Answered l e) : Option.Rel Drives (irqStep s e) (linesStep l e) := by
  cases e with
  | enable n =>
    simp only [irqStep, linesStep]
    split
    · exact .some (h.enable n)
    · exact .none
  | disable n =>
    simp only [irqStep, linesStep]
    split
    · exact .some (h.disable n)
    · exact .none
  | eoi n =>
    simp only [irqStep, linesStep] at hok ⊢
    split
    · rename_i hn
      exact .some (h.eoi hn (hok _ (if_pos hn)))
    · exact .none
  | request n =>
    simp only [irqStep, linesStep]
    split
    · rename_i hn
      exact .some (h.request hn.1)
    · exact .none
  | acknowledge v =>
    simp only [irqStep, linesStep, h.acknowledge_eq]
    cases hn : l.deliver with
    | none => exact .none
    | some n =>
      simp only [Option.map_some, Option.bind_some]
      split
      · exact .some (h.taken hn)
      · exact .none

/-- **The driver and the controllers are lines**: from `entry` on, whatever the lines, the processor and the driver do, but
for an end of interrupt of a line behind the slave that is not in service, they take the runs that lines do, with the
vectors delivered that should be, and stand for them. -/
theorem irqs_refine (chips : Pics) {es : List IrqStep} (hes : Guarded linesStep Answered entryLines es) :
    Option.Rel Drives (run irqStep (entryIrqs chips) es) (run linesStep entryLines es) :=
  run_rel (fun _ _ e h hok => h.step e hok) (entry_drives chips) hes

/-- Controllers that have not been set up. -/
def resetPic : Pic := ⟨0, 0, 0, 0, 0, 0, none, false, false⟩

/-- The PIT interrupts the handler of the RTC. -/
def nestedIrqs : List IrqStep :=
  [.request 8, .acknowledge 0x28, .request 0, .request 1, .acknowledge 0x20, .eoi 0, .acknowledge 0x21, .eoi 1, .eoi 8]

theorem irqs_refine_nested : ∃ s l, run irqStep (entryIrqs ⟨resetPic, resetPic⟩) nestedIrqs = some s ∧
    run linesStep entryLines nestedIrqs = some l ∧ Drives s l := by
  have h := irqs_refine ⟨resetPic, resetPic⟩ (show Guarded linesStep Answered entryLines nestedIrqs by decide)
  obtain ⟨l, hl⟩ := Option.isSome_iff_exists.mp (show (run linesStep entryLines nestedIrqs).isSome by decide)
  rw [hl] at h
  generalize run irqStep (entryIrqs ⟨resetPic, resetPic⟩) nestedIrqs = o at h
  cases h with
  | some hd => exact ⟨_, l, rfl, hl, hd⟩

/-! ### The kernel's own lines -/

/-- The controllers as `entry` sets them up. -/
structure SetUp (c : Pics) : Prop where
  master : c.master.icw2 = ICW2_MASTER ∧ c.master.icw3 = ICW3_MASTER ∧ c.master.imr = 0xF8
  slave : c.slave.icw2 = ICW2_SLAVE ∧ c.slave.icw3 = ICW3_SLAVE ∧ c.slave.imr = 0xFE

/-- The lines that are delivered, and their handlers. -/
def entryHandlers : List (Nat × Handler) := [(PIT_IRQ, .pHandler), (KEYBOARD_IRQ, .kHandler), (RTC_EOI, .rHandler)]

theorem SetUp.acknowledge {c : Pics} (h : SetUp c) {r : Byte × Pics} (hr : c.acknowledge = some r) :
    (∃ e ∈ entryHandlers, r.1 = vectorOf e.1) ∧ SetUp r.2 := by
  have hmaster : ∀ n < 8, (0xF8 : Byte).getLsbD n = false → n = 0 ∨ n = 1 ∨ n = 2 := by decide
  have hslave : ∀ n < 8, (0xFE : Byte).getLsbD n = false → n = 0 := by decide
  rw [Pics.acknowledge] at hr
  obtain ⟨n, hn, hr⟩ := Option.bind_eq_some_iff.mp hr
  have hn8 := List.mem_range.mp (List.mem_of_find?_eq_some hn)
  have hopen := List.find?_some hn
  rw [h.master.2.2] at hopen
  simp only [Bool.and_eq_true, Bool.not_eq_true'] at hopen
  have hcases := hmaster n hn8 hopen.1.2
  rw [h.master.2.1, h.slave.2.1] at hr
  split at hr
  · split at hr
    · obtain ⟨k, hk, rfl⟩ := Option.map_eq_some_iff.mp hr
      have hk8 := List.mem_range.mp (List.mem_of_find?_eq_some hk)
      have hkopen := List.find?_some hk
      rw [h.slave.2.2] at hkopen
      simp only [Bool.and_eq_true, Bool.not_eq_true'] at hkopen
      obtain rfl := hslave k hk8 hkopen.1.2
      refine ⟨⟨(RTC_EOI, .rHandler), by decide, ?_⟩, h.master, h.slave⟩
      rw [h.slave.1]
      rfl
    · cases hr
  · rename_i hbit
    cases hr
    rcases hcases with rfl | rfl | rfl
    · refine ⟨⟨(PIT_IRQ, .pHandler), by decide, ?_⟩, h.master, h.slave⟩
      rw [h.master.1]
      rfl
    · refine ⟨⟨(KEYBOARD_IRQ, .kHandler), by decide, ?_⟩, h.master, h.slave⟩
      rw [h.master.1]
      rfl
    · exact absurd (show ICW3_MASTER.getLsbD 2 = true by decide) hbit

theorem SetUp.step {s s' : I8259} {e : IrqStep} (h : SetUp s.chips) (he : ∀ n, e ≠ .enable n ∧ e ≠ .disable n)
    (hs : irqStep s e = some s') : SetUp s'.chips := by
  cases e with
  | enable n => exact absurd rfl (he n).1
  | disable n => exact absurd rfl (he n).2
  | eoi n =>
    simp only [irqStep] at hs
    split at hs
    · cases hs
      rw [I8259.sendEoi]
      split
      · rw [outb_slave, command_eoi (by omega), outb_master, show EOI ||| 2 = EOI ||| BitVec.ofNat 8 2 from rfl,
          command_eoi (by decide)]
        exact ⟨h.master, h.slave⟩
      · rw [outb_master, command_eoi (by omega)]
        exact ⟨h.master, h.slave⟩
    · cases hs
  | request n =>
    simp only [irqStep, Pics.request] at hs
    split at hs
    · cases hs
      split <;> exact ⟨h.master, h.slave⟩
    · cases hs
  | acknowledge v =>
    obtain ⟨r, hr, hv⟩ := Option.bind_eq_some_iff.mp hs
    split at hv
    · cases hv
      exact (h.acknowledge hr).2
    · cases hv

/-- The processor takes only interrupts of the PIT, the keyboard and the RTC. -/
theorem SetUp.run {es : List IrqStep} {s s' : I8259} (h : SetUp s.chips) (hes : ∀ n, .enable n ∉ es ∧ .disable n ∉ es)
    (hr : LimeOS.run irqStep s es = some s') {v : Byte} (hv : .acknowledge v ∈ es) :
    ∃ e ∈ entryHandlers, v = vectorOf e.1 := by
  induction es generalizing s with
  | nil => cases hv
  | cons e es ih =>
    obtain ⟨s₁, hs, hr⟩ := run_cons_eq_some hr
    rcases List.mem_cons.mp hv with rfl | hv
    · obtain ⟨r, hr', hv⟩ := Option.bind_eq_some_iff.mp hs
      split at hv
      · rename_i hvr
        rw [← hvr]
        exact (h.acknowledge hr').1
      · cases hv
    · have hmasks : ∀ n, e ≠ .enable n ∧ e ≠ .disable n := by
        refine fun n => ⟨?_, ?_⟩
        · rintro rfl
          exact (hes n).1 List.mem_cons_self
        · rintro rfl
          exact (hes n).2 List.mem_cons_self
      refine ih (h.step hmasks hs) (fun n => ⟨fun hm => ?_, fun hm => ?_⟩) hr hv
      · exact (hes n).1 (List.mem_cons_of_mem _ hm)
      · exact (hes n).2 (List.mem_cons_of_mem _ hm)

/-- **An interrupt enters the handler of its line.** After `entry`, in any order of requests, interrupts and ends of
interrupt, the processor takes only those of the PIT, the keyboard and the RTC, and enters their handlers in the kernel
with interrupts off. -/
theorem interrupts_handled (chips : Pics) (addr : Handler → BitVec 32) (idt : Nat → IdtDesc) {es : List IrqStep} {s : I8259}
    (hes : ∀ n, .enable n ∉ es ∧ .disable n ∉ es) (hr : run irqStep (entryIrqs chips) es = some s) {v : Byte}
    (hv : .acknowledge v ∈ es) : ∃ e ∈ entryHandlers, v = vectorOf e.1 ∧ ∀ cpl ≤ 3,
      (Gate.read (initIdt addr idt v.toNat).val).enter cpl false = .ok ⟨addr e.2, KERNEL_CS, true⟩ := by
  have hset : SetUp (entryIrqs chips).chips := by
    rw [entryIrqs_eq]
    exact ⟨⟨rfl, rfl, rfl⟩, rfl, rfl, rfl⟩
  obtain ⟨e, he, rfl⟩ := hset.run hes hr hv
  have hhandler : ∀ e ∈ entryHandlers, handlerOf (vectorOf e.1).toNat = e.2 ∧ (vectorOf e.1).toNat ≠ SYSTEM_CALL_VEC_NUM := by
    decide
  refine ⟨e, he, rfl, fun cpl hcpl => ?_⟩
  rw [idt_enter addr idt (vectorOf e.1).isLt hcpl, (hhandler e he).1, if_neg (by simp), decide_eq_true (hhandler e he).2]

theorem interrupts_handled_nested : ∃ e ∈ entryHandlers, (0x28 : Byte) = vectorOf e.1 ∧ ∀ cpl ≤ 3,
    (Gate.read (initIdt (fun _ => 0x400000) emptyIdt (0x28 : Byte).toNat).val).enter cpl false =
      .ok ⟨0x400000, KERNEL_CS, true⟩ := by
  obtain ⟨s, hs⟩ := Option.isSome_iff_exists.mp
    (show (run irqStep (entryIrqs ⟨resetPic, resetPic⟩) nestedIrqs).isSome = true by decide +kernel)
  exact interrupts_handled ⟨resetPic, resetPic⟩ (fun _ => 0x400000) emptyIdt (by simp [nestedIrqs]) hs (by simp [nestedIrqs])

end LimeOS
