import LimeOS.Framework.Gates
import LimeOS.Framework.Pic

/-!
# `i8259.c` and `idt.c`

The driver of the interrupt controllers, with its masks and the controllers that
it writes to, and the gates that `init_idt` sets. The handlers' addresses are
those that the linker gives them.
-/

namespace LimeOS

/-! ## `i8259.c` -/

def ACT_LOW : Byte := 0xFF
def MASTER_8259_PORT : BitVec 16 := 0x20
def SLAVE_8259_PORT : BitVec 16 := 0xA0
def ICW1 : Byte := 0x11
def ICW2_MASTER : Byte := 0x20
def ICW2_SLAVE : Byte := 0x28
def ICW3_MASTER : Byte := 0x04
def ICW3_SLAVE : Byte := 0x02
def ICW4 : Byte := 0x01
def EOI : Byte := 0x60

/-- `master_mask`, `slave_mask`, and the controllers. -/
structure I8259 where
  masterMask : Byte
  slaveMask : Byte
  chips : Pics

namespace I8259

variable (s : I8259)

/-- `outb` to a port of the controllers. -/
def outb (v : Byte) (port : BitVec 16) : I8259 :=
  if port = MASTER_8259_PORT then { s with chips := { s.chips with master := s.chips.master.command v } }
  else if port = MASTER_8259_PORT + 1 then { s with chips := { s.chips with master := s.chips.master.data v } }
  else if port = SLAVE_8259_PORT then { s with chips := { s.chips with slave := s.chips.slave.command v } }
  else if port = SLAVE_8259_PORT + 1 then { s with chips := { s.chips with slave := s.chips.slave.data v } }
  else s

/-- `i8259_init`. -/
def i8259Init : I8259 :=
  let s := s.outb ACT_LOW (MASTER_8259_PORT + 1)
  let s := s.outb ACT_LOW (SLAVE_8259_PORT + 1)
  let s := s.outb ICW1 MASTER_8259_PORT
  let s := s.outb ICW1 SLAVE_8259_PORT
  let s := s.outb ICW2_MASTER (MASTER_8259_PORT + 1)
  let s := s.outb ICW2_SLAVE (SLAVE_8259_PORT + 1)
  let s := s.outb ICW3_MASTER (MASTER_8259_PORT + 1)
  let s := s.outb ICW3_SLAVE (SLAVE_8259_PORT + 1)
  let s := s.outb ICW4 (MASTER_8259_PORT + 1)
  s.outb ICW4 (SLAVE_8259_PORT + 1)

/-- `enable_irq`. -/
def enableIrq (irqNum : Nat) : I8259 :=
  if irqNum < 8 then
    let s := { s with masterMask := clearBit s.masterMask irqNum }
    s.outb s.masterMask (MASTER_8259_PORT + 1)
  else
    let s := { s with slaveMask := clearBit s.slaveMask (irqNum - 8) }
    s.outb s.slaveMask (SLAVE_8259_PORT + 1)

/-- `disable_irq`. -/
def disableIrq (irqNum : Nat) : I8259 :=
  if irqNum < 8 then
    let s := { s with masterMask := setBit s.masterMask irqNum }
    s.outb s.masterMask (MASTER_8259_PORT + 1)
  else
    let s := { s with slaveMask := setBit s.slaveMask (irqNum - 8) }
    s.outb s.slaveMask (SLAVE_8259_PORT + 1)

/-- `send_eoi`. -/
def sendEoi (irqNum : Nat) : I8259 :=
  if irqNum ≥ 8 then
    (s.outb (EOI ||| BitVec.ofNat 8 (irqNum - 8)) SLAVE_8259_PORT).outb (EOI ||| 2) MASTER_8259_PORT
  else s.outb (EOI ||| BitVec.ofNat 8 irqNum) MASTER_8259_PORT

end I8259

def KEYBOARD_IRQ : Nat := 1
def PIT_IRQ : Nat := 0
def RTC_EOI : Nat := 8

/-- What `entry` does to the controllers before it turns interrupts on: `i8259_init`, `initialize_keyboard`,
`initialize_RTC` and `intitalize_PIT`. -/
def entryIrqs (chips : Pics) : I8259 :=
  ((((I8259.i8259Init ⟨ACT_LOW, ACT_LOW, chips⟩).enableIrq 1).enableIrq 2).enableIrq 8).enableIrq PIT_IRQ

/-- What happens between a device and the processor. -/
inductive IrqStep
  | enable (irqNum : Nat)
  | disable (irqNum : Nat)
  | eoi (irqNum : Nat)
  /-- A device raises its line; the line of the slave is none. -/
  | request (irqNum : Nat)
  /-- The processor takes an interrupt with this vector. -/
  | acknowledge (vector : Byte)

/-- Lines are those that the two controllers have. -/
def irqStep (s : I8259) : IrqStep → Option I8259
  | .enable n => if n < 16 then some (s.enableIrq n) else none
  | .disable n => if n < 16 then some (s.disableIrq n) else none
  | .eoi n => if n < 16 then some (s.sendEoi n) else none
  | .request n => if n < 16 ∧ n ≠ 2 then some { s with chips := s.chips.request n } else none
  | .acknowledge v => s.chips.acknowledge.bind fun r => if r.1 = v then some { s with chips := r.2 } else none

/-! ## `idt.c` -/

/-- The entries of the table: the handlers of the exceptions, of what is not defined, of the system call, and of the
keyboard, the RTC and the PIT. -/
inductive Handler
  | DE | DB | NMI | BP | OF | BR | UD | NM | DF | CSO | TS | NP | SS | GP | PF | Resr | MF | AC | MC | XF
  | undefinedInterrupt | sysHandler | kHandler | rHandler | pHandler
  deriving DecidableEq

/-- `idt_desc_t`. -/
structure IdtDesc where
  offset_15_00 : BitVec 16
  segSelector : BitVec 16
  reserved4 : BitVec 8
  reserved3 : BitVec 1
  reserved2 : BitVec 1
  reserved1 : BitVec 1
  size : BitVec 1
  reserved0 : BitVec 1
  dpl : BitVec 2
  present : BitVec 1
  offset_31_16 : BitVec 16

/-- The eight bytes, the first of them the lowest. -/
def IdtDesc.val (d : IdtDesc) : BitVec 64 :=
  d.offset_31_16 ++ d.present ++ d.dpl ++ d.reserved0 ++ d.size ++ d.reserved1 ++ d.reserved2 ++ d.reserved3 ++
    d.reserved4 ++ d.segSelector ++ d.offset_15_00

/-- `SET_IDT_ENTRY`. -/
def setIdtEntry (str : IdtDesc) (handler : BitVec 32) : IdtDesc :=
  { str with
    offset_31_16 := ((handler &&& 0xFFFF0000#32) >>> 16).setWidth 16
    offset_15_00 := (handler &&& 0xFFFF#32).setWidth 16 }

def NUM_VEC : Nat := 256
def KERNEL_CS : BitVec 16 := 0x10
def SYSTEM_CALL_VEC_NUM : Nat := 0x80
def EXCEPTION_DEFINED_BY_INTEL : Nat := 0x20
def PIT_VEC_NUM : Nat := 0x20
def KEYBOARD_VEC_NUM : Nat := 0x21
def RTC_VEC_NUM : Nat := 0x28

section

variable (addr : Handler → BitVec 32)

/-- The body of `init_idt`'s loop. -/
def initGate (i : Nat) (d : IdtDesc) : IdtDesc :=
  let d := { d with
    present := 1, dpl := 0, reserved0 := 0, size := 1, reserved1 := 1, reserved2 := 1, reserved3 := 0, reserved4 := 0,
    segSelector := KERNEL_CS }
  let d := if i < EXCEPTION_DEFINED_BY_INTEL then { d with reserved3 := 0 } else d
  let d := if i = SYSTEM_CALL_VEC_NUM then { d with reserved3 := 1, dpl := 3 } else d
  setIdtEntry d (addr .undefinedInterrupt)

/-- The entries that `init_idt` sets after it, in order. -/
def idtEntries : List (Nat × Handler) :=
  [(0, .DE), (1, .DB), (2, .NMI), (3, .BP), (4, .OF), (5, .BR), (6, .UD), (7, .NM), (8, .DF), (9, .CSO), (10, .TS),
    (11, .NP), (12, .SS), (13, .GP), (14, .PF), (15, .Resr), (16, .MF), (17, .AC), (18, .MC), (19, .XF),
    (SYSTEM_CALL_VEC_NUM, .sysHandler), (KEYBOARD_VEC_NUM, .kHandler), (RTC_VEC_NUM, .rHandler), (PIT_VEC_NUM, .pHandler)]

/-- `init_idt`. -/
def initIdt (idt : Nat → IdtDesc) : Nat → IdtDesc :=
  let idt := (List.range NUM_VEC).foldl (fun idt i => Function.update idt i (initGate addr i (idt i))) idt
  idtEntries.foldl (fun idt e => Function.update idt e.1 (setIdtEntry (idt e.1) (addr e.2))) idt

end

end LimeOS
