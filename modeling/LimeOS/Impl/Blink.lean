import LimeOS.Framework.Linked
import LimeOS.Framework.Mem

/-!
# `blink.S`, and its memory in `fish.c`

The blinking characters of the program `fish`: a linked list in `blink_array`
and the calls on it. A pointer is the index of an element, or NULL. Every loop
along the list takes the number of its rounds, and a call that has used them
up is not at its end.
-/

namespace LimeOS

/-- `struct mp1_blink_struct`. -/
structure BlinkStruct where
  location : BitVec 16
  onChar : Byte
  offChar : Byte
  onLength : BitVec 16
  offLength : BitVec 16
  countdown : BitVec 16
  status : BitVec 16
  next : Option Nat

/-- The elements of `blink_array`, and the cells of the screen. -/
def BLINKS : Nat := 80 * 25

/-- What `ece391_memset` to zero leaves. -/
def clearedBlink : BlinkStruct := ⟨0, 0, 0, 0, 0, 0, 0, none⟩

/-- The program's memory: `blink_array`, `mp1_list_head`, and the bytes from `vmem_base_addr` on. -/
structure Blinks where
  blinkArray : Nat → BlinkStruct
  listHead : Option Nat
  vmem : Nat → Byte

namespace Blinks

variable (s : Blinks)

def set (p : Nat) (b : BlinkStruct) : Blinks := { s with blinkArray := Function.update s.blinkArray p b }

/-- `NEXT` of an element. -/
def next (p : Nat) : Option Nat := (s.blinkArray p).next

/-- `mp1_poke`. -/
def mp1Poke (offset : Nat) (c : Byte) : Blinks := { s with vmem := Function.update s.vmem offset c }

/-- A link stored: that of an element, or `mp1_list_head`. -/
def setLink : Option Nat → Option Nat → Blinks
  | none, link => { s with listHead := link }
  | some q, link => s.set q { s.blinkArray q with next := link }

/-- `mp1_malloc` of a structure's size. -/
def mp1Malloc : Option Nat := (List.range BLINKS).find? fun i => (s.blinkArray i).location = 0#16

/-- `mp1_free`. -/
def mp1Free (p : Nat) : Blinks := s.set p clearedBlink

/-- `mp1_find_helper`. -/
def mp1FindHelper (n : Nat) (location : BitVec 16) : Option (Option Nat) :=
  Linked.walk s.next (fun p => (s.blinkArray p).location = location) n s.listHead

/-- `mp1_ioctl_add` of the user's structure. -/
def mp1IoctlAdd (b : BlinkStruct) : Int × Blinks :=
  if b.location.toNat ≥ 80 * 25 then (-1, s)
  else
    match s.mp1Malloc with
    | none => (-1, s)
    | some p =>
      let s := s.set p { b with status := 1#16, countdown := b.onLength, next := s.listHead }
      (0, { s with listHead := some p }.mp1Poke (b.location.toNat <<< 1) b.onChar)

/-- `mp1_ioctl_remove`. -/
def mp1IoctlRemove (n : Nat) (arg : BitVec 32) : Option (Int × Blinks) :=
  (s.mp1FindHelper n (arg.setWidth 16)).bind fun found =>
    match found with
    | none => some (-1, s)
    | some p =>
      (Linked.walkPrev s.next p n none s.listHead).map fun prev => (0, (s.setLink prev (s.next p)).mp1Free p)

/-- `mp1_ioctl_sync`. The test of the status leaves the sign and the overflow flag clear, and `cmovl` moves where the
two differ. -/
def mp1IoctlSync (n : Nat) (arg : BitVec 32) : Option (Int × Blinks) :=
  (s.mp1FindHelper n ((arg >>> 16).setWidth 16)).bind fun found =>
    match found with
    | none => some (-1, s)
    | some src =>
      (s.mp1FindHelper n ((arg &&& 0xFFFF#32).setWidth 16)).map fun found =>
        match found with
        | none => (-1, s)
        | some dst =>
          let a := s.blinkArray src
          let b := { s.blinkArray dst with
            onLength := a.onLength, offLength := a.offLength, countdown := a.countdown, status := a.status }
          let sign := (b.status.setWidth 8 &&& 0x1#8).msb
          let overflow := false
          let c := if sign ≠ overflow then b.onChar else b.offChar
          (0, (s.set dst b).mp1Poke (b.location.toNat <<< 1) c)

/-- `mp1_ioctl_find` of the location in the user's structure, with what is copied to it. -/
def mp1IoctlFind (n : Nat) (location : BitVec 16) : Option (Int × Option BlinkStruct) :=
  (s.mp1FindHelper n location).map fun found =>
    match found with
    | none => (-1, none)
    | some p => (0, some (s.blinkArray p))

/-- `tasklet_loop` for one element. -/
def taskletRound (p : Nat) : Blinks :=
  let b := s.blinkArray p
  let countdown := b.countdown - 1#16
  if 0 < countdown.toInt then s.set p { b with countdown := countdown }
  else if b.status &&& 1#16 = 0#16 then
    (s.mp1Poke (b.location.toNat <<< 1) b.onChar).set p
      { b with countdown := b.onLength, status := b.status ^^^ 1#16 }
  else
    (s.mp1Poke (b.location.toNat <<< 1) b.offChar).set p
      { b with countdown := b.offLength, status := b.status ^^^ 1#16 }

/-- `tasklet_loop` from the pointer in `ebx` on. -/
def taskletLoop : Nat → Option Nat → Blinks → Option Blinks
  | _, none, s => some s
  | 0, some _, _ => none
  | n + 1, some p, s => taskletLoop n ((s.taskletRound p).next p) (s.taskletRound p)

/-- `mp1_rtc_tasklet`. -/
def mp1RtcTasklet (n : Nat) : Option Blinks := taskletLoop n s.listHead s

end Blinks

/-- The calls that `fish` makes. -/
inductive BlinkCall
  | add (b : BlinkStruct)
  | remove (arg : BitVec 32)
  | find (location : BitVec 16)
  | sync (arg : BitVec 32)
  | tasklet

/-- One call, with what it returns and copies to the user. -/
def Blinks.call (n : Nat) (s : Blinks) : BlinkCall → Option ((Int × Option BlinkStruct) × Blinks)
  | .add b => some (((s.mp1IoctlAdd b).1, none), (s.mp1IoctlAdd b).2)
  | .remove arg => (s.mp1IoctlRemove n arg).map fun r => ((r.1, none), r.2)
  | .find location => (s.mp1IoctlFind n location).map fun r => (r, s)
  | .sync arg => (s.mp1IoctlSync n arg).map fun r => ((r.1, none), r.2)
  | .tasklet => (s.mp1RtcTasklet n).map fun s => ((0, none), s)

/-- Calls one after another, with what they return. -/
def Blinks.calls (n : Nat) : Blinks → List BlinkCall → Option (List (Int × Option BlinkStruct) × Blinks)
  | s, [] => some ([], s)
  | s, c :: cs => (s.call n c).bind fun r => (calls n r.2 cs).map fun rs => (r.1 :: rs.1, rs.2)

/-- After `main` has set `blink_array` to zero. -/
def blinksStart (vmem : Nat → Byte) : Blinks := ⟨fun _ => clearedBlink, none, vmem⟩

end LimeOS
