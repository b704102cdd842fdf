import LimeOS.Impl.Blink

/-!
# What the blinking characters are for

A board is the blinking characters, the latest first, over a screen. Each
is on for some ticks and off for some, in turn.
-/

namespace LimeOS

/-- A blinking character: how long it is on and off, and what is left of its turn. -/
structure Blinker where
  location : Nat
  onChar : Byte
  offChar : Byte
  onTicks : Nat
  offTicks : Nat
  left : Nat
  on : Bool

namespace Blinker

def shown (b : Blinker) : Byte := if b.on then b.onChar else b.offChar

/-- Its turn is over with this tick. -/
def Turns (b : Blinker) : Prop := b.left ≤ 1

instance (b : Blinker) : Decidable b.Turns := inferInstanceAs (Decidable (b.left ≤ 1))

def tick (b : Blinker) : Blinker :=
  if b.Turns then { b with on := !b.on, left := if b.on then b.offTicks else b.onTicks }
  else { b with left := b.left - 1 }

/-- One blinker in the time of another. -/
def inTime (b a : Blinker) : Blinker :=
  { b with onTicks := a.onTicks, offTicks := a.offTicks, left := a.left, on := a.on }

end Blinker

/-- A length of 16 bits as `tasklet_loop` counts it down: where it is not positive before the first round or after it,
that round is the only one. -/
def ticks (x : BitVec 16) : Nat := if 1 ≤ x.toNat ∧ x.toNat ≤ 2 ^ 15 then x.toNat else 1

/-- What an element of the list stands for. -/
def BlinkStruct.blinker (b : BlinkStruct) : Blinker :=
  ⟨b.location.toNat, b.onChar, b.offChar, ticks b.onLength, ticks b.offLength, ticks b.countdown, b.status &&& 1#16 ≠ 0#16⟩

/-- The first element with a property replaced. -/
def replaceFirst {α : Type} (stop : α → Bool) (f : α → α) : List α → List α
  | [] => []
  | a :: l => if stop a then f a :: l else a :: replaceFirst stop f l

/-- The screen after a tick of these: each whose turn is over is shown. -/
def pokes (l : List Blinker) (v : Nat → Byte) : Nat → Byte :=
  l.foldl (fun v b => if b.Turns then Function.update v (2 * b.location) b.tick.shown else v) v

structure Board where
  blinkers : List Blinker
  vmem : Nat → Byte

namespace Board

variable (d : Board)

/-- The latest blinker at a location. -/
def find (location : Nat) : Option Blinker := d.blinkers.find? (·.location = location)

def add (b : Blinker) : Int × Board :=
  if b.location ≥ BLINKS ∨ d.blinkers.length ≥ BLINKS then (-1, d)
  else
    (0, ⟨{ b with on := true, left := b.onTicks } :: d.blinkers, Function.update d.vmem (2 * b.location) b.onChar⟩)

/-- The latest blinker at a location goes, and the screen stays. -/
def remove (location : Nat) : Int × Board :=
  match d.find location with
  | none => (-1, d)
  | some _ => (0, { d with blinkers := d.blinkers.eraseP (·.location = location) })

/-- The latest blinker at `dst` takes the time of that at `src`, and shows its off character whichever it is. -/
def sync (src dst : Nat) : Int × Board :=
  match d.find src, d.find dst with
  | some a, some b =>
    (0, ⟨replaceFirst (·.location = dst) (·.inTime a) d.blinkers, Function.update d.vmem (2 * dst) b.offChar⟩)
  | _, _ => (-1, d)

def tick : Board := ⟨d.blinkers.map Blinker.tick, pokes d.blinkers d.vmem⟩

/-- What a call comes to on the board. -/
def call : BlinkCall → (Int × Option Blinker) × Board
  | .add b => (((d.add b.blinker).1, none), (d.add b.blinker).2)
  | .remove arg => (((d.remove (arg.setWidth 16).toNat).1, none), (d.remove (arg.setWidth 16).toNat).2)
  | .find location => ((if (d.find location.toNat).isSome then 0 else -1, d.find location.toNat), d)
  | .sync arg =>
    let r := d.sync ((arg >>> 16).setWidth 16).toNat ((arg &&& 0xFFFF#32).setWidth 16).toNat
    ((r.1, none), r.2)
  | .tasklet => ((0, none), d.tick)

/-- What calls one after another return, and the board after them. -/
def calls : Board → List BlinkCall → List (Int × Option Blinker) × Board
  | d, [] => ([], d)
  | d, c :: cs => ((d.call c).1 :: (calls (d.call c).2 cs).1, (calls (d.call c).2 cs).2)

end Board

end LimeOS
