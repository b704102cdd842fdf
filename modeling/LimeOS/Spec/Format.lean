import Mathlib.Data.Nat.Digits.Defs
import LimeOS.Impl.Printf

/-!
# Numerals and formats

A numeral is a string of digits with a value in its radix. A format is text and
conversions, each a `%`, any number of `#` and a character; what it expands to is
fixed by the words and strings that its conversions take, from left to right.
-/

namespace LimeOS

/-! ## Numerals -/

/-- The value of a digit. -/
def digitValue (b : Byte) : Option Nat :=
  if (chr '0').toNat ≤ b.toNat ∧ b.toNat ≤ (chr '9').toNat then some (b.toNat - (chr '0').toNat)
  else if (chr 'A').toNat ≤ b.toNat ∧ b.toNat ≤ (chr 'Z').toNat then some (b.toNat - (chr 'A').toNat + 10)
  else none

/-- The value of a string in a radix, if it is a string of its digits. -/
def numeralValue (radix : Nat) (l : List Byte) : Option Nat :=
  l.foldlM (fun v b => (digitValue b).bind fun d => if d < radix then some (radix * v + d) else none) 0

/-- The string of digits for `v`, with no leading zero unless it is `0`. -/
structure Numeral (radix v : Nat) (l : List Byte) : Prop where
  ne_nil : l ≠ []
  value : numeralValue radix l = some v
  leading : l.head? = some (chr '0') → l = [chr '0']

/-- The digit for a value. -/
def digit (d : Nat) : Byte := if d < 10 then BitVec.ofNat 8 (48 + d) else BitVec.ofNat 8 (55 + d)

/-- The numeral of `v`. -/
def numeral (radix v : Nat) : List Byte := if v = 0 then [chr '0'] else ((Nat.digits radix v).map digit).reverse

/-- A numeral of at least eight digits. -/
def padded (v : Nat) : List Byte :=
  List.replicate (8 - (numeral 16 v).length) (chr '0') ++ numeral 16 v

/-- The decimal numeral of an integer. -/
def signedNumeral (v : Int) : List Byte :=
  if v < 0 then chr '-' :: numeral 10 v.natAbs else numeral 10 v.natAbs

/-! ## Formats -/

/-- What the conversion with character `c` prints when `k` words are taken, and how many are then. -/
inductive Converts (mem : Nat → Byte) (args : Nat → Word) (alternate : Bool) : Byte → Nat → List Byte → Nat → Prop
  | percent (k : Nat) : Converts mem args alternate (chr '%') k [chr '%'] k
  | hex (k : Nat) : Converts mem args alternate (chr 'x') k
      (if alternate then padded (args k).toNat else numeral 16 (args k).toNat) (k + 1)
  | unsigned (k : Nat) : Converts mem args alternate (chr 'u') k (numeral 10 (args k).toNat) (k + 1)
  | signed (k : Nat) : Converts mem args alternate (chr 'd') k (signedNumeral (args k).toInt) (k + 1)
  | char (k : Nat) : Converts mem args alternate (chr 'c') k [(args k).setWidth 8] (k + 1)
  | string (k : Nat) (l : CString) (h : Mem.StringAt mem (args k).toNat l.1) :
      Converts mem args alternate (chr 's') k l.1 (k + 1)
  | unknown (k : Nat) {c : Byte} (h : c ∉ str "%xudcs") : Converts mem args alternate c k [] k

/-- What a format prints from where `k` words are taken. -/
inductive Expands (mem : Nat → Byte) (args : Nat → Word) : List Byte → Nat → List Byte → Prop
  | nil (k : Nat) : Expands mem args [] k []
  | text {c : Byte} {l out : List Byte} {k : Nat} (hc : c ≠ chr '%') (h : Expands mem args l k out) :
      Expands mem args (c :: l) k (c :: out)
  | conversion {i : Nat} {c : Byte} {l text out : List Byte} {k k' : Nat} (hc : c ≠ chr '#')
      (ht : Converts mem args (decide (0 < i)) c k text k') (h : Expands mem args l k' out) :
      Expands mem args (chr '%' :: (List.replicate i (chr '#') ++ c :: l)) k (text ++ out)
  /-- A conversion without a character. -/
  | cut (i k : Nat) : Expands mem args (chr '%' :: List.replicate i (chr '#')) k []

/-- Whether a format ends in a conversion without a character. -/
def endsInConversion (l : List Byte) : Bool :=
  l.foldl (fun inside c => if inside then c = chr '#' else c = chr '%') false

end LimeOS
