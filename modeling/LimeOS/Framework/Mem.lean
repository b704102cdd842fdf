import Mathlib.Data.BitVec
import Mathlib.Data.List.TakeWhile
import Mathlib.Logic.Function.Basic

/-!
# Memory that remembers where it was stored to

A memory is its bytes and the addresses that have been stored to, the latest
first. Code that is said to store only within a range is one whose new
addresses all lie in it (`Stores`), which its bytes alone do not tell: a
store of the byte already there leaves no other mark. What code leaves
unchanged (`Stores.byte_eq`) follows from where it stores.
-/

namespace LimeOS

abbrev Byte := BitVec 8

/-- A NUL-terminated string: its bytes before the NUL. -/
abbrev CString := { l : List Byte // 0#8 ∉ l }

structure Mem where
  byte : Nat → Byte
  stored : List Nat

namespace Mem

/-- Memory with the bytes `f`, not stored to yet. -/
def fresh (f : Nat → Byte) : Mem := ⟨f, []⟩

def store (m : Mem) (a : Nat) (b : Byte) : Mem := ⟨Function.update m.byte a b, a :: m.stored⟩

@[simp] theorem fresh_stored (f : Nat → Byte) : (fresh f).stored = [] := rfl
@[simp] theorem store_stored (m : Mem) (a : Nat) (b : Byte) : (m.store a b).stored = a :: m.stored := rfl

theorem store_byte (m : Mem) (a : Nat) (b : Byte) (x : Nat) :
    (m.store a b).byte x = if x = a then b else m.byte x := by
  simp only [store, Function.update_apply]

@[simp] theorem store_byte_self (m : Mem) (a : Nat) (b : Byte) : (m.store a b).byte a = b := by
  simp [store_byte]

theorem store_byte_of_ne (m : Mem) {a x : Nat} (b : Byte) (h : x ≠ a) : (m.store a b).byte x = m.byte x := by
  simp [store_byte, h]

/-- A list of bytes stored from `i` on. -/
def storeList (m : Mem) (i : Nat) : List Byte → Mem
  | [] => m
  | b :: l => (m.store i b).storeList (i + 1) l

theorem storeList_byte_lt : ∀ (l : List Byte) (m : Mem) {i x : Nat}, x < i → (m.storeList i l).byte x = m.byte x
  | [], _, _, _, _ => rfl
  | b :: l, m, i, x, h => by
    rw [storeList, storeList_byte_lt l _ (by omega), store_byte_of_ne _ _ (by omega)]

theorem storeList_byte : ∀ (l : List Byte) (m : Mem) (i : Nat) {j : Nat} (h : j < l.length),
    (m.storeList i l).byte (i + j) = l[j]
  | b :: l, m, i, 0, _ => by rw [storeList, storeList_byte_lt l _ (by omega), Nat.add_zero, store_byte_self]; rfl
  | b :: l, m, i, j + 1, h => by
    rw [storeList, show i + (j + 1) = i + 1 + j by omega, storeList_byte l _ _ (by simpa using h)]
    rfl

theorem storeList_append : ∀ (l l' : List Byte) (m : Mem) (i : Nat),
    (m.storeList i l).storeList (i + l.length) l' = m.storeList i (l ++ l')
  | [], _, _, _ => rfl
  | b :: l, l', m, i => by
    rw [List.cons_append, storeList, storeList, List.length_cons, show i + (l.length + 1) = i + 1 + l.length by omega,
      storeList_append l l']

/-- The bytes of a string stored from the start of an array, with a byte after them. -/
theorem storeString_byte (m : Mem) {l : List Byte} (b : Byte) {j : Nat} (h : j < l.length) :
    ((m.storeList 0 l).store l.length b).byte j = l[j] := by
  have hb := storeList_byte l m 0 h
  rw [Nat.zero_add] at hb
  rw [store_byte_of_ne _ _ (by omega), hb]

theorem mem_storeList_stored : ∀ (l : List Byte) (m : Mem) (i : Nat) {a : Nat},
    a ∈ (m.storeList i l).stored ↔ i ≤ a ∧ a < i + l.length ∨ a ∈ m.stored
  | [], m, i, a => by
    rw [storeList, List.length_nil]
    constructor
    · exact .inr
    · rintro (h | h)
      · omega
      · exact h
  | b :: l, m, i, a => by
    rw [storeList, mem_storeList_stored l, store_stored, List.mem_cons, List.length_cons]
    constructor
    · rintro (h | rfl | h)
      · exact .inl (by omega)
      · exact .inl (by omega)
      · exact .inr h
    · rintro (h | h)
      · by_cases ha : a = i
        · exact .inr (.inl ha)
        · exact .inl (by omega)
      · exact .inr (.inr h)

theorem length_storeList_stored : ∀ (l : List Byte) (m : Mem) (i : Nat),
    (m.storeList i l).stored.length = l.length + m.stored.length
  | [], m, _ => (Nat.zero_add _).symm
  | b :: l, m, i => by
    rw [storeList, length_storeList_stored l, store_stored, List.length_cons, List.length_cons]
    omega

/-- The string in an array of `n` bytes. -/
def cstr (f : Nat → Byte) (n : Nat) : CString :=
  ⟨((List.range n).map f).takeWhile (· ≠ 0#8), fun h => by simpa using List.mem_takeWhile_imp h⟩

/-- An array that holds the bytes of a string and a NUL. -/
theorem cstr_eq {f : Nat → Byte} {n : Nat} {l : List Byte} (hl : l.length < n) (h₀ : 0#8 ∉ l)
    (h : ∀ j (hj : j < l.length), f j = l[j]) (hn : f l.length = 0#8) : (cstr f n).1 = l := by
  have hs : (List.range n).map f = l ++ 0#8 :: (List.range (n - l.length - 1)).map fun j => f (l.length + 1 + j) := by
    refine List.ext_getElem (by simp; omega) fun j h₁ h₂ => ?_
    rw [List.getElem_map, List.getElem_range, List.getElem_append]
    split
    · rename_i hj
      exact h j hj
    · rename_i hj
      rw [List.getElem_cons]
      split
      · rw [show j = l.length by omega, hn]
      · rw [List.getElem_map, List.getElem_range]
        congr 1
        omega
  have hp : ∀ b ∈ l, decide (b ≠ 0#8) = true := fun b hb => decide_eq_true fun e => h₀ (e ▸ hb)
  simp only [cstr, hs]
  rw [List.takeWhile_append_of_pos hp,
    List.takeWhile_cons_of_neg (by simp), List.append_nil]

/-- The bytes from `p` on are those of `l`, and a NUL after them. -/
structure StringAt (f : Nat → Byte) (p : Nat) (l : List Byte) : Prop where
  byte : ∀ i (h : i < l.length), f (p + i) = l[i]
  nul : f (p + l.length) = 0#8

theorem StringAt.cons {f : Nat → Byte} {p : Nat} {b : Byte} {l : List Byte} (hb : f p = b) (h : StringAt f (p + 1) l) :
    StringAt f p (b :: l) := by
  constructor
  · intro i hi
    cases i with
    | zero => exact hb
    | succ i =>
      rw [List.getElem_cons_succ, ← h.byte i (Nat.lt_of_succ_lt_succ hi), Nat.add_assoc, Nat.add_comm 1 i]
  · rw [List.length_cons, Nat.add_comm l.length 1, ← Nat.add_assoc]
    exact h.nul

theorem StringAt.head {f : Nat → Byte} {p : Nat} {b : Byte} {l : List Byte} (h : StringAt f p (b :: l)) : f p = b :=
  h.byte 0 (Nat.succ_pos _)

theorem StringAt.tail {f : Nat → Byte} {p : Nat} {b : Byte} {l : List Byte} (h : StringAt f p (b :: l)) :
    StringAt f (p + 1) l := by
  constructor
  · intro i hi
    rw [Nat.add_assoc, Nat.add_comm 1 i, h.byte (i + 1) (Nat.succ_lt_succ hi), List.getElem_cons_succ]
  · rw [Nat.add_assoc, Nat.add_comm 1 l.length]
    exact h.nul

theorem StringAt.drop {f : Nat → Byte} {p : Nat} {l l' : List Byte} (h : StringAt f p (l ++ l')) :
    StringAt f (p + l.length) l' := by
  induction l generalizing p with
  | nil => exact h
  | cons b l ih =>
    rw [List.length_cons, Nat.add_comm l.length 1, ← Nat.add_assoc]
    exact ih h.tail

/-- From `m` to `m'` only addresses with `P` were stored to. -/
def Stores (P : Nat → Prop) (m m' : Mem) : Prop :=
  ∃ l, m'.stored = l ++ m.stored ∧ (∀ a ∈ l, P a) ∧ ∀ x, x ∉ l → m'.byte x = m.byte x

namespace Stores

variable {P : Nat → Prop} {m m₁ m₂ : Mem}

theorem refl (P : Nat → Prop) (m : Mem) : Stores P m m := ⟨[], rfl, by simp, fun _ _ => rfl⟩

theorem trans (h₁ : Stores P m m₁) (h₂ : Stores P m₁ m₂) : Stores P m m₂ := by
  obtain ⟨l₁, e₁, p₁, b₁⟩ := h₁
  obtain ⟨l₂, e₂, p₂, b₂⟩ := h₂
  refine ⟨l₂ ++ l₁, by rw [e₂, e₁, List.append_assoc], fun a ha => ?_, fun x hx => ?_⟩
  · rcases List.mem_append.mp ha with h | h
    · exact p₂ a h
    · exact p₁ a h
  · rw [List.mem_append, not_or] at hx
    rw [b₂ x hx.1, b₁ x hx.2]

/-- A store at an address with `P`. -/
theorem store {a : Nat} (h : P a) (m : Mem) (b : Byte) : Stores P m (m.store a b) :=
  ⟨[a], rfl, by simpa using h, fun x hx => store_byte_of_ne m b (by simpa using hx)⟩

/-- A list of bytes is stored at its own addresses. -/
theorem storeList : ∀ (l : List Byte) (m : Mem) (i : Nat), (∀ a, i ≤ a → a < i + l.length → P a) →
    Stores P m (m.storeList i l)
  | [], m, _, _ => refl P m
  | b :: l, m, i, h => by
    have hb : P i := h i (Nat.le_refl i) (by rw [List.length_cons]; omega)
    refine (store hb m b).trans (storeList l _ (i + 1) fun a h₁ h₂ => h a (by omega) ?_)
    rw [List.length_cons]
    omega

/-- A byte at an address that no store has. -/
theorem byte_eq (h : Stores P m m₁) {x : Nat} (hx : ¬ P x) : m₁.byte x = m.byte x := by
  obtain ⟨l, -, p, b⟩ := h
  exact b x fun hl => hx (p x hl)

/-- A fold of steps that each store at addresses with `P`. -/
theorem foldl_mem {α : Type} {f : Mem → α → Mem} :
    ∀ (l : List α), (∀ m, ∀ x ∈ l, Stores P m (f m x)) → ∀ m : Mem, Stores P m (l.foldl f m)
  | [], _, m => refl P m
  | x :: l, hf, m => (hf m x List.mem_cons_self).trans
      (foldl_mem l (fun m y hy => hf m y (List.mem_cons_of_mem _ hy)) (f m x))

end Stores

/-! ## Copies of a range -/

/-- `m'` is `m` with the `n` bytes from `src` also from `dst`. -/
def Copied (dst src n : Nat) (m m' : Mem) : Prop :=
  ∀ x, m'.byte x = if dst ≤ x ∧ x < dst + n then m.byte (src + (x - dst)) else m.byte x

namespace Copied

variable {dst src n k : Nat} {m m₁ m₂ : Mem}

theorem zero (dst src : Nat) (m : Mem) : Copied dst src 0 m m := fun x => by
  rw [if_neg (by omega)]

theorem one (dst src : Nat) (m : Mem) : Copied dst src 1 m (m.store dst (m.byte src)) := fun x => by
  rw [store_byte]
  by_cases h : x = dst
  · subst h
    simp
  · rw [if_neg h, if_neg (by omega)]

/-- One range after another, when neither source is in the first destination. -/
theorem append (h₁ : Copied dst src k m m₁) (h₂ : Copied (dst + k) (src + k) n m₁ m₂)
    (hd : src + k + n ≤ dst ∨ dst + k ≤ src) : Copied dst src (k + n) m m₂ := fun x => by
  rw [h₂ x]
  by_cases hx : dst + k ≤ x ∧ x < dst + k + n
  · rw [if_pos hx, if_pos (by omega), h₁, if_neg (by omega)]
    congr 1
    omega
  · rw [if_neg hx, h₁ x]
    by_cases hk : dst ≤ x ∧ x < dst + k
    · rw [if_pos hk, if_pos (by omega)]
    · rw [if_neg hk, if_neg (by omega)]

/-- A byte of the destination. -/
theorem byte_dst (h : Copied dst src n m m₁) {i : Nat} (hi : i < n) :
    m₁.byte (dst + i) = m.byte (src + i) := by
  rw [h, if_pos (by omega), show dst + i - dst = i by omega]

/-- A byte outside the destination. -/
theorem byte_other (h : Copied dst src n m m₁) {x : Nat} (hx : x < dst ∨ dst + n ≤ x) :
    m₁.byte x = m.byte x := by
  rw [h, if_neg (by omega)]

end Copied

/-! ## Ranges of one byte -/

/-- `m'` is `m` with the `n` bytes from `dst` all `b`. -/
def Filled (dst n : Nat) (b : Byte) (m m' : Mem) : Prop :=
  ∀ x, m'.byte x = if dst ≤ x ∧ x < dst + n then b else m.byte x

namespace Filled

variable {dst n k : Nat} {b : Byte} {m m₁ m₂ : Mem}

theorem zero (dst : Nat) (b : Byte) (m : Mem) : Filled dst 0 b m m := fun x => by
  rw [if_neg (by omega)]

theorem one (dst : Nat) (b : Byte) (m : Mem) : Filled dst 1 b m (m.store dst b) := fun x => by
  rw [store_byte]
  by_cases h : x = dst
  · rw [if_pos h, if_pos (by omega)]
  · rw [if_neg h, if_neg (by omega)]

/-- One range after another. -/
theorem append (h₁ : Filled dst k b m m₁) (h₂ : Filled (dst + k) n b m₁ m₂) : Filled dst (k + n) b m m₂ := fun x => by
  rw [h₂ x]
  by_cases hx : dst + k ≤ x ∧ x < dst + k + n
  · rw [if_pos hx, if_pos (by omega)]
  · rw [if_neg hx, h₁ x]
    by_cases hk : dst ≤ x ∧ x < dst + k
    · rw [if_pos hk, if_pos (by omega)]
    · rw [if_neg hk, if_neg (by omega)]

end Filled

end Mem

end LimeOS
