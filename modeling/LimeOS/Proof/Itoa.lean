import Mathlib.Data.Nat.Digits.Lemmas
import LimeOS.Spec.Format

/-!
# `itoa` and the numbers that `printf` prints

The division loop stores the digits of the value, the lowest first, and
`strrev` turns them round (`strrev_spec`), so that `itoa` leaves the numeral
(`itoa_spec`). `%#x` pads it from below in its buffer (`printfX_spec`), and `%d`
puts the sign in front (`printfD_spec`).
-/

namespace LimeOS

/-! ## Numerals -/

section

variable {radix d : Nat}

theorem digitValue_digit (hd : d < 36) : digitValue (digit d) = some d := by
  have hall : ∀ d < 36, digitValue (digit d) = some d := by decide
  exact hall d hd

theorem digit_ne_nul (hd : d < 36) : digit d ≠ 0#8 := by
  have hall : ∀ d < 36, digit d ≠ 0#8 := by decide
  exact hall d hd

theorem digit_eq_zero (hd : d < 36) (h : digit d = chr '0') : d = 0 := by
  have hall : ∀ d < 36, digit d = chr '0' → d = 0 := by decide
  exact hall d hd h

theorem lookup_getD (hd : d < 36) : lookup.getD d 0#8 = digit d := by
  have hall : ∀ d < 36, lookup.getD d 0#8 = digit d := by decide
  exact hall d hd

/-- The digits are read from the highest on. -/
theorem numeralValue_reverse (hr : radix ≤ 36) {ds : List Nat} (hd : ∀ d ∈ ds, d < radix) :
    numeralValue radix (ds.map digit).reverse = some (Nat.ofDigits radix ds) := by
  induction ds with
  | nil => rfl
  | cons d ds ih =>
    have hlt : d < radix := hd d List.mem_cons_self
    have hrest := ih fun e he => hd e (List.mem_cons_of_mem d he)
    rw [numeralValue] at hrest ⊢
    rw [List.map_cons, List.reverse_cons, List.foldlM_append, hrest, Nat.ofDigits_cons, Nat.add_comm]
    simp [digitValue_digit (show d < 36 by omega), hlt]

theorem numeral_ne_nil (radix v : Nat) : numeral radix v ≠ [] := by
  rw [numeral]
  split
  · simp
  · rename_i hv
    rw [ne_eq, List.reverse_eq_nil_iff, List.map_eq_nil_iff]
    exact Nat.digits_ne_nil_iff_ne_zero.mpr hv

/-- A numeral begins with its highest digit, which is not zero. -/
theorem numeral_leading (h₁ : 2 ≤ radix) (h₂ : radix ≤ 36) (v : Nat) (h : (numeral radix v).head? = some (chr '0')) :
    numeral radix v = [chr '0'] := by
  rw [numeral] at h ⊢
  split
  · rfl
  · rename_i hv
    rw [if_neg hv, List.head?_reverse, List.getLast?_map] at h
    obtain ⟨d, hd, h₀⟩ := Option.map_eq_some_iff.mp h
    have hmem : d ∈ Nat.digits radix v := List.mem_of_getLast? hd
    have hlt := Nat.digits_lt_base (by omega) hmem
    have hlast : (Nat.digits radix v).getLast (Nat.digits_ne_nil_iff_ne_zero.mpr hv) = d :=
      List.getLast_of_getLast?_eq_some hd
    exact absurd (hlast.trans (digit_eq_zero (by omega) h₀)) (Nat.getLast_digit_ne_zero radix hv)

theorem numeral_spec (h₁ : 2 ≤ radix) (h₂ : radix ≤ 36) (v : Nat) : Numeral radix v (numeral radix v) := by
  refine ⟨numeral_ne_nil radix v, ?_, numeral_leading h₁ h₂ v⟩
  rw [numeral]
  split
  · rename_i hv
    subst hv
    have hds : ∀ d ∈ [0], d < radix := by
      intro d hd
      rw [List.mem_singleton.mp hd]
      omega
    have hone := numeralValue_reverse h₂ hds
    rw [show chr '0' = digit 0 by decide]
    simpa using hone
  · rw [numeralValue_reverse h₂ fun d hd => Nat.digits_lt_base (by omega) hd, Nat.ofDigits_digits]

theorem nul_notMem_numeral (h₁ : 2 ≤ radix) (h₂ : radix ≤ 36) (v : Nat) : 0#8 ∉ numeral radix v := by
  rw [numeral]
  split
  · decide
  · intro h
    rw [List.mem_reverse, List.mem_map] at h
    obtain ⟨d, hd, h₀⟩ := h
    have hlt := Nat.digits_lt_base (by omega) hd
    exact digit_ne_nul (by omega) h₀

theorem length_numeral_le (h₁ : 2 ≤ radix) {v k : Nat} (hk : 0 < k) (hv : v < radix ^ k) :
    (numeral radix v).length ≤ k := by
  rw [numeral]
  split
  · exact hk
  · rw [List.length_reverse, List.length_map]
    exact (Nat.digits_length_le_iff (by omega) v).mpr hv

end

/-! ## Strings -/

section

variable {f : Nat → Byte} {p n : Nat} {l : List Byte}

theorem strlen_eq (h : Mem.StringAt f p l) (h₀ : 0#8 ∉ l) (hn : l.length < n) :
    strlen n (fun i => f (p + i)) = some l.length := by
  obtain ⟨len, hr, hle, hc⟩ : ∃ len, strlen n (fun i => f (p + i)) = some len ∧ len ≤ l.length ∧
      decide (f (p + len) ≠ 0#8) = false := by
    refine whileLoop_total (fun len => l.length - len) (fun len hI hc => ?_) (Nat.zero_le _) hn
    have hne : len ≠ l.length := fun e => of_decide_eq_true hc (e ▸ h.nul)
    exact ⟨len + 1, rfl, by omega, by omega⟩
  have hlen : len = l.length := by
    by_contra hne
    have hlt : len < l.length := by omega
    have hnul : f (p + len) = 0#8 := by simpa using hc
    rw [h.byte len hlt] at hnul
    exact h₀ (hnul ▸ List.getElem_mem hlt)
  rw [hr, hlen]

/-- The characters of `puts`, with those from `i` on still to come. -/
theorem puts_from (h : Mem.StringAt f p l) (h₀ : 0#8 ∉ l) {i : Nat} (hi : i ≤ l.length) (c : Console)
    (hn : l.length - i < n) : whileLoop (fun q : Nat × Console => f (p + q.1) ≠ 0#8)
      (fun q => some (q.1 + 1, q.2.putc (f (p + q.1)))) n (i, c) =
        some (l.length, (l.drop i).foldl Console.putc c) := by
  induction n generalizing i c with
  | zero => omega
  | succ n ih =>
    by_cases he : i = l.length
    · rw [whileLoop_done (by rw [he]; simpa using h.nul), he, List.drop_length]
      rfl
    · have hlt : i < l.length := by omega
      have hb := h.byte i hlt
      have hne : f (p + i) ≠ 0#8 := fun e => h₀ (e ▸ hb ▸ List.getElem_mem hlt)
      rw [whileLoop, if_pos (by simpa using hne), Option.bind_some, ih (by omega) _ (by omega),
        List.drop_eq_getElem_cons hlt, ← hb]
      rfl

theorem puts_eq (h : Mem.StringAt f p l) (h₀ : 0#8 ∉ l) (hn : l.length < n) (c : Console) :
    puts n (fun i => f (p + i)) c = some (l.length, l.foldl Console.putc c) :=
  puts_from h h₀ (Nat.zero_le _) c hn

theorem foldl_putc_out (l : List Byte) (c : Console) : (l.foldl Console.putc c).out = c.out ++ l := by
  induction l generalizing c with
  | nil => simp
  | cons b l ih =>
    rw [List.foldl_cons, ih]
    simp [Console.putc]

theorem foldl_putc_state (l : List Byte) (c : Console) : (l.foldl Console.putc c).state = l.foldl putc c.state := by
  induction l generalizing c with
  | nil => rfl
  | cons b l ih => exact ih _

end

/-! ## `strrev` -/

/-- The bytes from `s` on while `strrev` turns `l` round: those outside of `beg` and `end` are done. -/
structure Turning (s : Nat) (m : Mem) (l : List Byte) (r : Strrev) : Prop where
  meet : r.beg + r.end_ + 1 = l.length
  done : ∀ i (h : i < l.length), i < r.beg ∨ r.end_ < i → r.mem.byte (s + i) = l[l.length - 1 - i]
  todo : ∀ i (h : i < l.length), r.beg ≤ i → i ≤ r.end_ → r.mem.byte (s + i) = l[i]
  other : ∀ x, x < s ∨ s + l.length ≤ x → r.mem.byte x = m.byte x

theorem Turning.swap {s : Nat} {m : Mem} {l : List Byte} {r : Strrev} (h : Turning s m l r) (hlt : r.beg < r.end_) :
    Turning s m l (r.swap s) := by
  have hmeet := h.meet
  refine ⟨?_, fun i hi hd => ?_, fun i hi h₁ h₂ => ?_, fun x hx => ?_⟩
  · simp only [Strrev.swap]
    omega
  · simp only [Strrev.swap] at hd ⊢
    rw [Mem.store_byte, Mem.store_byte]
    split
    · rw [h.todo r.end_ (by omega) (by omega) (by omega)]
      congr 1
      omega
    · split
      · rw [h.todo r.beg (by omega) (by omega) (by omega)]
        congr 1
        omega
      · exact h.done i hi (by omega)
  · simp only [Strrev.swap] at h₁ h₂ ⊢
    rw [Mem.store_byte_of_ne _ _ (by omega), Mem.store_byte_of_ne _ _ (by omega)]
    exact h.todo i hi (by omega) (by omega)
  · simp only [Strrev.swap]
    rw [Mem.store_byte_of_ne _ _ (by omega), Mem.store_byte_of_ne _ _ (by omega)]
    exact h.other x hx

theorem strrev_spec {m : Mem} {s n : Nat} {l : List Byte} (h : Mem.StringAt m.byte s l) (h₀ : 0#8 ∉ l) (hl : l ≠ [])
    (hn : l.length < n) : ∃ m', strrev n m s = some m' ∧ Mem.StringAt m'.byte s l.reverse ∧
      ∀ x, x < s ∨ s + l.length ≤ x → m'.byte x = m.byte x := by
  have hpos : 0 < l.length := List.length_pos_iff.mpr hl
  have hstart : Turning s m l ⟨0, l.length - 1, m⟩ :=
    ⟨by simp only; omega, fun i hi hd => by simp only at hd; omega, fun i hi _ _ => h.byte i hi, fun _ _ => rfl⟩
  obtain ⟨r, hr, ht, hend⟩ : ∃ r : Strrev, whileLoop (fun r : Strrev => r.beg < r.end_) (fun r => some (r.swap s)) n
      ⟨0, l.length - 1, m⟩ = some r ∧ Turning s m l r ∧ decide (r.beg < r.end_) = false := by
    refine whileLoop_total (fun r => r.end_ - r.beg) (fun r ht hc => ?_) hstart (by simp only; omega)
    have hlt : r.beg < r.end_ := of_decide_eq_true hc
    refine ⟨r.swap s, rfl, ht.swap hlt, ?_⟩
    simp only [Strrev.swap]
    omega
  have hle : r.end_ ≤ r.beg := Nat.not_lt.mp (of_decide_eq_false hend)
  have hmeet := ht.meet
  refine ⟨r.mem, ?_, ⟨fun i hi => ?_, ?_⟩, ht.other⟩
  · rw [strrev, strlen_eq h h₀ hn]
    simp [hr]
  · rw [List.length_reverse] at hi
    rw [List.getElem_reverse]
    by_cases hm : i < r.beg ∨ r.end_ < i
    · exact ht.done i hi hm
    · -- the middle of an odd number of bytes
      rw [ht.todo i hi (by omega) (by omega)]
      congr 1
      omega
  · rw [List.length_reverse, ht.other _ (.inr (Nat.le_refl _))]
    exact h.nul

/-! ## `itoa` -/

section

variable {radix : Word}

/-- The loop stores the digits of the value, the lowest first. -/
theorem itoa_loop (h₁ : 2 ≤ radix.toNat) (h₂ : radix.toNat ≤ 36) {n : Nat} (v : Word) (a : Nat) (m : Mem)
    (hn : (Nat.digits radix.toNat v.toNat).length < n) :
    whileLoop (fun d : Itoa => d.newval > 0) (Itoa.digit radix) n ⟨v, a, m⟩ =
      some ⟨0, a + (Nat.digits radix.toNat v.toNat).length,
        m.storeList a ((Nat.digits radix.toNat v.toNat).map digit)⟩ := by
  induction n generalizing v a m with
  | zero => omega
  | succ n ih =>
    by_cases hv : v = 0
    · subst hv
      rw [whileLoop_done (by rfl)]
      simp [Mem.storeList]
    · have hpos : 0 < v.toNat := by bv_omega
      have hrad : radix ≠ 0 := by bv_omega
      have hdig : lookup.getD (v % radix).toNat 0#8 = digit (v.toNat % radix.toNat) := by
        have hlt := Nat.mod_lt v.toNat (show 0 < radix.toNat by omega)
        rw [BitVec.toNat_umod, lookup_getD (by omega)]
      have hdef := Nat.digits_def' (by omega) hpos (b := radix.toNat)
      have hdiv : (v / radix).toNat = v.toNat / radix.toNat := BitVec.toNat_udiv
      rw [hdef, List.length_cons] at hn
      rw [whileLoop, if_pos (show decide (v > 0) = true from decide_eq_true (by bv_omega)), Itoa.digit, if_neg hrad,
        Option.bind_some, ih _ _ _ (by rw [hdiv]; omega), hdiv, hdig, hdef, List.length_cons, List.map_cons,
        Mem.storeList]
      simp only [Option.some.injEq, Itoa.mk.injEq, true_and, and_true]
      omega

/-- The string of the digits in the order of the loop. -/
theorem storeList_stringAt (m : Mem) (a : Nat) (l : List Byte) :
    Mem.StringAt ((m.storeList a l).store (a + l.length) 0#8).byte a l := by
  constructor
  · intro i hi
    rw [Mem.store_byte_of_ne _ _ (by omega), Mem.storeList_byte l m a hi]
  · exact Mem.store_byte_self _ _ _

theorem itoa_spec (h₁ : 2 ≤ radix.toNat) (h₂ : radix.toNat ≤ 36) {n : Nat} (hn : 32 < n) (v : Word) (m : Mem)
    (buf : Nat) : ∃ m', itoa n v m buf radix = some m' ∧
      Mem.StringAt m'.byte buf (numeral radix.toNat v.toNat) ∧ ∀ x, x < buf → m'.byte x = m.byte x := by
  by_cases hv : v = 0
  · subst hv
    refine ⟨_, rfl, storeList_stringAt m buf [chr '0'], fun x hx => ?_⟩
    rw [Mem.store_byte_of_ne _ _ (by omega), Mem.store_byte_of_ne _ _ (by omega)]
  · have hv' : v.toNat ≠ 0 := by bv_omega
    have hnum : numeral radix.toNat v.toNat = ((Nat.digits radix.toNat v.toNat).map digit).reverse := if_neg hv'
    have hlen : (Nat.digits radix.toNat v.toNat).length ≤ 32 :=
      (Nat.digits_length_le_iff (by omega) _).mpr (Nat.lt_of_lt_of_le v.isLt (Nat.pow_le_pow_left h₁ 32))
    have hnul := nul_notMem_numeral h₁ h₂ v.toNat
    have hne := numeral_ne_nil radix.toNat v.toNat
    rw [hnum, List.mem_reverse] at hnul
    rw [hnum, ne_eq, List.reverse_eq_nil_iff] at hne
    have hstr := storeList_stringAt m buf ((Nat.digits radix.toNat v.toNat).map digit)
    obtain ⟨m', hr, hs, ho⟩ := strrev_spec hstr hnul hne (n := n) (by rw [List.length_map]; omega)
    rw [List.length_map] at hr
    refine ⟨m', ?_, hnum ▸ hs, fun x hx => ?_⟩
    · rw [itoa, if_neg hv, itoa_loop h₁ h₂ v buf m (by omega)]
      exact hr
    · rw [ho x (.inl hx), Mem.store_byte_of_ne _ _ (by omega), Mem.storeList_byte_lt _ _ hx]

end

/-! ## Conversions of numbers -/

section

variable {n : Nat} (conv : Nat → Byte) (arg : Word) (c : Console)

theorem length_hex_le : (numeral 16 arg.toNat).length ≤ 8 := length_numeral_le (by decide) (by decide) arg.isLt

theorem length_padded : (padded arg.toNat).length = 8 := by
  have hlen := length_hex_le arg
  rw [padded, List.length_append, List.length_replicate]
  omega

theorem length_decimal_le : (numeral 10 arg.toNat).length ≤ 10 :=
  length_numeral_le (by decide) (by decide) (Nat.lt_of_lt_of_le arg.isLt (by decide))

/-- `itoa` to the start of the buffer, and `puts`. -/
theorem itoa_puts {radix : Word} (h₁ : 2 ≤ radix.toNat) (h₂ : radix.toNat ≤ 36) (hn : 32 < n) :
    ((itoa n arg (.fresh conv) 0 radix).bind fun m => (puts n m.byte c).bind fun r => some r.2) =
      some ((numeral radix.toNat arg.toNat).foldl Console.putc c) := by
  obtain ⟨m, hm, hs, -⟩ := itoa_spec h₁ h₂ hn arg (.fresh conv) 0
  have hlen : (numeral radix.toNat arg.toNat).length ≤ 32 :=
    length_numeral_le h₁ (by decide) (Nat.lt_of_lt_of_le arg.isLt (Nat.pow_le_pow_left h₁ 32))
  have hp := puts_eq hs (nul_notMem_numeral h₁ h₂ _) (n := n) (by omega) c
  simp only [Nat.zero_add] at hp
  rw [hm, Option.bind_some, hp, Option.bind_some]

/-- The zeros below the numeral. -/
theorem pad_loop {i : Nat} (hi : i ≤ 8) (m : Mem) (hn : 8 - i < n) : ∃ m',
    whileLoop (fun p : Nat × Mem => p.1 < 8) (fun p => some (p.1 + 1, p.2.store p.1 (chr '0'))) n (i, m) =
      some (8, m') ∧ Mem.Filled i (8 - i) (chr '0') m m' := by
  induction n generalizing i m with
  | zero => omega
  | succ n ih =>
    by_cases he : i = 8
    · subst he
      exact ⟨m, whileLoop_done rfl, .zero _ _ _⟩
    · have hlt : i < 8 := by omega
      obtain ⟨m', hr, hf⟩ := ih (i := i + 1) (by omega) (m.store i (chr '0')) (by omega)
      refine ⟨m', ?_, ?_⟩
      · rw [whileLoop, if_pos (decide_eq_true hlt), Option.bind_some, hr]
      · rw [show 8 - i = 1 + (8 - (i + 1)) by omega]
        exact (Mem.Filled.one i (chr '0') m).append hf

/-- The padded numeral, where its zeros and its digits are. -/
theorem padded_stringAt {m m' : Mem} (hs : Mem.StringAt m.byte 8 (numeral 16 arg.toNat))
    (hf : Mem.Filled (numeral 16 arg.toNat).length (8 - (numeral 16 arg.toNat).length) (chr '0') m m') :
    Mem.StringAt m'.byte (numeral 16 arg.toNat).length (padded arg.toNat) := by
  have hlen := length_hex_le arg
  constructor
  · intro i hi
    rw [length_padded] at hi
    rw [hf]
    simp only [padded, List.getElem_append, List.length_replicate]
    split
    · rw [dif_pos (by omega), List.getElem_replicate]
    · rename_i hlt
      rw [dif_neg (by omega), ← hs.byte _ (by omega)]
      congr 1
      omega
  · rw [length_padded, hf, if_neg (by omega), Nat.add_comm]
    exact hs.nul

theorem printfX_spec (hn : 32 < n) (alternate : Bool) : printfX n conv alternate arg c =
    some ((if alternate then padded arg.toNat else numeral 16 arg.toNat).foldl Console.putc c) := by
  rw [printfX]
  cases alternate with
  | false => exact itoa_puts conv arg c (by decide) (by decide) hn
  | true =>
    obtain ⟨m, hm, hs, -⟩ : ∃ m, itoa n arg (.fresh conv) 8 16 = some m ∧
        Mem.StringAt m.byte 8 (numeral 16 arg.toNat) ∧ _ := itoa_spec (by decide) (by decide) hn arg (.fresh conv) 8
    have hnul : 0#8 ∉ numeral 16 arg.toNat := nul_notMem_numeral (by decide) (by decide) _
    have hlen := length_hex_le arg
    obtain ⟨m', hr, hf⟩ := pad_loop hlen m (n := n) (by omega)
    have hpad : 0#8 ∉ padded arg.toNat := by
      intro h
      rcases List.mem_append.mp h with h | h
      · exact absurd (List.eq_of_mem_replicate h) (by decide)
      · exact hnul h
    have hp := puts_eq (padded_stringAt arg hs hf) hpad (n := n) (by rw [length_padded]; omega) c
    have hl := strlen_eq hs hnul (n := n) (Nat.lt_of_le_of_lt hlen (by omega))
    simp only [hm, hl, hr, hp, Option.bind_eq_bind, Option.bind_some, Bool.true_eq_false, if_true, if_false]
    rfl

theorem printfU_spec (hn : 32 < n) : printfU n conv arg c = some ((numeral 10 arg.toNat).foldl Console.putc c) :=
  itoa_puts conv arg c (by decide) (by decide) hn

/-- The word that `itoa` gets for a negative argument. -/
theorem toNat_neg_eq (h : arg.toInt < 0) : (-arg).toNat = arg.toInt.natAbs := by
  have hdef := BitVec.toInt_eq_toNat_cond arg
  have hneg := BitVec.toNat_neg arg
  have hlt := arg.isLt
  split at hdef
  · omega
  · omega

theorem toNat_eq_natAbs (h : ¬ arg.toInt < 0) : arg.toNat = arg.toInt.natAbs := by
  have hdef := BitVec.toInt_eq_toNat_cond arg
  have hlt := arg.isLt
  split at hdef
  · omega
  · omega

theorem length_signedNumeral_le : (signedNumeral arg.toInt).length ≤ 11 := by
  rw [signedNumeral]
  split
  · rename_i h
    rw [List.length_cons, ← toNat_neg_eq arg h]
    exact Nat.succ_le_succ (length_decimal_le (-arg))
  · rename_i h
    rw [← toNat_eq_natAbs arg h]
    exact Nat.le_succ_of_le (length_decimal_le arg)

theorem printfD_spec (hn : 32 < n) : printfD n conv arg c = some ((signedNumeral arg.toInt).foldl Console.putc c) := by
  rw [printfD, signedNumeral]
  by_cases h : arg.toInt < 0
  · obtain ⟨m, hm, hs, hlow⟩ : ∃ m, itoa n (-arg) ((Mem.fresh conv).store 0 (chr '-')) 1 10 = some m ∧
        Mem.StringAt m.byte 1 (numeral 10 (-arg).toNat) ∧ ∀ x, x < 1 → m.byte x = _ :=
      itoa_spec (by decide) (by decide) hn (-arg) _ 1
    have hnul : 0#8 ∉ chr '-' :: numeral 10 (-arg).toNat := by
      rw [List.mem_cons, not_or]
      exact ⟨by decide, nul_notMem_numeral (by decide) (by decide) _⟩
    have hlen := length_decimal_le (-arg)
    have hsign : m.byte 0 = chr '-' := by
      rw [hlow 0 (by omega)]
      exact Mem.store_byte_self _ _ _
    have hp := puts_eq (Mem.StringAt.cons hsign hs) hnul (n := n) (by rw [List.length_cons]; omega) c
    simp only [Nat.zero_add] at hp
    rw [if_pos h, if_pos h, hm, ← toNat_neg_eq arg h]
    simp only [Option.bind_eq_bind, Option.bind_some, hp]
    rfl
  · rw [if_neg h, if_neg h, ← toNat_eq_natAbs arg h]
    exact itoa_puts conv arg c (by decide) (by decide) hn

end

end LimeOS
