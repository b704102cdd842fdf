import LimeOS.Proof.User

/-!
# `grep` on the kernel

`do_one_file` reads a file in pieces of its array: it searches the lines that a
piece ends, moves the rest to the front and reads on. However the pieces fall, it
writes the lines of the text that have the string in them (`wp_grepLoop`), if no
line is longer than the array: what it has written and what it would still write
for the rest of the text are always the same together. So `grep` does for all files
(`grep_ok`).
-/

namespace LimeOS

/-! ## Strings -/

section

variable {f : Nat → Byte} {s m : List Byte}

/-- The bytes from `p` on are those of `l`. -/
def BytesAt (f : Nat → Byte) (p : Nat) (l : List Byte) : Prop := ∀ i (h : i < l.length), f (p + i) = l[i]

theorem ece391StrncmpFrom_eq_zero {c : Nat} (hm : Mem.StringAt f c m) (hs : 0#8 ∉ s) : ∀ (n i : Nat), i + n = s.length →
    i ≤ m.length → (ece391StrncmpFrom (fun i => f (c + i)) (s.getD · 0#8) n i = 0 ↔ s.drop i <+: m.drop i)
  | 0, i, hn, _ => by
    rw [List.drop_eq_nil_of_le (by omega : s.length ≤ i)]
    exact iff_of_true rfl (List.nil_prefix)
  | n + 1, i, hn, hi => by
    have hlt : i < s.length := by omega
    have hsi : s[i] ≠ 0#8 := fun e => hs (e ▸ List.getElem_mem hlt)
    rw [ece391StrncmpFrom]
    simp only [List.getD_eq_getElem s 0#8 hlt]
    rw [List.drop_eq_getElem_cons hlt]
    rcases Nat.lt_or_eq_of_le hi with him | rfl
    · rw [hm.byte i him, List.drop_eq_getElem_cons him, List.cons_prefix_cons]
      by_cases he : m[i] = s[i]
      · rw [if_pos he]
        by_cases hn₀ : n = 0
        · subst hn₀
          rw [if_pos (.inr rfl), List.drop_eq_nil_of_le (by omega : s.length ≤ i + 1)]
          exact iff_of_true rfl ⟨he.symm, List.nil_prefix⟩
        · rw [if_neg (by rw [he]; exact fun h => h.elim hsi hn₀), ece391StrncmpFrom_eq_zero hm hs n (i + 1) (by omega) him]
          exact ⟨fun h => ⟨he.symm, h⟩, fun h => h.2⟩
      · rw [if_neg he]
        refine iff_of_false (fun h => he (BitVec.eq_of_toNat_eq (by omega))) fun h => he h.1.symm
    · rw [hm.nul, List.drop_length, if_neg (Ne.symm hsi)]
      have hpos : (s[m.length]).toNat ≠ 0 := fun e => hsi (BitVec.eq_of_toNat_eq e)
      refine iff_of_false ?_ (fun h => absurd (List.prefix_nil.mp h) (List.cons_ne_nil _ _))
      simp only [BitVec.toNat_ofNat]
      omega

/-- The search finds `s` anywhere in the line. -/
theorem searchFrom_iff (hs : 0#8 ∉ s) (hne : s ≠ []) : ∀ (m : List Byte) {c : Nat}, Mem.StringAt f c m →
    (searchFrom f (s.getD · 0#8) s.length m.length c = true ↔ s <:+: m)
  | [], c, _ => by
    rw [List.length_nil, searchFrom, List.infix_nil]
    exact iff_of_false (by decide) hne
  | b :: m, c, h => by
    have hpos := List.length_pos_iff.mpr hne
    have hcmp := ece391StrncmpFrom_eq_zero h hs s.length 0 (by omega) (Nat.zero_le _)
    rw [List.drop_zero, List.drop_zero] at hcmp
    rw [List.length_cons, searchFrom, List.infix_cons_iff, ← searchFrom_iff hs hne m h.tail]
    by_cases hp : s <+: b :: m
    · have hhead : s.getD 0 0#8 = f c := by
        obtain ⟨t, e⟩ := hp
        rw [h.head]
        cases s with
        | nil => exact absurd rfl hne
        | cons b' s => exact (List.cons.inj e).1
      rw [if_pos ⟨hhead, hcmp.mpr hp⟩]
      exact iff_of_true rfl (.inl hp)
    · rw [if_neg fun h => hp (hcmp.mp h.2)]
      exact ⟨.inr, fun h => h.resolve_left hp⟩

/-- A copy to lower addresses of the same array. -/
theorem ece391Strcpy_eq : ∀ (l : List Byte) (dst src : Nat) {n : Nat} {m : Mem}, Mem.StringAt m.byte src l → 0#8 ∉ l → dst < src →
    l.length < n → ∃ m', ece391Strcpy dst src n m = some m' ∧ BytesAt m'.byte dst l ∧
      ∀ x, x < dst ∨ dst + l.length < x → m'.byte x = m.byte x
  | [], dst, src, n + 1, m, h, _, hlt, _ => by
    refine ⟨m.store dst 0#8, ?_, fun i hi => absurd hi (Nat.not_lt_zero i), fun x hx => ?_⟩
    · have hb : m.byte src = 0#8 := h.nul
      rw [ece391Strcpy]
      simp only [hb, if_true]
    · exact Mem.store_byte_of_ne _ _ (by simp only [List.length_nil] at hx; omega)
  | b :: l, dst, src, n + 1, m, h, h₀, hlt, hn => by
    have hb : m.byte src = b := h.head
    have hne : b ≠ 0#8 := fun e => h₀ (e ▸ List.mem_cons_self)
    rw [List.length_cons] at hn
    have htail : Mem.StringAt (m.store dst b).byte (src + 1) l := by
      refine ⟨fun i hi => ?_, ?_⟩
      · rw [Mem.store_byte_of_ne _ _ (by omega)]
        exact h.tail.byte i hi
      · rw [Mem.store_byte_of_ne _ _ (by omega)]
        exact h.tail.nul
    obtain ⟨m', he, hl, hx⟩ := ece391Strcpy_eq l (dst + 1) (src + 1) htail (fun h => h₀ (List.mem_cons_of_mem _ h)) (Nat.succ_lt_succ hlt)
      (Nat.lt_of_succ_lt_succ hn)
    refine ⟨m', ?_, fun i hi => ?_, fun x hx' => ?_⟩
    · rw [ece391Strcpy]
      simp only [hb, if_neg hne]
      exact he
    · cases i with
      | zero => rw [Nat.add_zero, hx dst (.inl (Nat.lt_succ_self dst)), Mem.store_byte_self, List.getElem_cons_zero]
      | succ i =>
        rw [List.getElem_cons_succ, ← hl i (Nat.lt_of_succ_lt_succ hi), Nat.succ_add]
        rfl
    · rw [List.length_cons] at hx'
      rw [hx x (by omega), Mem.store_byte_of_ne _ _ (by omega)]

end

/-! ## Lines -/

/-- What `grep` writes for one line. -/
def grepOne (s fname line : List Byte) : List Byte :=
  if s <:+: line then fname ++ str ":" ++ line ++ str "\n" else []

section

variable {s fname l r t u : List Byte}

theorem splitOn_line (h : 0x0a#8 ∉ l) : l.splitOn 0x0a#8 = [l] := by
  rw [List.splitOn_eq_splitOnP, List.splitOnP_eq_singleton]
  intro b hb
  exact beq_eq_false_iff_ne.mpr fun e => h (e ▸ hb)

theorem splitOn_cons (h : 0x0a#8 ∉ l) (r : List Byte) : (l ++ 0x0a#8 :: r).splitOn 0x0a#8 = l :: r.splitOn 0x0a#8 := by
  rw [List.splitOn_eq_splitOnP, List.splitOnP_append_cons_of_forall_mem, List.splitOn_eq_splitOnP]
  · intro b hb
    exact beq_eq_false_iff_ne.mpr fun e => h (e ▸ hb)
  · exact beq_self_eq_true _

theorem grepText_line (h : 0x0a#8 ∉ l) : grepText s fname l = grepOne s fname l := by
  rw [grepText, splitOn_line h, grepOne, List.filter_cons]
  split <;> simp_all

theorem grepText_cons (h : 0x0a#8 ∉ l) (r : List Byte) :
    grepText s fname (l ++ 0x0a#8 :: r) = grepOne s fname l ++ grepText s fname r := by
  rw [grepText, splitOn_cons h, grepOne, List.filter_cons]
  split <;> simp_all [grepText]

theorem grepOne_nil (hne : s ≠ []) : grepOne s fname [] = [] := by
  rw [grepOne, if_neg fun h => hne (List.infix_nil.mp h)]

theorem grepText_nil (hne : s ≠ []) : grepText s fname [] = [] := by
  rw [grepText_line List.not_mem_nil, grepOne_nil hne]

theorem Lines.tail (h : 0x0a#8 ∉ l) (hl : Lines (l ++ 0x0a#8 :: r)) : Lines r where
  nul hr := hl.nul (List.mem_append_right _ (List.mem_cons_of_mem _ hr))
  length line hline := hl.length line (by rw [splitOn_cons h]; exact List.mem_cons_of_mem _ hline)

theorem lines_nil : Lines [] := by
  refine ⟨List.not_mem_nil, fun line hline => ?_⟩
  rw [splitOn_line List.not_mem_nil, List.mem_singleton] at hline
  rw [hline]
  decide

/-- A line that fills the array, or is the last, ends there. -/
theorem Lines.full (hl : Lines (t ++ u)) (ht : 0x0a#8 ∉ t) (hlen : u ≠ [] → t.length = 1024) (hne : s ≠ []) :
    grepText s fname (t ++ u) = grepOne s fname t ++ grepText s fname u ∧ Lines u := by
  cases u with
  | nil =>
    rw [List.append_nil, grepText_line ht, grepText_nil hne, List.append_nil]
    exact ⟨rfl, lines_nil⟩
  | cons b u =>
    have hlen := hlen (List.cons_ne_nil b u)
    by_cases hb : b = 0x0a#8
    · subst hb
      refine ⟨?_, ?_⟩
      · have hu : grepText s fname ([] ++ 0x0a#8 :: u) = _ := grepText_cons List.not_mem_nil u
        rw [List.nil_append, grepOne_nil hne, List.nil_append] at hu
        rw [grepText_cons ht, hu]
      · have hu := splitOn_cons (l := []) List.not_mem_nil u
        rw [List.nil_append] at hu
        refine ⟨fun h => hl.nul (List.mem_append_right _ h), fun line hline => ?_⟩
        rw [hu, List.mem_cons] at hline
        rcases hline with rfl | hline
        · exact Nat.zero_le _
        · exact (hl.tail ht).length line hline
    · exfalso
      -- the line that `t` begins goes on with `b`
      have hnot : ∀ l, 0x0a#8 ∉ l → 0x0a#8 ∉ t ++ b :: l := fun l hl h => by
        rcases List.mem_append.mp h with h | h
        · exact ht h
        · rcases List.mem_cons.mp h with h | h
          · exact hb h.symm
          · exact hl h
      have hmem : ∃ line ∈ (t ++ b :: u).splitOn 0x0a#8, 1024 < line.length := by
        by_cases hu : 0x0a#8 ∈ u
        · obtain ⟨l, r, rfl, hr⟩ := List.eq_append_cons_of_mem hu
          have e : t ++ b :: (l ++ 0x0a#8 :: r) = (t ++ b :: l) ++ 0x0a#8 :: r := by simp
          rw [e, splitOn_cons (hnot l hr)]
          exact ⟨_, List.mem_cons_self, by rw [List.length_append, List.length_cons]; omega⟩
        · rw [splitOn_line (hnot u hu)]
          exact ⟨_, List.mem_singleton_self _, by rw [List.length_append, List.length_cons]; omega⟩
      obtain ⟨line, hmem, hlt⟩ := hmem
      exact absurd (hl.length line hmem) (by omega)

theorem lineEndFrom_line {f : Nat → Byte} : ∀ {l : List Byte} {a : Nat}, BytesAt f a l → 0x0a#8 ∉ l →
    lineEndFrom f l.length a = a + l.length
  | [], a, _, _ => rfl
  | b :: l, a, h, hl => by
    have hb : f a = b := h 0 (Nat.succ_pos _)
    have hne : f a ≠ 0x0a#8 := fun e => hl (by rw [← e, hb]; exact List.mem_cons_self)
    have htail : BytesAt f (a + 1) l := fun i hi => by
      rw [Nat.add_assoc, Nat.add_comm 1 i]
      exact h (i + 1) (Nat.succ_lt_succ hi)
    rw [List.length_cons, lineEndFrom, if_pos hne, lineEndFrom_line htail (fun h => hl (List.mem_cons_of_mem _ h))]
    omega

theorem lineEndFrom_cons {f : Nat → Byte} {r : List Byte} : ∀ {l : List Byte} {a : Nat}, BytesAt f a (l ++ 0x0a#8 :: r) →
    0x0a#8 ∉ l → lineEndFrom f (l ++ 0x0a#8 :: r).length a = a + l.length
  | [], a, h, _ => by
    have hb : f a = 0x0a#8 := h 0 (Nat.succ_pos _)
    rw [List.nil_append, List.length_cons, lineEndFrom, if_neg (not_not_intro hb)]
    rfl
  | b :: l, a, h, hl => by
    have hb : f a = b := h 0 (Nat.succ_pos _)
    have hne : f a ≠ 0x0a#8 := fun e => hl (by rw [← e, hb]; exact List.mem_cons_self)
    have htail : BytesAt f (a + 1) (l ++ 0x0a#8 :: r) := fun i hi => by
      rw [Nat.add_assoc, Nat.add_comm 1 i]
      exact h (i + 1) (Nat.succ_lt_succ hi)
    rw [List.cons_append, List.length_cons, lineEndFrom, if_pos hne,
      lineEndFrom_cons htail (fun h => hl (List.mem_cons_of_mem _ h)), List.length_cons]
    omega

end

/-! ## The inner loop -/

section

variable {img : Image} {p : Int} {fds : Nat → FdEntry} {out : List Byte} {w : World} {s fname : CString}

theorem wp_searchLine (h : Running p fds out w) (ho : IsStdout (fds STDOUT)) (hne : s.1 ≠ []) {f : Nat → Byte} {a : Nat}
    {l : List Byte} (hl : Mem.StringAt f a l) (h₀ : 0#8 ∉ l) (hlen : a + l.length ≤ BUFSIZE) :
    (searchLine s fname f a (a + l.length)).Wp (userHost img p)
      (fun _ w' => Running p fds (out ++ grepOne s.1 fname.1 l) w') w := by
  rw [searchLine, Nat.add_sub_cancel_left, grepOne]
  by_cases hs : s.1 <:+: l
  · have hcstr : (Mem.cstr (fun i => f (a + i)) (BUFSIZE + 1 - a)).1 = l :=
      Mem.cstr_eq (by omega) h₀ hl.byte hl.nul
    rw [if_pos ((searchFrom_iff s.2 hne l hl).mpr hs), if_pos hs, hcstr]
    refine Prog.wp_bind'.mpr ((wp_fdputs h ho _).mono fun _ w₁ h₁ => ?_)
    refine Prog.wp_bind'.mpr ((wp_fdputs h₁ ho _).mono fun _ w₂ h₂ => ?_)
    refine Prog.wp_bind'.mpr ((wp_fdputs h₂ ho _).mono fun _ w₃ h₃ => ?_)
    refine (wp_fdputs h₃ ho _).mono fun _ w₄ h₄ => ?_
    simpa only [List.append_assoc] using h₄
  · rw [if_neg (mt (searchFrom_iff s.2 hne l hl).mp hs), if_neg hs, List.append_nil]
    exact h

/-- What a round of the inner loop finds: from `line_start` on the bytes of `l`, which the unread text goes on. -/
structure InLine (s fname : CString) (p : Int) (fds : Nat → FdEntry) (unread total : List Byte) (last : Nat)
    (v : Mem × Nat) (w : World) (l out : List Byte) : Prop where
  bytes : BytesAt v.1.byte v.2 l
  last : v.2 + l.length = last
  ne : l ≠ [] ∨ v.2 = 0
  holding : Running p fds out w
  sentinel : v.1.byte BUFSIZE ≠ 0x0a#8
  lines : Lines (l ++ unread)
  total : out ++ grepText s.1 fname.1 (l ++ unread) = total

/-- Where it ends: at the front of the array is `l`, the start of a line that the unread text goes on. -/
structure Carried (s fname : CString) (p : Int) (fds : Nat → FdEntry) (unread total : List Byte) (v : Mem × Nat)
    (w : World) (l out : List Byte) : Prop where
  bytes : BytesAt v.1.byte 0 l
  last : v.2 = l.length
  lt : l.length < BUFSIZE
  holding : Running p fds out w
  sentinel : v.1.byte BUFSIZE ≠ 0x0a#8
  lines : Lines (l ++ unread)
  total : out ++ grepText s.1 fname.1 (l ++ unread) = total

theorem store_sentinel {data : Mem} (h : data.byte BUFSIZE ≠ 0x0a#8) (a : Nat) :
    (data.store a 0#8).byte BUFSIZE ≠ 0x0a#8 := by
  rw [Mem.store_byte]
  split
  · decide
  · exact h

theorem stringAt_store {data : Mem} {a : Nat} {l r : List Byte} (h : BytesAt data.byte a (l ++ r)) :
    Mem.StringAt (data.store (a + l.length) 0#8).byte a l := by
  refine ⟨fun i hi => ?_, Mem.store_byte_self _ _ _⟩
  rw [Mem.store_byte_of_ne _ _ (by omega), h i (by rw [List.length_append]; omega), List.getElem_append_left hi]

/-- What follows the end of a line stays. -/
theorem bytesAt_store {data : Mem} {a : Nat} {l r : List Byte} {c : Byte} (h : BytesAt data.byte a (l ++ c :: r)) :
    BytesAt (data.store (a + l.length) 0#8).byte (a + l.length + 1) r := by
  intro i hi
  have hbyte := h (l.length + 1 + i) (by rw [List.length_append, List.length_cons]; omega)
  rw [show a + (l.length + 1 + i) = a + l.length + 1 + i by omega] at hbyte
  rw [Mem.store_byte_of_ne _ _ (by omega), hbyte, List.getElem_append_right (by omega)]
  simp only [show l.length + 1 + i - l.length = i + 1 by omega, List.getElem_cons_succ]

variable {unread total : List Byte} {last : Nat} {cnt : Int} {v : Mem × Nat} {l : List Byte}

/-- A round of the inner loop: a line goes from what is to be searched to what is written, or the rest
of the text is moved to the front. -/
theorem wp_grepLine (ho : IsStdout (fds STDOUT)) (hne : s.1 ≠ []) (hlast : last ≤ BUFSIZE)
    (hfull : unread ≠ [] → last = BUFSIZE) (hcnt : cnt = 0 → unread = [])
    (h : InLine s fname p fds unread total last v w l out) :
    (grepLine s fname cnt last v).Wp (userHost img p) (fun r w' => r.elim
      (fun v' => ∃ l' out', l'.length < l.length ∧ InLine s fname p fds unread total last v' w' l' out')
      (fun o => ∃ v' l' out', o = some v' ∧ Carried s fname p fds unread total v' w' l' out' ∧
        (cnt = 0 → l' = []))) w := by
  obtain ⟨hb, hl, hnl, hh, hs, hlines, htotal⟩ := h
  have hlen : last - v.2 = l.length := by omega
  have hnul : 0#8 ∉ l := fun h => hlines.nul (List.mem_append_left _ h)
  simp only [grepLine, hlen]
  by_cases hmem : 0x0a#8 ∈ l
  · -- the line ends in the array
    obtain ⟨t, r, rfl, ht⟩ := List.eq_append_cons_of_mem hmem
    have hlt : v.2 + t.length < last := by
      rw [← hl, List.length_append, List.length_cons]
      omega
    have hend : v.1.byte (v.2 + t.length) = 0x0a#8 := by
      rw [hb t.length (by simp), List.getElem_append_right (Nat.le_refl _)]
      simp
    have hat : lineEndFrom v.1.byte (t ++ 0x0a#8 :: r).length v.2 = v.2 + t.length := lineEndFrom_cons hb ht
    have happ : (t ++ 0x0a#8 :: r) ++ unread = t ++ 0x0a#8 :: (r ++ unread) := by simp
    rw [happ] at hlines htotal
    rw [grepText_cons ht, ← List.append_assoc] at htotal
    rw [hat, if_neg fun h => h.1 hend]
    refine Prog.wp_bind'.mpr ((wp_searchLine hh ho hne (stringAt_store hb)
      (fun h => hnul (List.mem_append_left _ h)) (by omega)).mono fun _ w₁ h₁ => ?_)
    by_cases hr : v.2 + t.length + 1 ≥ last
    · rw [if_pos hr]
      have hnil : r = [] := by
        rw [← hl, List.length_append, List.length_cons] at hr
        exact List.length_eq_zero_iff.mp (by omega)
      subst hnil
      exact ⟨_, [], _, rfl, ⟨fun i hi => absurd hi (Nat.not_lt_zero i), rfl, by decide, h₁, store_sentinel hs _,
        hlines.tail ht, htotal⟩, fun _ => rfl⟩
    · rw [if_neg hr]
      refine ⟨r, _, ?_, ⟨bytesAt_store hb, ?_, .inl ?_, h₁, store_sentinel hs _, hlines.tail ht, htotal⟩⟩
      · rw [List.length_append, List.length_cons]
        omega
      · rw [← hl, List.length_append, List.length_cons]
        show v.2 + t.length + 1 + r.length = _
        omega
      · rintro rfl
        rw [← hl, List.length_append, List.length_cons, List.length_nil] at hr
        omega
  · -- the array ends in the line
    have hat : lineEndFrom v.1.byte l.length v.2 = v.2 + l.length := lineEndFrom_line hb hmem
    have hstring : Mem.StringAt (v.1.store (v.2 + l.length) 0#8).byte v.2 l := by
      have hb' : BytesAt v.1.byte v.2 (l ++ []) := by rwa [List.append_nil]
      exact stringAt_store hb'
    rw [hat]
    by_cases hmove : v.1.byte (v.2 + l.length) ≠ 0x0a#8 ∧ cnt ≠ 0 ∧ v.2 ≠ 0
    · rw [if_pos hmove]
      obtain ⟨m', hm', hb', hx⟩ := ece391Strcpy_eq l 0 v.2 hstring hnul (by omega)
        (show l.length < BUFSIZE + 1 - v.2 by omega)
      rw [hm']
      refine ⟨(m', l.length), l, out, rfl, ⟨hb', rfl, by omega, hh, ?_, hlines, htotal⟩, fun h => absurd h hmove.2.1⟩
      rw [hx BUFSIZE (.inr (by omega))]
      exact store_sentinel hs _
    · rw [if_neg hmove]
      refine Prog.wp_bind'.mpr ((wp_searchLine hh ho hne hstring hnul (by omega)).mono fun _ w₁ h₁ => ?_)
      rw [if_pos (show v.2 + l.length + 1 ≥ last by omega)]
      -- nothing of the line is unread
      have hline : unread ≠ [] → l.length = 1024 := fun hu => by
        have hzero : v.2 = 0 := by
          by_contra h₂
          exact hmove ⟨by rw [hl, hfull hu]; exact hs, fun h => hu (hcnt h), h₂⟩
        have hlast' := hfull hu
        rw [← hl, hzero, Nat.zero_add] at hlast'
        exact hlast'
      have hrest : grepText s.1 fname.1 (l ++ unread) = grepOne s.1 fname.1 l ++ grepText s.1 fname.1 unread ∧
          Lines unread := hlines.full hmem hline hne
      rw [hrest.1, ← List.append_assoc] at htotal
      exact ⟨_, [], _, rfl, ⟨fun i hi => absurd hi (Nat.not_lt_zero i), rfl, by decide, h₁, store_sentinel hs _,
        hrest.2, htotal⟩, fun _ => rfl⟩

/-- The inner loop comes to its end. -/
theorem wp_grepLines (ho : IsStdout (fds STDOUT)) (hne : s.1 ≠ []) (hlast : last ≤ BUFSIZE)
    (hfull : unread ≠ [] → last = BUFSIZE) (hcnt : cnt = 0 → unread = [])
    (h : InLine s fname p fds unread total last v w l out) {n : Nat} (hn : BUFSIZE < n) :
    (Prog.loop (grepLine s fname cnt last) n v).Wp (userHost img p) (fun r w' => ∃ v' l' out', r = some (some v') ∧
      Carried s fname p fds unread total v' w' l' out' ∧ (cnt = 0 → l' = [])) w := by
  let I : Nat → Mem × Nat → World → Prop := fun k v w =>
    ∃ l out, k = l.length ∧ InLine s fname p fds unread total last v w l out
  have hstep : ∀ k v w, I k v w → (grepLine s fname cnt last v).Wp (userHost img p) (fun r w' => r.elim
      (fun v' => ∃ k' < k, I k' v' w') (fun o => ∃ v' l' out', o = some v' ∧
        Carried s fname p fds unread total v' w' l' out' ∧ (cnt = 0 → l' = []))) w := by
    rintro k v w ⟨l, out, rfl, hI⟩
    refine (wp_grepLine ho hne hlast hfull hcnt hI).mono fun r w' hr => ?_
    cases r with
    | inl v' =>
      obtain ⟨l', out', hlt, hI'⟩ := hr
      exact ⟨_, hlt, l', out', rfl, hI'⟩
    | inr o => exact hr
  have hI : I l.length v w := ⟨l, out, rfl, h⟩
  refine (Prog.wp_loop hstep hI (by have := h.last; omega)).mono fun r w' hr => ?_
  obtain ⟨o, rfl, v', l', out', rfl, hc, hz⟩ := hr
  exact ⟨v', l', out', rfl, hc, hz⟩

/-! ## The outer loop -/

/-- A descriptor that gives the text `c`, from its positions on. -/
def GivesText (img : Image) (p : Int) (fd : Nat) (entry : Nat → FdEntry) (c : List Byte) : Prop :=
  ∀ n ≤ BUFSIZE, ∀ pos fds out w buf, pos ≤ c.length → Running p (Function.update fds fd (entry pos)) out w →
    (ece391Read fd buf n).Wp (userHost img p) (fun r w' =>
      r = ((((c.drop pos).take n).length : Int), (Mem.fresh buf).storeList 0 ((c.drop pos).take n)) ∧
        Running p (Function.update fds fd (entry (pos + ((c.drop pos).take n).length))) out w') w

/-- What is read is stored after the bytes that are there. -/
theorem BytesAt.storeList {data : Mem} {l : List Byte} (h : BytesAt data.byte 0 l) {n : Nat} (hn : n = l.length)
    (chunk : List Byte) : BytesAt (data.storeList n chunk).byte 0 (l ++ chunk) := by
  intro i hi
  rw [List.length_append] at hi
  rw [Nat.zero_add, List.getElem_append]
  split
  · rename_i hil
    have hbyte := h i hil
    rw [Nat.zero_add] at hbyte
    rw [Mem.storeList_byte_lt _ _ (by omega), hbyte]
  · rename_i hil
    have hbyte := Mem.storeList_byte chunk data n (j := i - l.length) (by omega)
    rwa [show n + (i - l.length) = i by omega] at hbyte

/-- A round of the outer loop reads on, or is the last one. -/
theorem wp_grepRound {fd : Nat} {entry : Nat → FdEntry} {c : List Byte} {pos n : Nat} (hgives : GivesText img p fd entry c)
    (h₂ : 2 ≤ fd) (ho : IsStdout (fds STDOUT)) (hne : s.1 ≠ []) (hn : BUFSIZE < n) (hpos : pos ≤ c.length)
    (h : Carried s fname p (Function.update fds fd (entry pos)) (c.drop pos) total v w l out) :
    (grepRound n s fname fd v).Wp (userHost img p) (fun r w' => r.elim
      (fun v' => ∃ pos' l' out', c.length - pos' < c.length - pos ∧ pos' ≤ c.length ∧
        Carried s fname p (Function.update fds fd (entry pos')) (c.drop pos') total v' w' l' out')
      (fun o => o = some 0 ∧ ∃ pos', Running p (Function.update fds fd (entry pos')) total w')) w := by
  obtain ⟨hb, hlast, hlt, hh, hs, hlines, htotal⟩ := h
  refine Prog.wp_bind'.mpr ((hgives (BUFSIZE - v.2) (Nat.sub_le _ _) pos fds out w _ hpos hh).mono fun r w₁ hr => ?_)
  obtain ⟨rfl, h₁⟩ := hr
  have hlen : ((c.drop pos).take (BUFSIZE - v.2)).length = min (BUFSIZE - v.2) (c.length - pos) := by
    rw [List.length_take, List.length_drop]
  have hsplit : (c.drop pos).take (BUFSIZE - v.2) ++ c.drop (pos + ((c.drop pos).take (BUFSIZE - v.2)).length) =
      c.drop pos := by
    rw [← List.drop_drop]
    conv_rhs => rw [← List.take_append_drop ((c.drop pos).take (BUFSIZE - v.2)).length (c.drop pos)]
    congr 1
    rw [hlen, List.take_eq_take_iff, List.length_drop]
    omega
  generalize (c.drop pos).take (BUFSIZE - v.2) = chunk at *
  have hunread : c.drop (pos + chunk.length) ≠ [] → pos + chunk.length < c.length := fun h => by
    rwa [ne_eq, List.drop_eq_nil_iff, Nat.not_le] at h
  have hpaste : v.1.paste v.2 ((Mem.fresh fun i => v.1.byte (v.2 + i)).storeList 0 chunk) = v.1.storeList v.2 chunk :=
    Mem.paste_storeList _ _ _ _
  have hbytes : BytesAt (v.1.storeList v.2 chunk).byte 0 (l ++ chunk) := hb.storeList hlast chunk
  have hin : InLine s fname p (Function.update fds fd (entry (pos + chunk.length))) (c.drop (pos + chunk.length)) total
      (v.2 + chunk.length) (v.1.storeList v.2 chunk, 0) w₁ (l ++ chunk) out := by
    refine ⟨hbytes, ?_, .inr rfl, h₁, ?_, ?_, ?_⟩
    · rw [List.length_append]
      show 0 + (l.length + chunk.length) = _
      omega
    · rw [Mem.storeList_byte_of_not _ _ _ (by omega)]
      exact hs
    · rwa [List.append_assoc, hsplit]
    · rwa [List.append_assoc, hsplit]
  simp only [hpaste, Int.toNat_natCast]
  rw [if_neg (by omega)]
  refine Prog.wp_bind'.mpr ((wp_grepLines (ho.update h₂ _) hne (by omega) (fun h => ?_) (fun h => ?_) hin hn).mono
    fun r w₂ hr => ?_)
  · have := hunread h
    omega
  · by_contra hu
    have := hunread hu
    omega
  · obtain ⟨v', l', out', rfl, hc, hz⟩ := hr
    by_cases hcnt : (chunk.length : Int) = 0
    · simp only [if_pos hcnt]
      refine ⟨rfl, pos + chunk.length, ?_⟩
      have hnil : c.drop (pos + chunk.length) = [] := by
        by_contra hu
        have := hunread hu
        omega
      have ht := hc.total
      rw [hz hcnt, hnil, List.append_nil, grepText_nil hne, List.append_nil] at ht
      rw [← ht]
      exact hc.holding
    · simp only [if_neg hcnt]
      exact ⟨pos + chunk.length, l', out', by omega, by omega, hc⟩

/-- The outer loop writes the lines of the text. -/
theorem wp_grepRounds {fd : Nat} {entry : Nat → FdEntry} {c : List Byte} {n : Nat} (hgives : GivesText img p fd entry c)
    (h₂ : 2 ≤ fd) (ho : IsStdout (fds STDOUT)) (hne : s.1 ≠ []) (hn : BUFSIZE < n) (hlen : c.length < n)
    (hlines : Lines c) {data : Nat → Byte} (hdata : data BUFSIZE ≠ 0x0a#8)
    (h : Running p (Function.update fds fd (entry 0)) out w) :
    (Prog.loop (grepRound n s fname fd) n (.fresh data, 0)).Wp (userHost img p) (fun r w' => r = some (some 0) ∧
      ∃ pos, Running p (Function.update fds fd (entry pos)) (out ++ grepText s.1 fname.1 c) w') w := by
  let I : Nat → Mem × Nat → World → Prop := fun k v w' => ∃ pos l out', k = c.length - pos ∧ pos ≤ c.length ∧
    Carried s fname p (Function.update fds fd (entry pos)) (c.drop pos) (out ++ grepText s.1 fname.1 c) v w' l out'
  have hstep : ∀ k v w', I k v w' → (grepRound n s fname fd v).Wp (userHost img p) (fun r w'' => r.elim
      (fun v' => ∃ k' < k, I k' v' w'') (fun o => o = some 0 ∧ ∃ pos,
        Running p (Function.update fds fd (entry pos)) (out ++ grepText s.1 fname.1 c) w'')) w' := by
    rintro k v w' ⟨pos, l, out', rfl, hpos, hc⟩
    refine (wp_grepRound hgives h₂ ho hne hn hpos hc).mono fun r w'' hr => ?_
    cases r with
    | inl v' =>
      obtain ⟨pos', l', out'', hlt, hpos', hc'⟩ := hr
      exact ⟨_, hlt, pos', l', out'', rfl, hpos', hc'⟩
    | inr o => exact hr
  have hI : I c.length (.fresh data, 0) w := ⟨0, [], out, rfl, Nat.zero_le _,
    ⟨fun i hi => absurd hi (Nat.not_lt_zero i), rfl, by decide, h, hdata, hlines, rfl⟩⟩
  refine (Prog.wp_loop hstep hI hlen).mono fun r w' hr => ?_
  obtain ⟨o, rfl, rfl, hh⟩ := hr
  exact ⟨rfl, hh⟩

/-! ## Files that are not text -/

theorem lineEndFrom_bounds (f : Nat → Byte) : ∀ n a, a ≤ lineEndFrom f n a ∧ lineEndFrom f n a ≤ a + n
  | 0, a => ⟨Nat.le_refl a, Nat.le_refl a⟩
  | n + 1, a => by
    rw [lineEndFrom]
    split
    · have ih := lineEndFrom_bounds f n (a + 1)
      omega
    · omega

/-- A copy that has a NUL before it comes to its end. -/
theorem ece391Strcpy_isSome : ∀ (j dst src : Nat) {n : Nat} {m : Mem}, m.byte (src + j) = 0#8 → dst < src → j < n →
    ∃ m', ece391Strcpy dst src n m = some m'
  | j, dst, src, n + 1, m, h, hlt, hn => by
    rw [ece391Strcpy]
    by_cases hb : m.byte src = 0#8
    · exact ⟨_, if_pos hb⟩
    · simp only [if_neg hb]
      cases j with
      | zero => exact absurd h hb
      | succ j =>
        refine ece391Strcpy_isSome j (dst + 1) (src + 1) ?_ (Nat.succ_lt_succ hlt) (Nat.lt_of_succ_lt_succ hn)
        rw [Mem.store_byte_of_ne _ _ (by omega), ← h]
        congr 1
        omega

theorem wp_searchLine_any (h : Running p fds out w) (ho : IsStdout (fds STDOUT)) (f : Nat → Byte) (a e : Nat) :
    (searchLine s fname f a e).Wp (userHost img p) (fun _ w' => ∃ more, Running p fds (out ++ more) w') w := by
  rw [searchLine]
  split
  · refine Prog.wp_bind'.mpr ((wp_fdputs h ho _).mono fun _ w₁ h₁ => ?_)
    refine Prog.wp_bind'.mpr ((wp_fdputs h₁ ho _).mono fun _ w₂ h₂ => ?_)
    refine Prog.wp_bind'.mpr ((wp_fdputs h₂ ho _).mono fun _ w₃ h₃ => ?_)
    refine (wp_fdputs h₃ ho _).mono fun _ w₄ h₄ => ?_
    simp only [List.append_assoc] at h₄
    exact ⟨_, h₄⟩
  · exact ⟨[], by rwa [List.append_nil]⟩

/-- Whatever is in the array, a round goes on after a line, or ends with room left in the array. -/
theorem wp_grepLine_any (ho : IsStdout (fds STDOUT)) (hlast : last ≤ BUFSIZE) (hv : v.2 ≤ last)
    (h : Running p fds out w) : (grepLine s fname cnt last v).Wp (userHost img p) (fun r w' =>
      (∃ more, Running p fds (out ++ more) w') ∧ r.elim (fun v' => last - v'.2 < last - v.2 ∧ v'.2 ≤ last)
        (fun o => ∃ v', o = some v' ∧ v'.2 < BUFSIZE)) w := by
  have hend := lineEndFrom_bounds v.1.byte (last - v.2) v.2
  simp only [grepLine]
  generalize lineEndFrom v.1.byte (last - v.2) v.2 = e at *
  split
  · rename_i hmove
    have hnul : (v.1.store e 0#8).byte (v.2 + (e - v.2)) = 0#8 := by
      rw [show v.2 + (e - v.2) = e by omega, Mem.store_byte_self]
    obtain ⟨m', hm⟩ := ece391Strcpy_isSome (e - v.2) 0 v.2 hnul (by omega) (show e - v.2 < BUFSIZE + 1 - v.2 by omega)
    rw [hm]
    exact ⟨⟨[], by rwa [List.append_nil]⟩, _, rfl, by show last - v.2 < BUFSIZE; omega⟩
  · refine Prog.wp_bind'.mpr ((wp_searchLine_any h ho _ _ _).mono fun _ w₁ h₁ => ?_)
    split
    · exact ⟨h₁, _, rfl, Nat.zero_lt_succ _⟩
    · refine ⟨h₁, ?_, ?_⟩
      · show last - (e + 1) < last - v.2
        omega
      · show e + 1 ≤ last
        omega

theorem wp_grepLines_any {n : Nat} (ho : IsStdout (fds STDOUT)) (hlast : last ≤ BUFSIZE) (hv : v.2 ≤ last)
    (hn : BUFSIZE < n) (h : Running p fds out w) : (Prog.loop (grepLine s fname cnt last) n v).Wp (userHost img p)
      (fun r w' => ∃ v' more, r = some (some v') ∧ v'.2 < BUFSIZE ∧ Running p fds (out ++ more) w') w := by
  let I : Nat → Mem × Nat → World → Prop := fun k v w' =>
    k = last - v.2 ∧ v.2 ≤ last ∧ ∃ more, Running p fds (out ++ more) w'
  have hstep : ∀ k v w', I k v w' → (grepLine s fname cnt last v).Wp (userHost img p) (fun r w'' => r.elim
      (fun v' => ∃ k' < k, I k' v' w'')
      (fun o => ∃ v' more, o = some v' ∧ v'.2 < BUFSIZE ∧ Running p fds (out ++ more) w'')) w' := by
    rintro k v w' ⟨rfl, hv, more, hh⟩
    refine (wp_grepLine_any ho hlast hv hh).mono fun r w'' hr => ?_
    obtain ⟨⟨more', hm⟩, hr⟩ := hr
    rw [List.append_assoc] at hm
    cases r with
    | inl v' => exact ⟨_, hr.1, rfl, hr.2, _, hm⟩
    | inr o =>
      obtain ⟨v', rfl, hlt⟩ := hr
      exact ⟨v', _, rfl, hlt, hm⟩
  have hI : I (last - v.2) v w := ⟨rfl, hv, [], by rwa [List.append_nil]⟩
  refine (Prog.wp_loop hstep hI (by omega)).mono fun r w' hr => ?_
  obtain ⟨o, rfl, v', more, rfl, hlt, hm⟩ := hr
  exact ⟨v', more, rfl, hlt, hm⟩

theorem wp_grepRound_any {fd : Nat} {entry : Nat → FdEntry} {c : List Byte} {pos n : Nat}
    (hgives : GivesText img p fd entry c) (h₂ : 2 ≤ fd) (ho : IsStdout (fds STDOUT)) (hn : BUFSIZE < n)
    (hpos : pos ≤ c.length) (hv : v.2 < BUFSIZE) (h : Running p (Function.update fds fd (entry pos)) out w) :
    (grepRound n s fname fd v).Wp (userHost img p) (fun r w' => ∃ pos' more,
      Running p (Function.update fds fd (entry pos')) (out ++ more) w' ∧ r.elim
        (fun v' => c.length - pos' < c.length - pos ∧ pos' ≤ c.length ∧ v'.2 < BUFSIZE) (· = some 0)) w := by
  refine Prog.wp_bind'.mpr ((hgives (BUFSIZE - v.2) (Nat.sub_le _ _) pos fds out w _ hpos h).mono fun r w₁ hr => ?_)
  obtain ⟨rfl, h₁⟩ := hr
  have hlen : ((c.drop pos).take (BUFSIZE - v.2)).length = min (BUFSIZE - v.2) (c.length - pos) := by
    rw [List.length_take, List.length_drop]
  generalize (c.drop pos).take (BUFSIZE - v.2) = chunk at *
  simp only [Int.toNat_natCast]
  rw [if_neg (by omega)]
  refine Prog.wp_bind'.mpr ((wp_grepLines_any (ho.update h₂ _) (by omega) (Nat.zero_le _) hn h₁).mono fun r w₂ hr => ?_)
  obtain ⟨v', more, rfl, hlt, hm⟩ := hr
  by_cases hcnt : (chunk.length : Int) = 0
  · simp only [if_pos hcnt]
    exact ⟨_, more, hm, rfl⟩
  · simp only [if_neg hcnt]
    exact ⟨_, more, hm, by omega, by omega, hlt⟩

theorem wp_grepRounds_any {fd : Nat} {entry : Nat → FdEntry} {c : List Byte} {n : Nat}
    (hgives : GivesText img p fd entry c) (h₂ : 2 ≤ fd) (ho : IsStdout (fds STDOUT)) (hn : BUFSIZE < n)
    (hlen : c.length < n) (data : Mem) (h : Running p (Function.update fds fd (entry 0)) out w) :
    (Prog.loop (grepRound n s fname fd) n (data, 0)).Wp (userHost img p) (fun r w' => r = some (some 0) ∧
      ∃ pos more, Running p (Function.update fds fd (entry pos)) (out ++ more) w') w := by
  let I : Nat → Mem × Nat → World → Prop := fun k v w' => ∃ pos more, k = c.length - pos ∧ pos ≤ c.length ∧
    v.2 < BUFSIZE ∧ Running p (Function.update fds fd (entry pos)) (out ++ more) w'
  have hstep : ∀ k v w', I k v w' → (grepRound n s fname fd v).Wp (userHost img p) (fun r w'' => r.elim
      (fun v' => ∃ k' < k, I k' v' w'') (fun o => o = some 0 ∧ ∃ pos more,
        Running p (Function.update fds fd (entry pos)) (out ++ more) w'')) w' := by
    rintro k v w' ⟨pos, more, rfl, hpos, hv, hh⟩
    refine (wp_grepRound_any hgives h₂ ho hn hpos hv hh).mono fun r w'' hr => ?_
    obtain ⟨pos', more', hm, hr⟩ := hr
    rw [List.append_assoc] at hm
    cases r with
    | inl v' => exact ⟨_, hr.1, pos', _, rfl, hr.2.1, hr.2.2, hm⟩
    | inr o => exact ⟨hr, pos', _, hm⟩
  have hI : I c.length (data, 0) w := ⟨0, [], rfl, Nat.zero_le _, Nat.zero_lt_succ _, by rwa [List.append_nil]⟩
  refine (Prog.wp_loop hstep hI hlen).mono fun r w' hr => ?_
  obtain ⟨o, rfl, rfl, hh⟩ := hr
  exact ⟨rfl, hh⟩

/-! ## One file -/

/-- An entry of the directory, opened, gives the text `c`. -/
structure Opens (img : Image) (p : Int) (name : CString) (fd : Nat) (entry : Nat → FdEntry) (c : List Byte) : Prop where
  stdin : ¬ str "stdin" <+: name.1
  stdout : ¬ str "stdout" <+: name.1
  found : ∃ d table, readDentryByName img name = some d ∧ typeTable d.fileType = some table ∧
    entry 0 = ⟨table, d.inodeNumber, 0, .IN_USE⟩
  flags : ∀ pos, (entry pos).flags = .IN_USE
  close : ∀ pos, ∃ f, (entry pos).operationsPointer.CLOSE = some f
  gives : GivesText img p fd entry c

/-- `do_one_file` writes what it should for a text, and for other files something. -/
theorem wp_doOneFile {fd : Nat} {entry : Nat → FdEntry} {c : List Byte} {n : Nat} (hopens : Opens img p fname fd entry c)
    (h₂ : 2 ≤ fd) (h₈ : fd < MAX_FD_NUM) (ho : IsStdout (fds STDOUT)) (hv : vacantOf fds = some fd)
    (hfree : fds fd = freeEntry) (hne : s.1 ≠ []) (hn : BUFSIZE < n) (hlen : c.length < n)
    {data : Nat → Byte} (hdata : data BUFSIZE ≠ 0x0a#8) (h : Running p fds out w) :
    (doOneFile n s fname data).Wp (userHost img p) (fun r w' => r = some 0 ∧
      ∃ text, (Lines c → text = grepText s.1 fname.1 c) ∧ Running p fds (out ++ text) w') w := by
  obtain ⟨d, table, hd, ht, he⟩ := hopens.found
  refine Prog.wp_bind'.mpr ((wp_open h hopens.stdin hopens.stdout hd hv ht).mono fun v w₁ hr => ?_)
  obtain ⟨rfl, h₁⟩ := hr
  rw [← he] at h₁
  rw [if_neg (by omega)]
  have hrounds : (Prog.loop (grepRound n s fname fd) n (.fresh data, 0)).Wp (userHost img p) (fun r w' => r = some (some 0) ∧
      ∃ pos text, (Lines c → text = grepText s.1 fname.1 c) ∧
        Running p (Function.update fds fd (entry pos)) (out ++ text) w') w₁ := by
    by_cases hlines : Lines c
    · refine (wp_grepRounds hopens.gives h₂ ho hne hn hlen hlines hdata h₁).mono fun r w₂ hr => ?_
      exact ⟨hr.1, hr.2.choose, _, fun _ => rfl, hr.2.choose_spec⟩
    · refine (wp_grepRounds_any hopens.gives h₂ ho hn hlen (.fresh data) h₁).mono fun r w₂ hr => ?_
      obtain ⟨hr, pos, more, hh⟩ := hr
      exact ⟨hr, pos, more, fun h => absurd h hlines, hh⟩
  refine Prog.wp_bind'.mpr (hrounds.mono fun r w₂ hr => ?_)
  obtain ⟨rfl, pos, text, htext, hh⟩ := hr
  obtain ⟨f, hf⟩ := hopens.close pos
  refine Prog.wp_bind'.mpr ((wp_close hh h₂ h₈ (by rw [Function.update_self, hopens.flags]) (f := f)
    (by rw [Function.update_self, hf])).mono fun v w₃ hr => ?_)
  obtain ⟨rfl, h₃⟩ := hr
  rw [Function.update_idem, ← hfree, Function.update_eq_self] at h₃
  rw [if_neg (by decide)]
  exact ⟨rfl, text, htext, h₃⟩

theorem givesText_file {blocks fd : Nat} {ino : Int} (hf : img.HasFile blocks (toU32 ino)) (h₂ : 2 ≤ fd)
    (h₈ : fd < MAX_FD_NUM) : GivesText img p fd (fileEntry ino) (img.content (toU32 ino)) := by
  intro n hn pos fds out w buf hpos h
  exact fileSource_gives hf h₂ h₈ (by simp only [BUFSIZE] at hn; omega) pos fds out w buf hpos h

theorem givesText_clock {fd : Nat} {ino : Int} (h₂ : 2 ≤ fd) (h₈ : fd < MAX_FD_NUM) :
    GivesText img p fd (fun _ => ⟨rtcTable, ino, 0, .IN_USE⟩) [] := by
  intro n _ pos fds out w buf _ h
  rw [List.drop_nil, List.take_nil]
  exact clockSource_gives h₂ h₈ 0 fds out w buf trivial h

theorem CString.of_eq {l : List Byte} (h : 0#8 ∉ l) : (CString.of l).1 = l := by
  show l.takeWhile (· ≠ 0#8) = l
  rw [List.takeWhile_eq_self_iff]
  intro b hb
  exact decide_eq_true fun e => h (e ▸ hb)

/-- A name that `grep` can open, opened. -/
theorem Greppable.opens {blocks fd : Nat} {name : List Byte} (hw : img.WellFormed blocks) (h : Greppable img name)
    (h₀ : 0#8 ∉ name) (h₂ : 2 ≤ fd) (h₈ : fd < MAX_FD_NUM) (hne : s.1 ≠ []) : ∃ entry c,
      Opens img p (.of name) fd entry c ∧
      (IsText img name → Lines c ∧ grepText s.1 name c = grepFileOutput img s.1 name) ∧
      ∀ d, readDentryByName img (.of name) = some d → c.length ≤ (img.content (toU32 d.inodeNumber)).length := by
  obtain ⟨d, hd, ht⟩ := h.found
  have hname := CString.of_eq h₀
  have hin : ¬ str "stdin" <+: (CString.of name).1 := by
    rw [hname]
    exact h.stdin
  have hout : ¬ str "stdout" <+: (CString.of name).1 := by
    rw [hname]
    exact h.stdout
  rcases ht with ht | ht
  · refine ⟨fun _ => ⟨rtcTable, d.inodeNumber, 0, .IN_USE⟩, [], ⟨hin, hout, ⟨d, rtcTable, hd, ?_, rfl⟩, fun _ => rfl,
      fun _ => ⟨_, rfl⟩, givesText_clock h₂ h₈⟩, fun _ => ⟨lines_nil, ?_⟩, fun _ _ => Nat.zero_le _⟩
    · rw [ht]
      rfl
    · rw [grepText_nil hne, grepFileOutput, hd]
      simp only [ht]
      rfl
  · obtain ⟨j, hj, hino⟩ := readDentryByName_isFile hd ht
    have hf : img.HasFile blocks (toU32 d.inodeNumber) := hino ▸ hw.hasFile hj
    refine ⟨fileEntry d.inodeNumber, _, ⟨hin, hout, ⟨d, fileTable, hd, ?_, rfl⟩, fun _ => rfl, fun _ => ⟨_, rfl⟩,
      givesText_file hf h₂ h₈⟩, fun htext => ⟨htext d hd ht, ?_⟩, fun d' hd' => ?_⟩
    · rw [ht]
      rfl
    · rw [grepFileOutput, hd]
      simp only [ht, if_true]
    · rw [Option.some.inj (hd.symm.trans hd')]

/-! ## All files -/

theorem dirReport_nul (k : Nat) : 0#8 ∉ dirReport img k := by
  unfold dirReport
  split
  · intro h
    simpa using List.mem_takeWhile_imp h
  · exact List.not_mem_nil

theorem dirReport_length_le (k : Nat) : (dirReport img k).length ≤ 32 := by
  unfold dirReport
  split
  · refine (List.IsPrefix.length_le (List.takeWhile_prefix _)).trans ?_
    simp [dentryAt]
  · exact Nat.zero_le _

/-- What `grep` needs of the names of the files, of the number of rounds that its loops may take, and of what its
array holds at the start. -/
structure GrepReady (img : Image) (n : Nat) (data : Nat → Nat → Byte) : Prop where
  names : ∀ name ∈ img.grepNames, Greppable img name
  array : BUFSIZE < n
  directory : img.dirNames.length < n
  files : ∀ name ∈ img.grepNames, ∀ d, readDentryByName img (.of name) = some d →
    (img.content (toU32 d.inodeNumber)).length < n
  sentinel : ∀ k, data k BUFSIZE ≠ 0x0a#8

/-- The third descriptor is the lowest free one while the second is in use. -/
def ThirdFree (fds : Nat → FdEntry) : Prop :=
  fds 3 = freeEntry ∧ ∀ e : FdEntry, e.flags = .IN_USE → vacantOf (Function.update fds 2 e) = some 3

/-- What has been written after `k` entries of the directory. -/
def GrepDone (img : Image) (s : List Byte) (k : Nat) (out : List Byte) : Prop :=
  ∃ texts, List.Forall₂ (fun name text => IsText img name → text = grepFileOutput img s name)
    ((img.dirNames.take k).filter (·.head? ≠ some 0x2e#8)) texts ∧ out = texts.flatten

theorem take_succ_names {k : Nat} (hk : k < img.dirNames.length) :
    img.dirNames.take (k + 1) = img.dirNames.take k ++ [dirReport img k] := by
  have hd := (dirNames_drop hk).2
  rw [List.drop_eq_getElem_cons hk] at hd
  rw [List.take_succ_eq_append_getElem hk, (List.cons.inj hd).1]

theorem GrepDone.skip {k : Nat} (hk : k < img.dirNames.length) (hd : (dirReport img k).head? = some 0x2e#8)
    (h : GrepDone img s.1 k out) : GrepDone img s.1 (k + 1) out := by
  obtain ⟨texts, ht, rfl⟩ := h
  refine ⟨texts, ?_, rfl⟩
  rwa [take_succ_names hk, List.filter_append, List.filter_cons_of_neg (by simp [hd]), List.filter_nil, List.append_nil]

theorem GrepDone.file {k : Nat} (hk : k < img.dirNames.length) (hd : (dirReport img k).head? ≠ some 0x2e#8)
    (text : List Byte) (h : GrepDone img s.1 k out)
    (ht : IsText img (dirReport img k) → text = grepFileOutput img s.1 (dirReport img k)) :
    GrepDone img s.1 (k + 1) (out ++ text) := by
  obtain ⟨texts, hts, rfl⟩ := h
  refine ⟨texts ++ [text], ?_, by simp⟩
  rw [take_succ_names hk, List.filter_append, List.filter_cons_of_pos (by simp [hd]), List.filter_nil]
  exact List.rel_append hts (.cons ht .nil)

theorem wp_grepFile {blocks n k : Nat} {data : Nat → Nat → Byte} {ino : Int} (hw : img.WellFormed blocks)
    (hready : GrepReady img n data) (ho : IsStdout (fds STDOUT)) (hfree : ThirdFree fds) (hne : s.1 ≠ [])
    (hk : k ≤ img.dirNames.length) (hdone : GrepDone img s.1 k out)
    (h : Running p (Function.update fds 2 (directoryEntry img ino k)) out w) :
    (grepFile n s data 2 v).Wp (userHost img p) (fun r w' => r.elim
      (fun _ => k < img.dirNames.length ∧ ∃ out', GrepDone img s.1 (k + 1) out' ∧
        Running p (Function.update fds 2 (directoryEntry img ino (k + 1))) out' w')
      (fun o => o = some 0 ∧ GrepDone img s.1 img.dirNames.length w'.output)) w := by
  refine Prog.wp_bind'.mpr ((directorySource_gives (by decide) (by decide) k fds out w v.1.byte hk h).mono
    fun r w₁ hr => ?_)
  obtain ⟨rfl, h₁⟩ := hr
  simp only [Mem.paste_storeList]
  have hchunk : (directorySource img ino).chunk k = dirReport img k := rfl
  rw [hchunk]
  rcases Nat.lt_or_eq_of_le hk with hlt | rfl
  · obtain ⟨hname, hdrop⟩ := dirNames_drop hlt
    have hmem : dirReport img k ∈ img.dirNames := List.mem_of_mem_drop (hdrop ▸ List.mem_cons_self)
    have hnul := @dirReport_nul img k
    have hle := @dirReport_length_le img k
    have hskip := hdone.skip hlt
    have hfiled := hdone.file hlt
    generalize dirReport img k = name at *
    have hpos := List.length_pos_iff.mpr hname
    have hbyte : ∀ i (hi : i < name.length), (v.1.storeList 0 name).byte i = name[i] := fun i hi => by
      have := Mem.storeList_byte name v.1 0 hi
      rwa [Nat.zero_add] at this
    have hhead : (v.1.storeList 0 name).byte 0 = 0x2e#8 ↔ name.head? = some 0x2e#8 := by
      rw [hbyte 0 hpos, List.head?_eq_getElem?, List.getElem?_eq_getElem hpos, Option.some.injEq]
    rw [if_neg (by omega), if_neg (by omega)]
    by_cases hd : name.head? = some 0x2e#8
    · rw [if_pos (hhead.mpr hd)]
      exact ⟨hlt, out, hskip hd, h₁⟩
    · rw [if_neg (mt hhead.mp hd)]
      have hcstr : Mem.cstr ((v.1.storeList 0 name).store (name.length : Int).toNat 0#8).byte SBUFSIZE = .of name := by
        refine Subtype.ext ((Mem.cstr_eq ?_ hnul (fun j hj => ?_) ?_).trans (CString.of_eq hnul).symm)
        · simp only [SBUFSIZE]
          omega
        · rw [Int.toNat_natCast, Mem.store_byte_of_ne _ _ (by omega)]
          exact hbyte j hj
        · rw [Int.toNat_natCast, Mem.store_byte_self]
      have hnames : name ∈ img.grepNames := List.mem_filter.mpr ⟨hmem, by simpa using hd⟩
      have hgrep := hready.names name hnames
      obtain ⟨entry, c, hopens, htext, hlen⟩ :=
        hgrep.opens (s := s) (p := p) hw hnul (show 2 ≤ 3 by decide) (by decide) hne
      obtain ⟨d, hd', -⟩ := hgrep.found
      have hc : c.length < n := Nat.lt_of_le_of_lt (hlen d hd') (hready.files name hnames d hd')
      have hfree₃ : Function.update fds 2 ((directorySource img ino).entry ((directorySource img ino).next k)) 3 =
          freeEntry := by
        rw [Function.update_of_ne (by decide)]
        exact hfree.1
      have hfile := wp_doOneFile hopens (by decide) (by decide) (ho.update (by decide) _) (hfree.2 _ rfl) hfree₃ hne
        hready.array hc (hready.sentinel v.2) h₁
      rw [hcstr]
      refine Prog.wp_bind'.mpr (hfile.mono fun r w₂ hr => ?_)
      obtain ⟨rfl, text, hlines, h₂⟩ := hr
      rw [CString.of_eq hnul] at hlines
      refine ⟨hlt, _, hfiled hd text fun ht => ?_, h₂⟩
      rw [hlines (htext ht).1, (htext ht).2]
  · rw [dirReport_length]
    refine ⟨rfl, ?_⟩
    rw [h₁.output]
    exact hdone

/-- `main`'s loop over the directory. -/
theorem wp_grepFiles {blocks n : Nat} {data : Nat → Nat → Byte} {ino : Int} (hw : img.WellFormed blocks)
    (hready : GrepReady img n data) (ho : IsStdout (fds STDOUT)) (hfree : ThirdFree fds) (hne : s.1 ≠ [])
    (h : Running p (Function.update fds 2 (directoryEntry img ino 0)) [] w) :
    (Prog.loop (grepFile n s data 2) n v).Wp (userHost img p)
      (fun r w' => r = some (some 0) ∧ GrepOutput img s.1 w'.output) w := by
  let I : Nat → Mem × Nat → World → Prop := fun m _ w' => ∃ k out', k ≤ img.dirNames.length ∧ GrepDone img s.1 k out' ∧
    Running p (Function.update fds 2 (directoryEntry img ino k)) out' w' ∧ m = img.dirNames.length - k
  have hstep : ∀ m v w', I m v w' → (grepFile n s data 2 v).Wp (userHost img p) (fun r w'' => r.elim
      (fun v' => ∃ m' < m, I m' v' w'')
      (fun o => o = some 0 ∧ GrepDone img s.1 img.dirNames.length w''.output)) w' := by
    rintro m v w' ⟨k, out', hk, hdone, hh, rfl⟩
    refine (wp_grepFile hw hready ho hfree hne hk hdone hh).mono fun r w'' hr => ?_
    cases r with
    | inl v' =>
      obtain ⟨hlt, out'', hdone', hh'⟩ := hr
      exact ⟨img.dirNames.length - (k + 1), by omega, k + 1, out'', hlt, hdone', hh', rfl⟩
    | inr o => exact hr
  have hI : I img.dirNames.length v w := ⟨0, [], Nat.zero_le _, ⟨[], by simp, rfl⟩, h, rfl⟩
  refine (Prog.wp_loop hstep hI hready.directory).mono fun r w' hr => ?_
  obtain ⟨o, rfl, rfl, hdone⟩ := hr
  rw [GrepDone, List.take_length] at hdone
  exact ⟨rfl, hdone⟩

theorem thirdFree_standardFds (old : Nat → FdEntry) : ThirdFree (standardFds old) := by
  refine ⟨rfl, fun e he => ?_⟩
  have h₃ : (Function.update (standardFds old) 2 e 3).flags = .FREE := rfl
  have hr : List.range' 2 (MAX_FD_NUM - 2) = [2, 3, 4, 5, 6, 7] := rfl
  have h₃' : decide ((Function.update (standardFds old) 2 e 3).flags = .FREE) = true := decide_eq_true h₃
  rw [vacantOf, hr, List.find?_cons_of_neg (by simp [he])]
  exact List.find?_cons_of_pos h₃'

theorem wp_grep {blocks n : Nat} {data : Nat → Nat → Byte} (hw : img.WellFormed blocks) (hready : GrepReady img n data)
    (h : Running p fds [] w) (ho : IsStdout (fds STDOUT)) (hv : vacantOf fds = some 2) (hfree : ThirdFree fds)
    (hargs : Holds (w.kernel.pcb p).args s.1) (hne : s.1 ≠ []) {d : Dentry} (hd : readDentryByName img dot = some d)
    (ht : d.fileType = 1) (buf search : Nat → Byte) : (grep n buf search data).Wp (userHost img p)
      (fun r w' => r = some 0 ∧ GrepOutput img s.1 w'.output) w := by
  have hlen := hargs.length
  simp only [MAX_LENGTH_ARG] at hlen
  have htable : typeTable d.fileType = some directoryTable := by
    rw [ht]
    rfl
  refine Prog.wp_bind'.mpr ((wp_getargs h hargs hne search (n := BUFSIZE) (by simp only [BUFSIZE]; omega)
    (by decide)).mono fun r w₁ hr => ?_)
  obtain ⟨hr, hname, h₁⟩ := hr
  have hname : Mem.cstr ((Mem.fresh search).paste 0 r.2).byte BUFSIZE = s := Subtype.ext hname
  rw [if_neg (by rw [hr]; decide)]
  refine Prog.wp_bind'.mpr ((wp_open h₁ (by decide) (by decide) hd hv htable).mono fun v w₂ hr => ?_)
  obtain ⟨rfl, h₂⟩ := hr
  have he : (directorySource img d.inodeNumber).entry 0 = ⟨directoryTable, d.inodeNumber, 0, .IN_USE⟩ :=
    directorySource_entry _
  rw [← he] at h₂
  rw [if_neg (by decide), hname]
  refine Prog.wp_bind'.mpr ((wp_grepFiles hw hready ho hfree hne h₂).mono fun r w₃ hr => ?_)
  obtain ⟨rfl, hout⟩ := hr
  exact ⟨rfl, hout⟩

def progAb : CString := ⟨str "prog ab", by decide⟩

def ab : CString := ⟨str "ab", by decide⟩

theorem notesImage_ready : GrepReady notesImage 2000 fun _ _ => 0#8 := by
  have hnames : notesImage.grepNames = [str "prog", str "notes"] := by decide +kernel
  have hdir : notesImage.dirNames.length < 2000 := by decide +kernel
  have hd₁ : readDentryByName notesImage (.of (str "prog")) = some (dentryAt notesImage 1) := by decide +kernel
  have hd₂ : readDentryByName notesImage (.of (str "notes")) = some (dentryAt notesImage 2) := by decide +kernel
  have hlen : (notesImage.content (toU32 (dentryAt notesImage 1).inodeNumber)).length < 2000 ∧
      (notesImage.content (toU32 (dentryAt notesImage 2).inodeNumber)).length < 2000 := by decide +kernel
  refine ⟨fun name hm => ?_, by decide, hdir, fun name hm d hd => ?_, fun _ => by decide⟩ <;>
    obtain rfl | rfl : name = str "prog" ∨ name = str "notes" := by simpa [hnames] using hm
  · exact ⟨by decide, by decide, _, hd₁, by decide +kernel⟩
  · exact ⟨by decide, by decide, _, hd₂, by decide +kernel⟩
  · obtain rfl := Option.some.inj (hd₁.symm.trans hd)
    exact hlen.1
  · obtain rfl := Option.some.inj (hd₂.symm.trans hd)
    exact hlen.2

end

end LimeOS
