import LimeOS.Proof.Itoa

/-!
# `printf` and its format

Each step of the scan reads the byte at `buf` and, but for the last, goes past it
(`Printf.Move`). A conversion without a character takes the NUL for its
character, and the scan goes on after it: `printf` stays inside its format and
prints what the format expands to exactly when the format does not end in one
(`printf_format_iff`).
-/

namespace LimeOS

/-! ## Steps -/

/-- What one step does to the scan, whatever it prints. -/
inductive Printf.Move (f : PrintfFrame) (p p' : Printf) : Prop
  | stop (h : p.pc = .test) (hc : f.mem p.buf = 0#8) (h' : p'.pc = .returned) (hb : p'.buf = p.buf)
  | percent (h : p.pc = .test) (hc : f.mem p.buf = chr '%') (h' : p'.pc = .formatCharSwitch false)
      (hb : p'.buf = p.buf + 1)
  | text (h : p.pc = .test) (h₀ : f.mem p.buf ≠ 0#8) (hc : f.mem p.buf ≠ chr '%') (h' : p'.pc = .test)
      (hb : p'.buf = p.buf + 1)
  | hash {alternate : Bool} (h : p.pc = .formatCharSwitch alternate) (hc : f.mem p.buf = chr '#')
      (h' : p'.pc = .formatCharSwitch true) (hb : p'.buf = p.buf + 1)
  | convert {alternate : Bool} (h : p.pc = .formatCharSwitch alternate) (hc : f.mem p.buf ≠ chr '#')
      (h' : p'.pc = .test) (hb : p'.buf = p.buf + 1)

section

variable {n : Nat} {f : PrintfFrame} {p p' : Printf}

theorem Printf.step_move (h : p.step n f = some p') : p.Move f p' ∧ p'.reads = p.buf :: p.reads := by
  simp only [Printf.step] at h
  split at h
  · cases h
  · rename_i hpc
    split at h
    · rename_i hc
      obtain rfl := Option.some.inj h
      exact ⟨.stop hpc hc rfl rfl, rfl⟩
    · rename_i h₀
      split at h
      · rename_i hc
        obtain rfl := Option.some.inj h
        exact ⟨.percent hpc hc rfl rfl, rfl⟩
      · rename_i hc
        obtain rfl := Option.some.inj h
        exact ⟨.text hpc h₀ hc hpc rfl, rfl⟩
  · rename_i alternate hpc
    rw [formatCharSwitch] at h
    split at h
    · rename_i hc
      obtain rfl := Option.some.inj h
      exact ⟨.hash hpc hc rfl rfl, rfl⟩
    · rename_i hc
      obtain ⟨r, -, rfl⟩ := Option.map_eq_some_iff.mp h
      exact ⟨.convert hpc hc rfl rfl, rfl⟩

end

/-! ## Where the scan reads -/

/-- The scan of a format `l`: at a byte of it or its NUL, in a conversion exactly
where `l` up to there ends in one, or past the NUL. -/
inductive Scan (format : Nat) (l : List Byte) (p : Printf) : Prop
  | inside (j : Nat) (hj : j ≤ l.length) (hb : p.buf = format + j) (hr : ∀ a ∈ p.reads, a ≤ format + l.length)
      (hpc : p.pc = .test ∧ endsInConversion (l.take j) = false ∨
        (∃ alternate, p.pc = .formatCharSwitch alternate) ∧ endsInConversion (l.take j) = true ∨
        p.pc = .returned ∧ j = l.length ∧ endsInConversion l = false)
  | past (he : endsInConversion l = true)
      (hp : p.pc = .test ∧ p.buf = format + l.length + 1 ∨ format + l.length + 1 ∈ p.reads)

theorem endsInConversion_take {l : List Byte} {j : Nat} (hj : j < l.length) : endsInConversion (l.take (j + 1)) =
    if endsInConversion (l.take j) then decide (l[j] = chr '#') else decide (l[j] = chr '%') := by
  rw [endsInConversion, endsInConversion, List.take_succ_eq_append_getElem hj, List.foldl_append]
  rfl

/-- A byte of the format that is not its NUL. -/
theorem scan_lt {format j : Nat} {mem : Nat → Byte} {l : List Byte} (hl : Mem.StringAt mem format l) (hj : j ≤ l.length)
    (hne : mem (format + j) ≠ 0#8) : j < l.length := by
  by_contra hn
  have he : j = l.length := by omega
  exact hne (he ▸ hl.nul)

/-- One byte on inside the format. -/
theorem Scan.next {format j : Nat} {f : PrintfFrame} {l : List Byte} (hl : Mem.StringAt f.mem format l) {p' : Printf}
    (hj : j < l.length) (hb : p'.buf = format + j + 1) (hr : ∀ a ∈ p'.reads, a ≤ format + l.length)
    (hpc : p'.pc = .test ∧
        (if endsInConversion (l.take j) then f.mem (format + j) ≠ chr '#' else f.mem (format + j) ≠ chr '%') ∨
      (∃ alternate, p'.pc = .formatCharSwitch alternate) ∧
        (if endsInConversion (l.take j) then f.mem (format + j) = chr '#' else f.mem (format + j) = chr '%')) :
    Scan format l p' := by
  refine .inside (j + 1) hj (by omega) hr ?_
  rw [endsInConversion_take hj, ← hl.byte j hj]
  rcases hpc with ⟨hpc, hc⟩ | ⟨hpc, hc⟩
  · refine .inl ⟨hpc, ?_⟩
    split at hc <;> rename_i he <;> simpa [he] using hc
  · refine .inr (.inl ⟨hpc, ?_⟩)
    split at hc <;> rename_i he <;> simpa [he] using hc

theorem Scan.step {n format : Nat} {f : PrintfFrame} {l : CString} (hl : Mem.StringAt f.mem format l.1) {p p' : Printf}
    (h : Scan format l.1 p) (hs : p.step n f = some p') : Scan format l.1 p' := by
  obtain ⟨hm, hreads⟩ := Printf.step_move hs
  cases h with
  | past he hp =>
    refine .past he (.inr ?_)
    rw [hreads]
    rcases hp with ⟨-, hb⟩ | hp
    · rw [hb]
      exact List.mem_cons_self
    · exact List.mem_cons_of_mem _ hp
  | inside j hj hb hr hpc =>
    have hr' : ∀ a ∈ p'.reads, a ≤ format + l.1.length := by
      rw [hreads, hb]
      intro a ha
      rcases List.mem_cons.mp ha with rfl | ha
      · omega
      · exact hr a ha
    cases hm with
    | stop h hc h' hb' =>
      have he : endsInConversion (l.1.take j) = false := by simpa [h] using hpc
      have hend : j = l.1.length := by
        by_contra hne
        have hlt : j < l.1.length := by omega
        have hmem := List.getElem_mem hlt
        rw [← hl.byte j hlt, ← hb, hc] at hmem
        exact l.2 hmem
      subst hend
      rw [List.take_length] at he
      exact .inside _ hj (hb'.trans hb) hr' (.inr (.inr ⟨h', rfl, he⟩))
    | percent h hc h' hb' =>
      have he : endsInConversion (l.1.take j) = false := by simpa [h] using hpc
      rw [hb] at hc hb'
      have hlt := scan_lt hl hj (by rw [hc]; decide)
      refine Scan.next hl hlt hb' hr' (.inr ⟨⟨_, h'⟩, ?_⟩)
      rw [he]
      exact hc
    | text h h₀ hc h' hb' =>
      have he : endsInConversion (l.1.take j) = false := by simpa [h] using hpc
      rw [hb] at h₀ hc hb'
      have hlt := scan_lt hl hj h₀
      refine Scan.next hl hlt hb' hr' (.inl ⟨h', ?_⟩)
      rw [he]
      exact hc
    | hash h hc h' hb' =>
      have he : endsInConversion (l.1.take j) = true := by simpa [h] using hpc
      rw [hb] at hc hb'
      have hlt := scan_lt hl hj (by rw [hc]; decide)
      refine Scan.next hl hlt hb' hr' (.inr ⟨⟨_, h'⟩, ?_⟩)
      rw [he]
      exact hc
    | convert h hc h' hb' =>
      have he : endsInConversion (l.1.take j) = true := by simpa [h] using hpc
      rw [hb] at hc hb'
      by_cases hlt : j < l.1.length
      · refine Scan.next hl hlt hb' hr' (.inl ⟨h', ?_⟩)
        rw [he]
        exact hc
      · -- the NUL is the conversion's character
        have hend : j = l.1.length := by omega
        subst hend
        rw [List.take_length] at he
        exact .past he (.inl ⟨h', hb'⟩)

/-- Where a call has read when it returns. -/
theorem printf_scan {n format : Nat} {f : PrintfFrame} {s : State} {l : CString} (hl : Mem.StringAt f.mem format l.1)
    {r : Int × Printf} (h : printf n f s format = some r) :
    (endsInConversion l.1 = false ∧ r.1 = toI32 l.1.length ∧ ∀ a ∈ r.2.reads, a ≤ format + l.1.length) ∨
      endsInConversion l.1 = true ∧ format + l.1.length + 1 ∈ r.2.reads := by
  rw [printf] at h
  obtain ⟨p, hp, hr⟩ := Option.bind_eq_some_iff.mp h
  obtain rfl := Option.some.inj hr
  have hstart : Scan format l.1 ⟨.test, format, 0, ⟨[], if checkOutOfBound s ≠ 0 then scrollScreen s else s⟩, []⟩ :=
    .inside 0 (Nat.zero_le _) rfl (by simp) (.inl ⟨rfl, rfl⟩)
  obtain ⟨hscan, hend⟩ := whileLoop_inv (fun p p' hI _ hs => hI.step hl hs) hstart hp
  have hpc : p.pc = .returned := by simpa using hend
  cases hscan with
  | past he hp' =>
    refine .inr ⟨he, ?_⟩
    rcases hp' with ⟨ht, -⟩ | hread
    · exact absurd (hpc.symm.trans ht) (by decide)
    · exact hread
  | inside j hj hb hreads hpc' =>
    have hret : j = l.1.length ∧ endsInConversion l.1 = false := by simpa [hpc] using hpc'
    refine .inl ⟨hret.2, ?_, hreads⟩
    rw [hb, hret.1, Nat.cast_add, add_sub_cancel_left]

/-! ## What a call prints -/

section

variable {n : Nat} {f : PrintfFrame}

theorem printfConvert_spec (hn : 32 < n) {alternate : Bool} {p : Printf} {c : Byte} {text : List Byte} {k : Nat}
    (hc : f.mem p.buf = c) (ht : Converts f.mem f.args alternate c p.esp text k) (hlen : text.length < n) :
    ∃ taken, printfConvert n f alternate p = some (taken, text.foldl Console.putc p.console) ∧ p.esp + taken = k := by
  simp only [printfConvert, hc]
  cases ht with
  | percent => exact ⟨0, if_pos rfl, rfl⟩
  | hex =>
    refine ⟨1, ?_, rfl⟩
    rw [if_neg (by decide), if_pos rfl, printfX_spec _ _ _ hn]
    rfl
  | unsigned =>
    refine ⟨1, ?_, rfl⟩
    rw [if_neg (by decide), if_neg (by decide), if_pos rfl, printfU_spec _ _ _ hn]
    rfl
  | signed =>
    refine ⟨1, ?_, rfl⟩
    rw [if_neg (by decide), if_neg (by decide), if_neg (by decide), if_pos rfl, printfD_spec _ _ _ hn]
    rfl
  | char =>
    refine ⟨1, ?_, rfl⟩
    rw [if_neg (by decide), if_neg (by decide), if_neg (by decide), if_neg (by decide), if_pos rfl]
    rfl
  | string _ l h =>
    refine ⟨1, ?_, rfl⟩
    rw [if_neg (by decide), if_neg (by decide), if_neg (by decide), if_neg (by decide), if_neg (by decide), if_pos rfl,
      puts_eq h l.2 hlen]
    rfl
  | unknown _ h =>
    have hlist : str "%xudcs" = [chr '%', chr 'x', chr 'u', chr 'd', chr 'c', chr 's'] := by decide
    rw [hlist] at h
    simp only [List.mem_cons, List.not_mem_nil, or_false, not_or] at h
    obtain ⟨h₁, h₂, h₃, h₄, h₅, h₆⟩ := h
    exact ⟨0, by rw [if_neg h₁, if_neg h₂, if_neg h₃, if_neg h₄, if_neg h₅, if_neg h₆]; rfl, rfl⟩

/-- The scan after `k` steps. -/
def Printf.Steps (n : Nat) (f : PrintfFrame) (k : Nat) (p p' : Printf) : Prop :=
  LimeOS.run (fun p (_ : Unit) => p.step n f) p (List.replicate k ()) = some p'

section

variable {p p₁ p₂ : Printf}

theorem Printf.Steps.one (h : p.step n f = some p₁) : Printf.Steps n f 1 p p₁ := run_replicate_one h

theorem Printf.Steps.trans {i k : Nat} (h₁ : Printf.Steps n f i p p₁) (h₂ : Printf.Steps n f k p₁ p₂) :
    Printf.Steps n f (i + k) p p₂ := run_replicate_add h₁ h₂

/-- The loop goes on from where its steps have come to. -/
theorem Printf.Steps.run_eq {k : Nat} (h : Printf.Steps n f k p p₁) (j : Nat) :
    p.run n f (j + k) = p₁.run n f j := by
  induction k generalizing p with
  | zero => rw [Option.some.inj h, Nat.add_zero]
  | succ k ih =>
    obtain ⟨p', hp, hr⟩ := run_cons_eq_some h
    have hpc : p.pc ≠ .returned := by
      intro e
      rw [Printf.step, e] at hp
      cases hp
    rw [← Nat.add_assoc, ← ih hr]
    exact whileLoop_next (decide_eq_true hpc) hp

end

section

variable {b k : Nat} {c : Console} {reads : List Nat}

theorem step_stop (h : f.mem b = 0#8) :
    Printf.Steps n f 1 ⟨.test, b, k, c, reads⟩ ⟨.returned, b, k, c, b :: reads⟩ := .one (if_pos h)

theorem step_text (h₀ : f.mem b ≠ 0#8) (h : f.mem b ≠ chr '%') :
    Printf.Steps n f 1 ⟨.test, b, k, c, reads⟩ ⟨.test, b + 1, k, c.putc (f.mem b), b :: reads⟩ := by
  apply Printf.Steps.one
  simp only [Printf.step, if_neg h₀, if_neg h]
  rfl

theorem step_percent (h : f.mem b = chr '%') :
    Printf.Steps n f 1 ⟨.test, b, k, c, reads⟩ ⟨.formatCharSwitch false, b + 1, k, c, b :: reads⟩ := by
  apply Printf.Steps.one
  simp only [Printf.step, h, if_true]
  exact if_neg (by decide)

/-- The `#` of a conversion. -/
theorem steps_hashes {i : Nat} (h : ∀ t < i, f.mem (b + t) = chr '#') (alternate : Bool) (reads : List Nat) :
    ∃ reads', Printf.Steps n f i ⟨.formatCharSwitch alternate, b, k, c, reads⟩
      ⟨.formatCharSwitch (alternate || decide (0 < i)), b + i, k, c, reads'⟩ := by
  induction i generalizing b alternate reads with
  | zero =>
    refine ⟨reads, ?_⟩
    rw [decide_eq_false (Nat.lt_irrefl 0), Bool.or_false]
    rfl
  | succ i ih =>
    have hrest : ∀ t < i, f.mem (b + 1 + t) = chr '#' := by
      intro t ht
      rw [Nat.add_assoc, Nat.add_comm 1 t]
      exact h (t + 1) (by omega)
    have hstep : Printf.Steps n f 1 ⟨.formatCharSwitch alternate, b, k, c, reads⟩
        ⟨.formatCharSwitch true, b + 1, k, c, b :: reads⟩ := .one (if_pos (h 0 (Nat.succ_pos i)))
    obtain ⟨reads', hr⟩ := ih hrest true (b :: reads)
    refine ⟨reads', ?_⟩
    rw [Bool.true_or, Nat.add_assoc, Nat.add_comm 1 i] at hr
    rw [decide_eq_true (Nat.succ_pos i), Bool.or_true, Nat.add_comm i 1]
    rw [Nat.add_comm i 1] at hr
    exact hstep.trans hr

theorem step_convert (hn : 32 < n) {alternate : Bool} {d : Byte} {text : List Byte} {k' : Nat} (hd : f.mem b = d)
    (hne : d ≠ chr '#') (ht : Converts f.mem f.args alternate d k text k') (hlen : text.length < n) :
    Printf.Steps n f 1 ⟨.formatCharSwitch alternate, b, k, c, reads⟩
      ⟨.test, b + 1, k', text.foldl Console.putc c, b :: reads⟩ := by
  obtain ⟨taken, hr, hk⟩ := printfConvert_spec hn (p := ⟨.formatCharSwitch alternate, b, k, c, b :: reads⟩) hd ht hlen
  apply Printf.Steps.one
  show formatCharSwitch n f alternate ⟨.formatCharSwitch alternate, b, k, c, b :: reads⟩ = _
  rw [formatCharSwitch, if_neg (hd ▸ hne), hr]
  simp only [Option.map_some, ← hk]

end

/-- From `b` on with `k` arguments taken, the next `width` bytes of a format pass the
characters `l` to `putc` and leave `k'` arguments taken. -/
def Prints (n : Nat) (f : PrintfFrame) (width b k : Nat) (l : List Byte) (k' : Nat) : Prop :=
  ∀ c reads, ∃ reads', Printf.Steps n f width ⟨.test, b, k, c, reads⟩
    ⟨.test, b + width, k', l.foldl Console.putc c, reads'⟩

/-- A conversion with its character. -/
theorem conversion_prints (hn : 32 < n) {b i k k' : Nat} {d : Byte} {text : List Byte} (hp : f.mem b = chr '%')
    (hhash : ∀ t < i, f.mem (b + 1 + t) = chr '#') (hd : f.mem (b + 1 + i) = d) (hne : d ≠ chr '#')
    (ht : Converts f.mem f.args (decide (0 < i)) d k text k') (hlen : text.length < n) :
    Prints n f (i + 2) b k text k' := by
  intro c reads
  obtain ⟨reads', hr⟩ := steps_hashes (n := n) (k := k) (c := c) hhash false (b :: reads)
  rw [Bool.false_or] at hr
  rw [show i + 2 = 1 + i + 1 by omega, ← Nat.add_assoc, ← Nat.add_assoc]
  exact ⟨_, ((step_percent hp).trans hr).trans (step_convert hn hd hne ht hlen)⟩

/-! ## Formats -/

theorem endsInConversion_text {c : Byte} (hc : c ≠ chr '%') (l : List Byte) :
    endsInConversion (c :: l) = endsInConversion l := by
  rw [endsInConversion, List.foldl_cons, endsInConversion]
  simp [hc]

/-- The bytes of a conversion before its character. -/
theorem endsInConversion_hashes (i : Nat) :
    endsInConversion (chr '%' :: List.replicate i (chr '#')) = true := by
  rw [endsInConversion, List.foldl_cons]
  induction i with
  | zero => rfl
  | succ i ih =>
    rw [List.replicate_succ, List.foldl_cons]
    exact ih

theorem endsInConversion_conversion (i : Nat) {c : Byte} (hc : c ≠ chr '#') (l : List Byte) :
    endsInConversion (chr '%' :: (List.replicate i (chr '#') ++ c :: l)) = endsInConversion l := by
  have hhash := endsInConversion_hashes i
  rw [endsInConversion] at hhash ⊢
  rw [← List.cons_append, List.foldl_append, hhash, List.foldl_cons, endsInConversion]
  simp [hc]

/-- A format that does not end in a conversion is scanned to its end and prints its expansion. -/
theorem Expands.run {l out : List Byte} {k : Nat} (h : Expands f.mem f.args l k out) (h₀ : 0#8 ∉ l)
    (he : endsInConversion l = false) (hn : 32 < n) (hout : out.length < n) {b j : Nat}
    (hl : Mem.StringAt f.mem b l) (hj : l.length + 1 < j) (c : Console) (reads : List Nat) : ∃ p',
    Printf.run n f j ⟨.test, b, k, c, reads⟩ = some p' ∧ p'.console = out.foldl Console.putc c := by
  induction h generalizing b j c reads with
  | nil k =>
    obtain ⟨j, rfl⟩ : ∃ i, j = i + 1 + 1 := ⟨j - 2, by rw [List.length_nil] at hj; omega⟩
    have hnul : f.mem b = 0#8 := hl.nul
    rw [(step_stop hnul).run_eq]
    exact ⟨_, whileLoop_done rfl, rfl⟩
  | @text d l out k hd _ ih =>
    obtain ⟨j, rfl⟩ : ∃ i, j = i + 1 := ⟨j - 1, by omega⟩
    rw [List.mem_cons, not_or] at h₀
    rw [endsInConversion_text hd] at he
    rw [List.length_cons] at hj hout
    rw [(step_text (fun e => h₀.1 (e ▸ hl.head)) (hl.head ▸ hd)).run_eq, hl.head]
    exact ih h₀.2 he (by omega) hl.tail (by omega) _ _
  | @conversion i d l text out k k' hd ht _ ih =>
    rw [List.length_append] at hout
    have hlen : (chr '%' :: (List.replicate i (chr '#') ++ d :: l)).length = i + l.length + 2 := by
      simp
      omega
    rw [hlen] at hj
    obtain ⟨j, rfl⟩ : ∃ t, j = t + (i + 2) := ⟨j - (i + 2), by omega⟩
    have hhash : ∀ t < i, f.mem (b + 1 + t) = chr '#' := by
      intro t ht'
      rw [hl.tail.byte t (by simp; omega), List.getElem_append_left (by simpa using ht'), List.getElem_replicate]
    have hrest := hl.tail.drop
    rw [List.length_replicate] at hrest
    obtain ⟨reads', hr⟩ := conversion_prints hn hl.head hhash hrest.head hd ht (by omega) c reads
    rw [endsInConversion_conversion i hd] at he
    have h₀' : 0#8 ∉ l := fun hm => h₀ (by simp [hm])
    have hl' : Mem.StringAt f.mem (b + (i + 2)) l := by
      rw [show b + (i + 2) = b + 1 + i + 1 by omega]
      exact hrest.tail
    rw [List.foldl_append, hr.run_eq]
    exact ih h₀' he (by omega) hl' (by omega) _ _
  | cut i k =>
    rw [endsInConversion_hashes] at he
    cases he

end

/-- A call with such a format returns, and has printed its expansion. -/
theorem printf_prints (f : PrintfFrame) (s : State) {format n : Nat} {l : CString} {out : List Byte}
    (hl : Mem.StringAt f.mem format l.1) (hout : Expands f.mem f.args l.1 0 out) (he : endsInConversion l.1 = false)
    (hn : l.1.length + out.length + 33 ≤ n) : ∃ r, printf n f s format = some r ∧
      r.2.console = out.foldl Console.putc ⟨[], if checkOutOfBound s ≠ 0 then scrollScreen s else s⟩ := by
  obtain ⟨p, hp, hc⟩ := hout.run l.2 he (by omega) (show out.length < n by omega) hl (show l.1.length + 1 < n by omega)
    ⟨[], if checkOutOfBound s ≠ 0 then scrollScreen s else s⟩ []
  refine ⟨(toI32 (p.buf - format), p), ?_, hc⟩
  rw [printf]
  simp only [hp, Option.bind_eq_bind, Option.bind_some]
  rfl

/-- What a call with the format `l` should come to: for every bound on the loops that is
large enough it returns the length, has not read after the NUL, and has printed `out`. -/
def PrintsFormat (f : PrintfFrame) (s : State) (format : Nat) (l out : List Byte) : Prop :=
  ∃ bound, ∀ n, bound ≤ n → ∃ r, printf n f s format = some r ∧ r.1 = toI32 l.length ∧
    (∀ a ∈ r.2.reads, a ≤ format + l.length) ∧ r.2.console.out = out

/-- **`printf` and its format.** With strings where its `%s` find their arguments, a call stays inside its format,
returns its length and prints its expansion exactly when the format does not end in a conversion without a
character. -/
theorem printf_format_iff (f : PrintfFrame) (s : State) {format : Nat} {l : CString} {out : List Byte}
    (hl : Mem.StringAt f.mem format l.1) (hout : Expands f.mem f.args l.1 0 out) :
    PrintsFormat f s format l.1 out ↔ endsInConversion l.1 = false := by
  constructor
  · rintro ⟨bound, h⟩
    obtain ⟨r, hr, -, hreads, -⟩ := h bound (Nat.le_refl _)
    rcases printf_scan hl hr with ⟨he, -⟩ | ⟨-, hread⟩
    · exact he
    · have hle := hreads _ hread
      omega
  · intro he
    refine ⟨l.1.length + out.length + 33, fun n hn => ?_⟩
    obtain ⟨r, hr, hc⟩ := printf_prints f s hl hout he hn
    refine ⟨r, hr, ?_⟩
    rcases printf_scan hl hr with ⟨-, hret, hreads⟩ | ⟨he', -⟩
    · refine ⟨hret, hreads, ?_⟩
      rw [hc, foldl_putc_out]
      rfl
    · rw [he] at he'
      cases he'

/-- A call with the format `l` at address zero, and nothing after it. -/
def formatFrame (l : List Byte) (args : Nat → Word) : PrintfFrame := ⟨fun a => l.getD a 0#8, args, fun _ _ => 0#8⟩

theorem formatFrame_stringAt (l : List Byte) (args : Nat → Word) : Mem.StringAt (formatFrame l args).mem 0 l := by
  constructor
  · intro i hi
    show l.getD (0 + i) 0#8 = l[i]
    rw [Nat.zero_add, List.getD_eq_getElem?_getD, List.getElem?_eq_getElem hi, Option.getD_some]
  · show l.getD (0 + l.length) 0#8 = 0#8
    rw [Nat.zero_add, List.getD_eq_getElem?_getD, List.getElem?_eq_none (Nat.le_refl _), Option.getD_none]

/-- The number 31, padded. -/
theorem printf_format_hex : PrintsFormat (formatFrame (str "n=%#x") fun _ => 31) boot 0 (str "n=%#x")
    (str "n=0000001F") := by
  have hconv : Expands (formatFrame (str "n=%#x") fun _ => 31).mem (fun _ => 31) [chr '%', chr '#', chr 'x'] 0
      (padded 31 ++ []) := Expands.conversion (i := 1) (by decide) (.hex 0) (.nil 1)
  have hout : Expands (formatFrame (str "n=%#x") fun _ => 31).mem (fun _ => 31) (str "n=%#x") 0 (str "n=0000001F") := by
    rw [show str "n=0000001F" = chr 'n' :: chr '=' :: (padded 31 ++ []) by decide]
    exact .text (by decide) (.text (by decide) hconv)
  exact (printf_format_iff _ boot (l := ⟨str "n=%#x", by decide⟩) (formatFrame_stringAt _ _) hout).mpr (by decide)

/-- The format `%`, after whose NUL the scan goes on. -/
theorem printf_format_percent : Mem.StringAt (formatFrame [chr '%'] fun _ => 0).mem 0 [chr '%'] ∧
    Expands (formatFrame [chr '%'] fun _ => 0).mem (fun _ => 0) [chr '%'] 0 [] ∧
      ¬ PrintsFormat (formatFrame [chr '%'] fun _ => 0) boot 0 [chr '%'] [] := by
  have hl := formatFrame_stringAt [chr '%'] fun _ => 0
  refine ⟨hl, .cut 0 0, ?_⟩
  rintro ⟨bound, h⟩
  obtain ⟨r, hr, -, hreads, -⟩ := h bound (Nat.le_refl _)
  rcases printf_scan (l := ⟨[chr '%'], by decide⟩) hl hr with ⟨he, -⟩ | ⟨-, hread⟩
  · cases he
  · exact absurd (hreads _ hread) (by decide)

/-! ## Every format has an expansion -/

section

variable {mem : Nat → Byte} {args : Nat → Word}

theorem converts_exists (alternate : Bool) (c : Byte) (k : Nat)
    (hs : c = chr 's' → ∃ l : CString, Mem.StringAt mem (args k).toNat l.1) :
    ∃ text k', Converts mem args alternate c k text k' := by
  by_cases h : c ∈ str "%xudcs"
  · rw [show str "%xudcs" = [chr '%', chr 'x', chr 'u', chr 'd', chr 'c', chr 's'] by decide] at h
    simp only [List.mem_cons, List.not_mem_nil, or_false] at h
    rcases h with rfl | rfl | rfl | rfl | rfl | rfl
    · exact ⟨_, _, .percent k⟩
    · exact ⟨_, _, .hex k⟩
    · exact ⟨_, _, .unsigned k⟩
    · exact ⟨_, _, .signed k⟩
    · exact ⟨_, _, .char k⟩
    · obtain ⟨l, hl⟩ := hs rfl
      exact ⟨_, _, .string k l hl⟩
  · exact ⟨_, _, .unknown k h⟩

/-- The `#` at the start of a list. -/
theorem exists_hashes (l : List Byte) : ∃ i l', l = List.replicate i (chr '#') ++ l' ∧ l'.head? ≠ some (chr '#') := by
  induction l with
  | nil => exact ⟨0, [], rfl, by simp⟩
  | cons c l ih =>
    by_cases hc : c = chr '#'
    · obtain ⟨i, l', rfl, hl'⟩ := ih
      exact ⟨i + 1, l', by rw [hc, List.replicate_succ]; rfl, hl'⟩
    · exact ⟨0, c :: l, rfl, by simpa using hc⟩

theorem expands_exists (l : List Byte) (k : Nat)
    (hs : chr 's' ∈ l → ∀ k, ∃ l : CString, Mem.StringAt mem (args k).toNat l.1) : ∃ out, Expands mem args l k out := by
  induction hn : l.length using Nat.strong_induction_on generalizing l k with
  | _ n ih =>
    cases l with
    | nil => exact ⟨[], .nil k⟩
    | cons c l =>
      rw [List.length_cons] at hn
      by_cases hc : c = chr '%'
      · subst hc
        obtain ⟨i, l', rfl, hl'⟩ := exists_hashes l
        cases l' with
        | nil =>
          rw [List.append_nil]
          exact ⟨[], .cut i k⟩
        | cons d l' =>
          have hd : d ≠ chr '#' := by simpa using hl'
          obtain ⟨text, k', ht⟩ := converts_exists (decide (0 < i)) d k fun e => hs (by simp [e]) k
          rw [List.length_append, List.length_cons] at hn
          obtain ⟨out, ho⟩ := ih l'.length (by omega) l' k' (fun hm => hs (by simp [hm])) rfl
          exact ⟨text ++ out, .conversion hd ht ho⟩
      · obtain ⟨out, ho⟩ := ih l.length (by omega) l k (fun hm => hs (List.mem_cons_of_mem c hm)) rfl
        exact ⟨c :: out, .text hc ho⟩

end

/-! ## Messages -/

theorem expands_text {mem : Nat → Byte} {args : Nat → Word} {l : List Byte} (h : chr '%' ∉ l) (k : Nat) :
    Expands mem args l k l ∧ endsInConversion l = false := by
  induction l with
  | nil => exact ⟨.nil k, rfl⟩
  | cons c l ih =>
    rw [List.mem_cons, not_or] at h
    obtain ⟨ho, he⟩ := ih h.2
    rw [endsInConversion_text (Ne.symm h.1)]
    exact ⟨.text (Ne.symm h.1) ho, he⟩

/-- `printf` of a format without conversions is the kernel's message. -/
theorem printf_message (f : PrintfFrame) (s : State) {format n : Nat} {l : CString} (hl : Mem.StringAt f.mem format l.1)
    (h : chr '%' ∉ l.1) (hn : 2 * l.1.length + 33 ≤ n) :
    ∃ r, printf n f s format = some r ∧ r.2.console.state = printfMessage s l.1 := by
  obtain ⟨ho, he⟩ := expands_text h 0
  obtain ⟨r, hr, hc⟩ := printf_prints f s hl ho he (show _ ≤ n by omega)
  refine ⟨r, hr, ?_⟩
  rw [hc, foldl_putc_state, printfMessage]

/-! ## Numbers -/

theorem numeralValue_padded (v : Nat) : numeralValue 16 (padded v) = some v := by
  have hzeros : ∀ i, (List.replicate i (chr '0')).foldlM (fun v b => (digitValue b).bind fun d =>
      if d < 16 then some (16 * v + d) else none) 0 = some 0 := by
    intro i
    induction i with
    | zero => rfl
    | succ i ih => exact ih
  have hval : numeralValue 16 (numeral 16 v) = some v := (numeral_spec (by decide) (by decide) v).value
  rw [numeralValue] at hval ⊢
  rw [padded, List.foldlM_append, hzeros]
  exact hval

/-- **Number formatting.** `itoa` leaves the numeral of the value in the radix; `%#x` passes eight
hexadecimal digits for its argument to `putc`, and `%d` the sign and the decimal numeral. -/
theorem itoa_printf_numerals {n : Nat} (hn : 32 < n) :
    (∀ (v radix : Word) (m : Mem) (buf : Nat), 2 ≤ radix.toNat → radix.toNat ≤ 36 → ∃ m' l,
      itoa n v m buf radix = some m' ∧ Mem.StringAt m'.byte buf l ∧ Numeral radix.toNat v.toNat l) ∧
    ∀ (f : PrintfFrame) (b k : Nat), f.mem b = chr '%' →
      (f.mem (b + 1) = chr '#' → f.mem (b + 2) = chr 'x' → ∃ l, Prints n f 3 b k l (k + 1) ∧ l.length = 8 ∧
        numeralValue 16 l = some (f.args k).toNat) ∧
      (f.mem (b + 1) = chr 'd' → ∃ l, Prints n f 2 b k (if (f.args k).toInt < 0 then chr '-' :: l else l) (k + 1) ∧
        Numeral 10 (f.args k).toInt.natAbs l) := by
  refine ⟨fun v radix m buf h₁ h₂ => ?_, fun f b k hp => ⟨fun hhash hx => ?_, fun hd => ?_⟩⟩
  · obtain ⟨m', hr, hs, -⟩ := itoa_spec h₁ h₂ hn v m buf
    exact ⟨m', _, hr, hs, numeral_spec h₁ h₂ _⟩
  · refine ⟨padded (f.args k).toNat, ?_, length_padded _, numeralValue_padded _⟩
    refine conversion_prints (i := 1) hn hp (fun t ht => ?_) hx (by decide) (.hex k) ?_
    · rw [Nat.lt_one_iff.mp ht]
      exact hhash
    · show (padded (f.args k).toNat).length < n
      rw [length_padded]
      omega
  · refine ⟨numeral 10 (f.args k).toInt.natAbs, ?_, numeral_spec (by decide) (by decide) _⟩
    refine conversion_prints (i := 0) hn hp (fun t ht => absurd ht (Nat.not_lt_zero t)) hd (by decide) (.signed k) ?_
    exact Nat.lt_of_le_of_lt (length_signedNumeral_le (f.args k)) (by omega)

/-- The largest value in binary, the number 31 padded, and the smallest `int32_t`. -/
theorem itoa_printf_numerals_limits :
    (∃ m' l, itoa 33 0xFFFFFFFF (.fresh fun _ => 0#8) 0 2 = some m' ∧ Mem.StringAt m'.byte 0 l ∧
      Numeral 2 0xFFFFFFFF l) ∧
    (∃ l, Prints 33 (formatFrame (str "%#x") fun _ => 31) 3 0 0 l 1 ∧ l.length = 8 ∧ numeralValue 16 l = some 31) ∧
    ∃ l, Prints 33 (formatFrame (str "%d") fun _ => 0x80000000) 2 0 0 (chr '-' :: l) 1 ∧ Numeral 10 2147483648 l := by
  obtain ⟨hitoa, hprintf⟩ := itoa_printf_numerals (n := 33) (by decide)
  refine ⟨hitoa 0xFFFFFFFF 2 (.fresh fun _ => 0#8) 0 (by decide) (by decide), ?_, ?_⟩
  · exact (hprintf (formatFrame (str "%#x") fun _ => 31) 0 0 (by decide)).1 (by decide) (by decide)
  · exact (hprintf (formatFrame (str "%d") fun _ => 0x80000000) 0 0 (by decide)).2 (by decide)

end LimeOS
