import LimeOS.Proof.Parse

/-!
# Commands in `execute`'s arrays

The parsing leaves the name and the arguments of every command in the two
arrays, taken as large enough, and the index of an argument byte is never below
zero (`splits`): the counters stay in order through the loop
(`Parse.Ordered.foldl`). The arrays are large enough exactly for names of less
than 32 and arguments of less than 128 bytes (`inBuffers_iff`).
-/

namespace LimeOS

namespace Parse

/-! ## The index -/

/-- The variables of an iteration past the name, before its test for an argument byte. -/
def counted (p : Parse) (c : Byte) : Parse :=
  let p := { p with endOfFileName := p.endOfFileName + 1 }
  let p := if c = 0x20#8 ∧ p.localArgStartFlag = false then { p with spaces := p.spaces + 1 } else p
  if p.endOfFileName = 1 then
    { p with fileLength := p.i, fileName := p.fileName.store p.i 0#8, endOfFileName := p.endOfFileName + 1 }
  else p

/-- The iteration stores an argument byte. -/
def Indexes (p : Parse) (c : Byte) : Prop :=
  ¬ (c ≠ 0x20#8 ∧ p.spaces = 0) ∧ (c ≠ 0x20#8 ∨ (p.counted c).localArgStartFlag = true)

theorem step_of_indexes {p : Parse} {c : Byte} (h : p.Indexes c) :
    p.step c = { p.counted c with
      localArgStartFlag := true
      localArg := (p.counted c).localArg.store (p.counted c).argIndex c
      i := (p.counted c).i + 1 } := by
  rw [step, if_neg h.1]
  exact congrArg (fun p : Parse => { p with i := p.i + 1 }) (if_pos h.2)

theorem counted_localArgStartFlag (p : Parse) (c : Byte) : (p.counted c).localArgStartFlag = p.localArgStartFlag := by
  simp only [counted]
  split_ifs <;> rfl

/-- An iteration past the name that stores no argument byte is at a space before the arguments. -/
theorem step_of_space {p : Parse} {c : Byte} (hn : ¬ (c ≠ 0x20#8 ∧ p.spaces = 0)) (h : ¬ p.Indexes c) :
    c = 0x20#8 ∧ p.localArgStartFlag = false ∧ p.step c = { p.counted c with i := (p.counted c).i + 1 } := by
  have ha : ¬ (c ≠ 0x20#8 ∨ (p.counted c).localArgStartFlag = true) := fun ha => h ⟨hn, ha⟩
  refine ⟨not_not.mp fun hc => ha (.inl hc), ?_, ?_⟩
  · rw [← counted_localArgStartFlag p c]
    exact Bool.eq_false_iff.mpr fun hf => ha (.inr hf)
  · rw [step, if_neg hn]
    exact congrArg (fun p : Parse => { p with i := p.i + 1 }) (if_neg ha)

/-- No other iteration touches the argument array. -/
theorem step_localArg {p : Parse} {c : Byte} (h : ¬ p.Indexes c) : (p.step c).localArg = p.localArg := by
  by_cases hn : c ≠ 0x20#8 ∧ p.spaces = 0
  · rw [step, if_pos hn]
  · rw [(step_of_space hn h).2.2]
    simp only [counted]
    split_ifs <;> rfl

/-- The counters between two iterations. -/
structure Ordered (p : Parse) : Prop where
  le : p.fileLength + p.spaces ≤ p.i
  name : p.spaces = 0 → p.endOfFileName = 0 ∧ p.localArgStartFlag = false
  spaces : 0 < p.spaces → 0 < p.endOfFileName

/-- Where an argument byte is stored the name has ended, and no more spaces are counted. -/
theorem Ordered.counted_eq {p : Parse} (h : p.Ordered) {c : Byte} (hc : p.Indexes c) :
    0 < p.spaces ∧ p.counted c = { p with endOfFileName := p.endOfFileName + 1 } := by
  obtain ⟨h₁, h₂⟩ := hc
  rw [counted_localArgStartFlag] at h₂
  have hpos : 0 < p.spaces := by
    rcases Nat.eq_zero_or_pos p.spaces with h₀ | h₀
    · have hf := (h.name h₀).2
      rw [hf] at h₂
      exact absurd ⟨h₂.resolve_right Bool.false_ne_true, h₀⟩ h₁
    · exact h₀
  have hend := h.spaces hpos
  refine ⟨hpos, ?_⟩
  have hs : ¬ (c = 0x20#8 ∧ p.localArgStartFlag = false) := fun ⟨e, hf⟩ =>
    h₂.elim (fun hc => hc e) fun hf' => Bool.false_ne_true (hf.symm.trans hf')
  rw [counted, if_neg hs, if_neg (by simp only; omega)]

theorem Ordered.step {p : Parse} (h : p.Ordered) (c : Byte) : (p.step c).Ordered := by
  have hle := h.le
  by_cases hi : p.Indexes c
  · obtain ⟨hpos, hc⟩ := h.counted_eq hi
    rw [step_of_indexes hi, hc]
    exact ⟨by simp only; omega, fun h₀ => absurd hpos (by simp only at h₀; omega), fun _ => Nat.succ_pos _⟩
  · by_cases hn : c ≠ 0x20#8 ∧ p.spaces = 0
    · rw [Parse.step, if_pos hn]
      exact ⟨by simp only; omega, h.name, h.spaces⟩
    · obtain ⟨hc, hf, e⟩ := step_of_space hn hi
      have hs := h.spaces
      rw [e]
      simp only [counted, hc, hf, and_self, if_true]
      split_ifs with he
      · exact ⟨by simp only; omega, fun h₀ => absurd h₀ (Nat.succ_ne_zero _), fun _ => Nat.succ_pos _⟩
      · exact ⟨by simp only; omega, fun h₀ => absurd h₀ (Nat.succ_ne_zero _), fun _ => Nat.succ_pos _⟩

theorem Ordered.foldl : ∀ (l : List Byte) {p : Parse}, p.Ordered → (l.foldl Parse.step p).Ordered
  | [], _, h => h
  | c :: l, _, h => Ordered.foldl l (h.step c)

theorem init_ordered (k : ExecuteFrame) : (init k).Ordered :=
  ⟨Nat.le_refl _, fun _ => ⟨rfl, rfl⟩, fun h => absurd h (Nat.lt_irrefl _)⟩

end Parse

/-! ## The arrays -/

section

variable (k : ExecuteFrame) (command : CString)

/-- A command is split into its name and its arguments. -/
structure Splits : Prop where
  fileName : ∀ j (hj : j < (commandName command.1).length),
    (Parse.command k command).fileName.byte j = (commandName command.1)[j]
  fileName_nul : (Parse.command k command).fileName.byte (commandName command.1).length = 0#8
  flag : (Parse.command k command).localArgStartFlag = true ↔ commandArgs command.1 ≠ []
  localArg : commandArgs command.1 ≠ [] → ∀ j (hj : j < (commandArgs command.1).length),
    (Parse.command k command).localArg.byte j = (commandArgs command.1)[j]
  localArg_nul : commandArgs command.1 ≠ [] →
    (Parse.command k command).localArg.byte (commandArgs command.1).length = 0#8
  /-- The index where an iteration stores an argument byte, and that of the NUL after the loop. -/
  index : ∀ l c, l ++ [c] <+: command.1 →
    let p := l.foldl Parse.step (Parse.init k)
    (p.step c).localArg.stored ≠ p.localArg.stored →
      0 ≤ ((p.counted c).i : Int) - ((p.counted c).fileLength + (p.counted c).spaces)
  index_nul :
    let p := command.1.foldl Parse.step (Parse.init k)
    0 ≤ (p.i : Int) - (p.fileLength + p.spaces)

/-- **Command splitting.** Every command that fits the address space is split into its name and its
arguments, and the index of an argument byte is never below zero. -/
theorem splits (h : command.1.length < 2 ^ 32) : Splits k command := by
  have hlen : (commandArgs command.1).length < 2 ^ 32 :=
    Nat.lt_of_le_of_lt ((List.dropWhile_sublist _).length_le.trans (List.dropWhile_sublist _).length_le) h
  obtain ⟨hf, h₀, h₁⟩ := Parse.command_eq k hlen
  refine ⟨fun j hj => ?_, ?_, ⟨fun hs ha => ?_, fun ha => (h₁ ha).1⟩, fun ha j hj => ?_, fun ha => ?_,
    fun l c _ => ?_, ?_⟩
  · rw [hf]
    exact Mem.storeString_byte _ _ hj
  · rw [hf, Mem.store_byte_self]
  · exact Bool.false_ne_true ((h₀ ha).1.symm.trans hs)
  · rw [(h₁ ha).2]
    exact Mem.storeString_byte _ _ hj
  · rw [(h₁ ha).2, Mem.store_byte_self]
  · intro p hs
    have hc : p.Indexes c := by
      by_contra hc
      exact hs (by rw [Parse.step_localArg hc])
    have ho : p.Ordered := .foldl l (Parse.init_ordered k)
    have hle := ho.le
    rw [(ho.counted_eq hc).2]
    simp only
    omega
  · have hle := (Parse.Ordered.foldl command.1 (Parse.init_ordered k)).le
    simp only
    omega

/-- The parsing, and the copy of the arguments to a control block, stay inside their arrays. -/
structure InBuffers (old : Nat → Byte) : Prop where
  fileName : ∀ a ∈ (Parse.command k command).fileName.stored, a < MAX_NAME_LENGTH
  localArg : ∀ a ∈ (Parse.command k command).localArg.stored, a < MAX_LENGTH_ARG
  args : (Parse.command k command).localArgStartFlag = true →
    ∀ a ∈ (strcpy (Mem.fresh old) (Mem.cstr (Parse.command k command).localArg.byte MAX_LENGTH_ARG)).stored,
      a < MAX_LENGTH_ARG

theorem overruns_iff : (Parse.command k command).overruns = false ↔
    (∀ a ∈ (Parse.command k command).fileName.stored, a < MAX_NAME_LENGTH) ∧
      ∀ a ∈ (Parse.command k command).localArg.stored, a < MAX_LENGTH_ARG := by
  rw [Parse.overruns, Bool.or_eq_false_iff, List.any_eq_false, List.any_eq_false]
  simp only [decide_eq_true_eq, ge_iff_le, not_le]

/-- **Command parsing stays inside its buffers** exactly when the name is shorter than the 32 bytes of
`file_name`, and the arguments are shorter than the 128 bytes of `local_arg`. -/
theorem inBuffers_iff (old : Nat → Byte) : InBuffers k command old ↔
    (commandName command.1).length < MAX_NAME_LENGTH ∧ (commandArgs command.1).length < MAX_LENGTH_ARG := by
  constructor
  · intro h
    exact Parse.length_lt ((overruns_iff k command).mpr ⟨h.fileName, h.localArg⟩)
  · rintro ⟨hn, ha⟩
    have ho := Parse.overruns_eq_false k hn ha
    obtain ⟨h₁, h₂⟩ := (overruns_iff k command).mp ho
    refine ⟨h₁, h₂, fun hs a hmem => ?_⟩
    have hargs : commandArgs command.1 ≠ [] := fun e =>
      Bool.false_ne_true ((Parse.command_no_localArg ho e).symm.trans hs)
    rw [strcpy, (Parse.command_localArg ho hargs).2, strcpyFrom_eq, Mem.store_stored, List.mem_cons,
      Mem.mem_storeList_stored, Mem.fresh_stored] at hmem
    simp only [List.not_mem_nil, or_false] at hmem
    omega

end

/-- The command `cat  a b `. -/
theorem splits_cat : Splits ⟨fun _ => 0#8, fun _ => 0#8, fun _ => 0#8, fun _ => 0#8, 0, 0⟩ ⟨str "cat  a b ", by decide⟩ :=
  splits _ _ (by decide)

/-- A name of 32 bytes, whose NUL is stored past the array. -/
theorem inBuffers_longName : ¬ InBuffers ⟨fun _ => 0#8, fun _ => 0#8, fun _ => 0#8, fun _ => 0#8, 0, 0⟩
    ⟨List.replicate 32 0x61#8, by decide⟩ fun _ => 0#8 := fun h =>
  absurd (h.fileName 32 (by decide +kernel)) (by decide)

end LimeOS
