import LimeOS.Spec.Command
import LimeOS.Impl.SystemCall

/-!
# The parsing of commands

`execute`'s loop goes through the name, the spaces and the arguments of a
command, one after the other (`Parse.name_foldl`, `Parse.spaces_foldl`,
`Parse.args_foldl`). When it stays inside its arrays they hold the name and the
argument string (`Parse.command_fileName`, `Parse.command_localArg`).
-/

namespace LimeOS

/-! ## Comparing strings -/

theorem toI8_inj {x y : Byte} : toI8 x - toI8 y = 0 ↔ x = y := by
  rw [Int.sub_eq_zero, toI8, toI8, BitVec.toInt_inj]

/-- Comparing with bytes that are not NUL. -/
theorem strncmpFrom_eq_zero {s₁ s₂ : Nat → Byte} : ∀ (n i : Nat), (∀ j, i ≤ j → j < i + n → s₂ j ≠ 0#8) →
    (strncmpFrom s₁ s₂ n i = 0 ↔ ∀ j, i ≤ j → j < i + n → s₁ j = s₂ j)
  | 0, i, _ => ⟨fun _ j h₁ h₂ => by omega, fun _ => rfl⟩
  | n + 1, i, h₀ => by
    have hi := h₀ i (Nat.le_refl i) (by omega)
    have ih : strncmpFrom s₁ s₂ n (i + 1) = 0 ↔ ∀ j, i + 1 ≤ j → j < i + 1 + n → s₁ j = s₂ j :=
      strncmpFrom_eq_zero n (i + 1) fun j h₁ h₂ => h₀ j (by omega) (by omega)
    rw [strncmpFrom]
    split
    · rename_i hne
      rw [toI8_inj]
      constructor
      · intro e
        rcases hne with hne | hne
        · exact absurd e hne
        · exact absurd (e.symm.trans hne) hi
      · exact fun h => h i (Nat.le_refl i) (by omega)
    · rename_i he
      rw [not_or, not_not] at he
      rw [ih]
      constructor
      · intro h j h₁ h₂
        rcases Nat.eq_or_lt_of_le h₁ with rfl | h₁
        · exact he.1
        · exact h j h₁ (by omega)
      · exact fun h j h₁ h₂ => h j (by omega) (by omega)

/-- A comparison with the whole of a string is one with a start of the other. -/
theorem strncmp_eq_zero {name w : List Byte} (h₀ : 0#8 ∉ w) :
    strncmp (name.getD · 0#8) (w.getD · 0#8) w.length = 0 ↔ w <+: name := by
  have hw : ∀ j (hj : j < w.length), w.getD j 0#8 = w[j] := fun j hj => by
    rw [List.getD_eq_getElem?_getD, List.getElem?_eq_getElem hj, Option.getD_some]
  have hne : ∀ j (hj : j < w.length), w[j] ≠ 0#8 := fun j hj e => h₀ (e ▸ List.getElem_mem hj)
  rw [strncmp, strncmpFrom_eq_zero, List.prefix_iff_getElem?]
  · constructor
    · intro h j hj
      have hb := h j (Nat.zero_le j) (by omega)
      rw [hw j hj, List.getD_eq_getElem?_getD] at hb
      cases hn : name[j]? with
      | none =>
        rw [hn] at hb
        exact absurd hb.symm (hne j hj)
      | some b =>
        rw [hn] at hb
        exact congrArg some hb
    · intro h j _ hj
      rw [Nat.zero_add] at hj
      rw [hw j hj, List.getD_eq_getElem?_getD, h j hj, Option.getD_some]
  · intro j _ hj
    rw [Nat.zero_add] at hj
    rw [hw j hj]
    exact hne j hj

namespace Parse

/-! ## The three parts -/

theorem name_foldl : ∀ (l : List Byte) (p : Parse), (∀ c ∈ l, c ≠ 0x20#8) → p.spaces = 0 →
    l.foldl step p = { p with fileName := p.fileName.storeList p.i l, i := p.i + l.length }
  | [], _, _, _ => rfl
  | c :: l, p, hl, hs => by
    have hc : p.step c = { p with fileName := p.fileName.store p.i c, i := p.i + 1 } := by
      rw [step, if_pos ⟨hl c List.mem_cons_self, hs⟩]
    have ih := name_foldl l (p.step c) (fun d hd => hl d (List.mem_cons_of_mem _ hd)) (by rw [hc]; exact hs)
    rw [List.foldl_cons, ih, hc, List.length_cons]
    simp only [Mem.storeList, Parse.mk.injEq, true_and, and_true]
    omega

/-- The spaces after the first one. -/
theorem moreSpaces_foldl : ∀ (n : Nat) (p : Parse), 0 < p.spaces → p.localArgStartFlag = false → 1 < p.endOfFileName →
    (List.replicate n 0x20#8).foldl step p =
      { p with spaces := p.spaces + n, endOfFileName := p.endOfFileName + n, i := p.i + n }
  | 0, _, _, _, _ => rfl
  | n + 1, p, hs, hf, he => by
    have hc : p.step 0x20#8 =
        { p with spaces := p.spaces + 1, endOfFileName := p.endOfFileName + 1, i := p.i + 1 } := by
      have he' : ¬ p.endOfFileName + 1 = 1 := by omega
      simp only [step, ne_eq, not_true, false_and, if_false, hf, he', and_self, if_true, Bool.false_eq_true, or_false]
    have ih := moreSpaces_foldl n (p.step 0x20#8) (by rw [hc]; simp) (by rw [hc]; exact hf)
      (by rw [hc]; simp only; omega)
    rw [List.replicate_succ, List.foldl_cons, ih, hc]
    simp only [Parse.mk.injEq, true_and, and_true]
    omega

/-- The spaces after the name. -/
theorem spaces_foldl (n : Nat) (p : Parse) (hs : p.spaces = 0) (hf : p.localArgStartFlag = false)
    (he : p.endOfFileName = 0) :
    ((List.replicate (n + 1) 0x20#8).foldl step p) =
      { p with
        fileName := p.fileName.store p.i 0#8
        fileLength := p.i
        spaces := n + 1
        endOfFileName := n + 2
        i := p.i + (n + 1) } := by
  have hc : p.step 0x20#8 = { p with
      fileName := p.fileName.store p.i 0#8
      fileLength := p.i
      spaces := 1
      endOfFileName := 2
      i := p.i + 1 } := by
    simp only [step, ne_eq, not_true, false_and, if_false, hf, hs, he, and_self, if_true, Bool.false_eq_true, or_false]
  have hm := moreSpaces_foldl n (p.step 0x20#8) (by rw [hc]; simp) (by rw [hc]; exact hf) (by rw [hc]; simp)
  rw [List.replicate_succ, List.foldl_cons, hm, hc]
  simp only [Parse.mk.injEq, true_and, and_true]
  omega

/-- The arguments, from the first byte that is no space. -/
theorem moreArgs_foldl : ∀ (l : List Byte) (p : Parse) (j : Nat), 0 < p.spaces → p.localArgStartFlag = true →
    1 < p.endOfFileName → p.i = p.fileLength + p.spaces + j → j + l.length < 2 ^ 32 →
    l.foldl step p =
      { p with
        localArg := p.localArg.storeList j l
        endOfFileName := p.endOfFileName + l.length
        i := p.i + l.length }
  | [], _, _, _, _, _, _, _ => rfl
  | c :: l, p, j, hs, hf, he, hi, hj => by
    have hx : toU32 ((p.i : Int) - (p.fileLength + p.spaces)) = j := by
      simp only [toU32]
      rw [List.length_cons] at hj
      omega
    have hc : p.step c = { p with
        localArg := p.localArg.store j c
        endOfFileName := p.endOfFileName + 1
        i := p.i + 1 } := by
      have he' : ¬ p.endOfFileName + 1 = 1 := by omega
      rw [step, if_neg (by omega)]
      simp only [hf, he', Bool.true_eq_false, and_false, if_false, or_true, if_true, argIndex, hx]
    have ih := moreArgs_foldl l (p.step c) (j + 1) (by rw [hc]; exact hs) (by rw [hc]; exact hf)
      (by rw [hc]; simp only; omega) (by rw [hc]; simp only; omega) (by rw [List.length_cons] at hj; omega)
    rw [List.foldl_cons, ih, hc, List.length_cons]
    simp only [Mem.storeList, Parse.mk.injEq, true_and, and_true]
    omega

theorem args_foldl {c : Byte} (l : List Byte) (p : Parse) (hc : c ≠ 0x20#8) (hs : 0 < p.spaces)
    (he : 1 < p.endOfFileName) (hi : p.i = p.fileLength + p.spaces) (hl : (c :: l).length < 2 ^ 32) :
    ((c :: l).foldl step p) =
      { p with
        localArg := p.localArg.storeList 0 (c :: l)
        endOfFileName := p.endOfFileName + (c :: l).length
        i := p.i + (c :: l).length
        localArgStartFlag := true } := by
  have hx : toU32 ((p.i : Int) - (p.fileLength + p.spaces)) = 0 := by
    simp only [toU32]
    omega
  have hc' : p.step c = { p with
      localArg := p.localArg.store 0 c
      endOfFileName := p.endOfFileName + 1
      i := p.i + 1
      localArgStartFlag := true } := by
    have he' : ¬ p.endOfFileName + 1 = 1 := by omega
    rw [step, if_neg (by omega)]
    simp only [hc, he', false_and, if_false, ne_eq, not_false_iff, true_or, if_true, argIndex, hx]
  have hm := moreArgs_foldl l (p.step c) 1 (by rw [hc']; exact hs) (by rw [hc']) (by rw [hc']; simp only; omega)
    (by rw [hc']; simp only; omega) (by rw [List.length_cons] at hl; omega)
  rw [List.foldl_cons, hm, hc', List.length_cons]
  simp only [Mem.storeList, Parse.mk.injEq, true_and, and_true]
  omega

/-- What has been stored stays stored. -/
theorem stored_subset (l : List Byte) : ∀ p : Parse,
    p.fileName.stored ⊆ (l.foldl step p).fileName.stored ∧ p.localArg.stored ⊆ (l.foldl step p).localArg.stored := by
  have hstep : ∀ (p : Parse) (c : Byte),
      p.fileName.stored ⊆ (p.step c).fileName.stored ∧ p.localArg.stored ⊆ (p.step c).localArg.stored := by
    intro p c
    unfold step
    simp only
    constructor <;> split_ifs <;> simp
  induction l with
  | nil => exact fun p => ⟨fun _ h => h, fun _ h => h⟩
  | cons c l ih =>
    exact fun p => ⟨fun _ h => (ih _).1 ((hstep p c).1 h), fun _ h => (ih _).2 ((hstep p c).2 h)⟩

end Parse

/-! ## Commands -/

/-- A command is its name, spaces and its arguments; without spaces it has none. -/
theorem command_shape (l : List Byte) : ∃ n, l = commandName l ++ (List.replicate n 0x20#8 ++ commandArgs l) ∧
    (n = 0 → commandArgs l = []) ∧ (∀ c ∈ commandName l, c ≠ 0x20#8) ∧ ∀ c ∈ (commandArgs l).head?, c ≠ 0x20#8 := by
  have hs := List.eq_replicate_of_mem (a := 0x20#8)
    (l := (l.dropWhile (· ≠ 0x20#8)).takeWhile (· = 0x20#8)) fun c hc => by simpa using List.mem_takeWhile_imp hc
  refine ⟨((l.dropWhile (· ≠ 0x20#8)).takeWhile (· = 0x20#8)).length, ?_, fun hn => ?_,
    fun c hc => by simpa using List.mem_takeWhile_imp hc, fun c hc => ?_⟩
  · rw [← hs, commandArgs, List.takeWhile_append_dropWhile, commandName, List.takeWhile_append_dropWhile]
  · -- what follows the name starts with a space or is empty
    cases hr : l.dropWhile (· ≠ 0x20#8) with
    | nil => rw [commandArgs, hr, List.dropWhile_nil]
    | cons c r =>
      have hc := List.head?_dropWhile_not (· ≠ 0x20#8) l
      rw [hr] at hn hc
      simp only [List.head?_cons, decide_eq_false_iff_not, not_not] at hc
      rw [hc, List.takeWhile_cons_of_pos (by simp)] at hn
      exact absurd hn (by simp)
  · have hd := List.head?_dropWhile_not (· = 0x20#8) (l.dropWhile (· ≠ 0x20#8))
    rw [commandArgs] at hc
    rw [Option.mem_def.mp hc] at hd
    simpa using hd

theorem strcpyFrom_eq : ∀ (l : List Byte) (dest : Mem) (i : Nat),
    strcpyFrom dest i l = (dest.storeList i l).store (i + l.length) 0#8
  | [], dest, i => rfl
  | b :: l, dest, i => by
    rw [strcpyFrom, strcpyFrom_eq l, Mem.storeList, List.length_cons, show i + 1 + l.length = i + (l.length + 1) by omega]

namespace Parse

variable {k : ExecuteFrame} {command : CString}

/-- The variables before the loop. -/
def init (k : ExecuteFrame) : Parse := ⟨Mem.fresh k.localArg, Mem.fresh k.fileName, 0, 0, 0, 0, false⟩

/-- The loop over a name and at least one space. -/
theorem nameSpaces_foldl {name : List Byte} (hn : ∀ c ∈ name, c ≠ 0x20#8) (n : Nat) :
    (name ++ List.replicate (n + 1) 0x20#8).foldl step (init k) =
      ⟨Mem.fresh k.localArg, ((Mem.fresh k.fileName).storeList 0 name).store name.length 0#8, name.length, n + 1,
        name.length + (n + 1), n + 2, false⟩ := by
  rw [List.foldl_append, name_foldl name (init k) hn rfl, spaces_foldl n _ rfl rfl rfl]
  simp only [init, Nat.zero_add]

/-- What the arrays hold after the parsing. -/
theorem command_eq (k : ExecuteFrame) {command : CString} (ha : (commandArgs command.1).length < 2 ^ 32) :
    let name := commandName command.1
    let args := commandArgs command.1
    (Parse.command k command).fileName = ((Mem.fresh k.fileName).storeList 0 name).store name.length 0#8 ∧
      (args = [] → (Parse.command k command).localArgStartFlag = false ∧
        ∃ j ≤ name.length, (Parse.command k command).localArg = (Mem.fresh k.localArg).store j 0#8) ∧
      (args ≠ [] → (Parse.command k command).localArgStartFlag = true ∧
        (Parse.command k command).localArg = ((Mem.fresh k.localArg).storeList 0 args).store args.length 0#8) := by
  intro name args
  obtain ⟨n, hl, h₀, hn, hh⟩ := command_shape command.1
  simp only [Parse.command, argIndex]
  rw [show (⟨Mem.fresh k.localArg, Mem.fresh k.fileName, 0, 0, 0, 0, false⟩ : Parse) = init k from rfl, hl]
  cases n with
  | zero =>
    have hargs : args = [] := h₀ rfl
    rw [List.replicate_zero, List.nil_append, h₀ rfl, List.append_nil, name_foldl _ (init k) hn rfl]
    refine ⟨by simp [init, name], fun _ => ⟨by simp [init], toU32 name.length, ?_, by simp [init, name]⟩,
      fun h => absurd hargs h⟩
    simp only [toU32]
    omega
  | succ n =>
    rw [← List.append_assoc, List.foldl_append, nameSpaces_foldl hn]
    cases hargs : commandArgs command.1 with
    | nil =>
      refine ⟨by simp [name], fun _ => ⟨by simp, 0, Nat.zero_le _, ?_⟩, fun h => absurd hargs h⟩
      simp [toU32]
    | cons c r =>
      rw [hargs] at hh ha
      rw [args_foldl r _ (hh c rfl) (by simp) (by simp) rfl ha]
      have hx : toU32 (((commandName command.1).length + (n + 1) + (c :: r).length : Nat) -
          ((commandName command.1).length + ((n + 1 : Nat) : Int))) = (c :: r).length := by
        simp only [toU32]
        push_cast
        omega
      refine ⟨by simp [name], fun h => absurd (hargs.symm.trans h) (by simp), fun _ => ⟨by simp, ?_⟩⟩
      simp only [Nat.succ_ne_zero, if_false, hx, args, hargs]

/-- Longer arguments than an address reaches have run past the array long before. -/
theorem args_length_lt (h : (Parse.command k command).overruns = false) :
    (commandArgs command.1).length < 2 ^ 32 := by
  by_contra hlen
  obtain ⟨n, hl, h₀, hn, hh⟩ := command_shape command.1
  cases n with
  | zero =>
    rw [h₀ rfl] at hlen
    exact hlen (by simp)
  | succ n =>
    cases hargs : commandArgs command.1 with
    | nil =>
      rw [hargs] at hlen
      exact hlen (by simp)
    | cons c r =>
      rw [hargs] at hh hlen hl
      have hr : r = r.take 128 ++ r.drop 128 := (List.take_append_drop 128 r).symm
      have hlen' : (c :: r.take 128).length = 129 := by
        rw [List.length_cons] at hlen
        rw [List.length_cons, List.length_take]
        omega
      -- the 129th byte is stored past the array, and stays stored
      have hmem : 128 ∈ (command.1.foldl step (init k)).localArg.stored := by
        rw [hl, ← List.append_assoc, List.foldl_append, nameSpaces_foldl hn, hr, ← List.cons_append, List.foldl_append]
        refine (stored_subset _ _).2 ?_
        rw [args_foldl _ _ (hh c rfl) (by simp) (by simp) rfl (by omega)]
        exact (Mem.mem_storeList_stored _ _ _).mpr (.inl (by omega))
      have hany : (Parse.command k command).localArg.stored.any (· ≥ MAX_LENGTH_ARG) = true := by
        refine List.any_eq_true.mpr ⟨128, ?_, by decide⟩
        unfold Parse.command
        simp only
        split
        · exact List.mem_cons_of_mem _ hmem
        · exact List.mem_cons_of_mem _ hmem
      rw [overruns, hany, Bool.or_true] at h
      cases h

/-- Parsing that stays inside its arrays: the name and the arguments fit. -/
theorem length_lt (h : (Parse.command k command).overruns = false) :
    (commandName command.1).length < MAX_NAME_LENGTH ∧ (commandArgs command.1).length < MAX_LENGTH_ARG := by
  obtain ⟨hf, -, ha⟩ := command_eq k (args_length_lt h)
  rw [overruns, Bool.or_eq_false_iff, List.any_eq_false, List.any_eq_false] at h
  obtain ⟨h₁, h₂⟩ := h
  simp only [decide_eq_true_eq, not_le, ge_iff_le] at h₁ h₂
  refine ⟨h₁ _ (by rw [hf]; exact List.mem_cons_self), ?_⟩
  by_cases hargs : commandArgs command.1 = []
  · rw [hargs]
    decide
  · exact h₂ _ (by rw [(ha hargs).2]; exact List.mem_cons_self)

/-- A name and arguments that fit are parsed inside the arrays. -/
theorem overruns_eq_false (k : ExecuteFrame) {command : CString}
    (hn : (commandName command.1).length < MAX_NAME_LENGTH)
    (ha : (commandArgs command.1).length < MAX_LENGTH_ARG) : (Parse.command k command).overruns = false := by
  have hlen : (commandArgs command.1).length < 2 ^ 32 := by
    simp only [MAX_LENGTH_ARG] at ha
    omega
  obtain ⟨hf, h₀, h₁⟩ := command_eq k hlen
  simp only [MAX_NAME_LENGTH, MAX_LENGTH_ARG] at hn ha
  rw [overruns, Bool.or_eq_false_iff, List.any_eq_false, List.any_eq_false]
  simp only [decide_eq_true_eq, not_le, ge_iff_le, MAX_NAME_LENGTH, MAX_LENGTH_ARG]
  constructor
  · intro a h
    rw [hf, Mem.store_stored, List.mem_cons, Mem.mem_storeList_stored, Mem.fresh_stored] at h
    simp only [List.not_mem_nil, or_false] at h
    omega
  · intro a h
    by_cases hargs : commandArgs command.1 = []
    · obtain ⟨-, j, hj, e⟩ := h₀ hargs
      rw [e, Mem.store_stored, Mem.fresh_stored, List.mem_singleton] at h
      omega
    · rw [(h₁ hargs).2, Mem.store_stored, List.mem_cons, Mem.mem_storeList_stored, Mem.fresh_stored] at h
      simp only [List.not_mem_nil, or_false] at h
      omega

theorem not_mem_commandName (command : CString) : 0#8 ∉ commandName command.1 :=
  fun h => command.2 ((List.takeWhile_sublist _).subset h)

theorem not_mem_commandArgs (command : CString) : 0#8 ∉ commandArgs command.1 :=
  fun h => command.2 ((List.dropWhile_sublist _).subset ((List.dropWhile_sublist _).subset h))

/-- The string of bytes stored from the start of an array, with a NUL after them. -/
theorem cstr_storeList {f : Nat → Byte} {l : List Byte} {n : Nat} (hl : l.length < n) (h₀ : 0#8 ∉ l) :
    (Mem.cstr (((Mem.fresh f).storeList 0 l).store l.length 0#8).byte n).1 = l :=
  Mem.cstr_eq hl h₀ (fun _ hj => Mem.storeString_byte _ _ hj) (Mem.store_byte_self _ _ _)

theorem command_fileName (h : (Parse.command k command).overruns = false) :
    (Mem.cstr (Parse.command k command).fileName.byte MAX_NAME_LENGTH).1 = commandName command.1 := by
  rw [(command_eq k (args_length_lt h)).1]
  exact cstr_storeList (length_lt h).1 (not_mem_commandName command)

theorem command_localArg (h : (Parse.command k command).overruns = false) (ha : commandArgs command.1 ≠ []) :
    (Parse.command k command).localArgStartFlag = true ∧
      (Mem.cstr (Parse.command k command).localArg.byte MAX_LENGTH_ARG).1 = commandArgs command.1 := by
  obtain ⟨hs, e⟩ := (command_eq k (args_length_lt h)).2.2 ha
  rw [e]
  exact ⟨hs, cstr_storeList (length_lt h).2 (not_mem_commandArgs command)⟩

theorem command_no_localArg (h : (Parse.command k command).overruns = false) (ha : commandArgs command.1 = []) :
    (Parse.command k command).localArgStartFlag = false :=
  ((command_eq k (args_length_lt h)).2.1 ha).1

end Parse

end LimeOS
