import LimeOS.Proof.Switch
import LimeOS.Proof.Descriptors

/-!
# What `read` stores

In every state the kernel reaches, from any image, the entries in use of every
process have whole jump tables (`Tables`). So a `read` goes to one of four
drivers. Those of files and of the RTC keep to the caller's count; those of the
keyboard and of directories ignore it, and keep to it exactly when the line or
the name fits (`read_respects_iff`).
-/

namespace LimeOS

/-! ## The tables of all processes -/

/-- The descriptors of every process are free or in use with a whole table. -/
def Tables (img : Image) (s : State) : Prop := ∀ p, Slots img (s.pcb p).fdEntry

section

variable {img : Image} {s s' : State}

namespace Tables

theorem still (h : Tables img s) (hs : Still s s') : Tables img s' := by
  intro p
  rw [hs.pcb]
  exact h p

theorem fdCall (h : Tables img s) {c : FdCall} {r : Int × Option Mem × State} (hc : fdCall img s c = .ok r) :
    Tables img r.2.2 := by
  intro p
  by_cases hp : p = s.currentPid
  · have hm := (fdCall_move hc).slots (h s.currentPid)
    rw [hp]
    rwa [State.curPcb, (fdCall_steady hc).currentPid] at hm
  · rw [(fdCall_steady hc).other p hp]
    exact h p

theorem getargs (h : Tables img s) (buf : Option Mem) (nbytes : Int) : Tables img (getargs s buf nbytes).2.2 := by
  intro p
  cases buf with
  | none => exact h p
  | some m =>
    simp only [LimeOS.getargs]
    split
    · exact h p
    · simp only [State.setPcb, Function.update_apply]
      split
      · exact h s.currentPid
      · exact h p

/-- A process is started with the table of `setup_PCB`. -/
theorem started (h : Tables img s) (k : ExecuteFrame) (n : Nat) (page args : Nat → Byte) :
    Tables img (started s k n page args) := by
  intro p
  simp only [LimeOS.started, Function.update_apply]
  split
  · exact (DescriptorTable.standard img _).slots
  · exact h p

theorem saveContext (h : Tables img s) (esp ebp : Nat) : Tables img (saveContext s esp ebp) := by
  intro p
  rw [saveContext_pcb]
  split
  · exact h p
  · exact h p

theorem status (h : Tables img s) (p : Int) (v : Nat) :
    Tables img (s.setPcb p { s.pcb p with returnValue := v }) := by
  intro q
  simp only [State.setPcb, Function.update_apply]
  split
  · exact h p
  · exact h q

theorem keeping (img : Image) : Keeping img (Tables img) where
  screen hf h := h.still hf.still
  start k page args _ h := h.started k _ page args
  load _ _ h := h
  status p v h := h.status p v
  close hc h := h.fdCall (c := .close _) (by rw [LimeOS.fdCall, hc]; rfl)
  free h := h
  resume h := h
  save esp ebp h := h.saveContext esp ebp
  shell _ _ _ h := h
  back h := h
  dispatch {s} h := by
    obtain ⟨s', hd, he⟩ := dispatch_eq s
    rw [he]
    intro p
    show Slots img (s'.pcb p).fdEntry
    rw [hd.pcb]
    exact h p
  key c h := h.still (keyboardHandler_still _ c)
  rtc h := h.still (rtcHandler_still _)
  fd hc h := h.fdCall hc
  getargs buf nbytes h := h.getargs buf nbytes
  vidmap hv h := h.still (vidmap_still hv)
  caught hc h := h.still hc.still

/-- The tables of every state the kernel reaches. -/
theorem reached {es : List Step} (hr : run (step img) boot es = some s) : Tables img s :=
  run_inv (keeping img).step (fun _ _ _ => .inl rfl) hr

end Tables

end

/-! ## The drivers -/

/-- `terminal_read`'s loop ends after the first newline, or leaves the array if there is none. -/
theorem copyLine_spec (line : Nat → Byte) : ∀ (n i : Nat) (buf : Mem),
    match copyLine line n i buf with
    | some (j, m) => i < j ∧ j ≤ i + n ∧ line (j - 1) = 0x0a#8 ∧ (∀ k, i ≤ k → k + 1 < j → line k ≠ 0x0a#8) ∧
        ∀ a ∈ m.stored, a < j ∨ a ∈ buf.stored
    | none => ∀ k, i ≤ k → k < i + n → line k ≠ 0x0a#8
  | 0, i, buf => fun k h₁ h₂ => by omega
  | n + 1, i, buf => by
    rw [copyLine]
    by_cases hl : line i = 0x0a#8
    · rw [if_pos hl]
      refine ⟨by omega, by omega, by simpa using hl, fun k h₁ h₂ => by omega, fun a ha => ?_⟩
      rcases List.mem_cons.mp ha with rfl | ha
      · exact .inl (Nat.lt_succ_self _)
      · exact .inr ha
    rw [if_neg hl]
    have ih := copyLine_spec line n (i + 1) (buf.store i (line i))
    generalize copyLine line n (i + 1) (buf.store i (line i)) = o at ih
    cases o with
    | none =>
      intro k h₁ h₂
      by_cases hk : k = i
      · rwa [hk]
      · exact ih k (by omega) (by omega)
    | some r =>
      obtain ⟨h₁, h₂, h₃, h₄, h₅⟩ := ih
      refine ⟨by omega, by omega, h₃, fun k hk₁ hk₂ => ?_, fun a ha => ?_⟩
      · by_cases hk : k = i
        · rwa [hk]
        · exact h₄ k (by omega) hk₂
      · rcases h₅ a ha with h | h
        · exact .inl h
        · rcases List.mem_cons.mp h with rfl | h
          · exact .inl (by omega)
          · exact .inr h

theorem copyName_spec : ∀ (name : List Byte) (buf : Mem) (i : Nat),
    (copyName buf i name).1 = i + (untilNul name).length ∧
      ∀ a ∈ (copyName buf i name).2.stored, a < (copyName buf i name).1 ∨ a ∈ buf.stored
  | [], buf, i => ⟨rfl, fun a ha => .inr ha⟩
  | b :: name, buf, i => by
    rw [copyName, untilNul]
    by_cases hb : b = 0#8
    · rw [if_pos hb, List.takeWhile_cons_of_neg (by simpa using hb)]
      exact ⟨rfl, fun a ha => .inr ha⟩
    · obtain ⟨h₁, h₂⟩ := copyName_spec name (buf.store i b) (i + 1)
      rw [if_neg hb, List.takeWhile_cons_of_pos (by simpa using hb), List.length_cons]
      refine ⟨by rw [h₁, untilNul]; omega, fun a ha => ?_⟩
      rcases h₂ a ha with h | h
      · exact .inl h
      · rcases List.mem_cons.mp h with rfl | h
        · exact .inl (by omega)
        · exact .inr h

/-! ## The caller's count -/

/-- The call stored only below `nbytes` and returned `-1` or a count up to `nbytes`. -/
def Respects (nbytes : Int) (r : Except Fault (Int × Option Mem × State)) : Prop :=
  ∃ v m s', r = .ok (v, some m, s') ∧ (∀ a ∈ m.stored, (a : Int) < nbytes) ∧ (v = -1 ∨ 0 ≤ v ∧ v ≤ nbytes)

/-- What the caller asks for is enough: a line typed for the keyboard's driver ends below
`nbytes`, and the next name of a directory is no longer than `nbytes`. -/
def ReadFits (img : Image) (e : FdEntry) (nbytes : Int) (line : Nat → Byte) : Prop :=
  e.flags = .IN_USE →
    (e.operationsPointer = stdinTable → ∃ k < CHARACTER_BUFFER_SIZE, (k : Int) < nbytes ∧ line k = 0x0a#8) ∧
    (e.operationsPointer = directoryTable → e.filePosition < img.dentryCount →
      ((entryName img e.filePosition.toNat).length : Int) ≤ nbytes)

section

variable {img : Image} {s : State} {fd : Nat} {buf : Nat → Byte} {nbytes : Int} {line : Nat → Byte}

theorem Respects.error (f : Fault) : ¬ Respects nbytes (.error f) := by
  rintro ⟨v, m, s', h, -⟩
  cases h

theorem respects_ok {v : Int} {m : Mem} {s' : State} : Respects nbytes (.ok (v, some m, s')) ↔
    (∀ a ∈ m.stored, (a : Int) < nbytes) ∧ (v = -1 ∨ 0 ≤ v ∧ v ≤ nbytes) := by
  constructor
  · rintro ⟨v, m, s', h, hm, hv⟩
    cases h
    exact ⟨hm, hv⟩
  · intro h
    exact ⟨v, m, s', rfl, h⟩

/-- Nothing is stored. -/
theorem respects_fresh {v : Int} (s' : State) (h : v = -1 ∨ 0 ≤ v ∧ v ≤ nbytes) :
    Respects nbytes (.ok (v, some (.fresh buf), s')) := by
  refine respects_ok.mpr ⟨fun a ha => ?_, h⟩
  cases ha

theorem terminalRead_respects (s : State) (buf : Nat → Byte) :
    Respects nbytes (terminalRead s (some (.fresh buf)) line) ↔
      ∃ k < CHARACTER_BUFFER_SIZE, (k : Int) < nbytes ∧ line k = 0x0a#8 := by
  have hspec := copyLine_spec line CHARACTER_BUFFER_SIZE 0 (.fresh buf)
  simp only [terminalRead]
  generalize copyLine line CHARACTER_BUFFER_SIZE 0 (.fresh buf) = o at hspec
  cases o with
  | none =>
    refine ⟨fun h => absurd h (Respects.error _), ?_⟩
    rintro ⟨k, hk, -, hl⟩
    exact absurd hl (hspec k (Nat.zero_le k) (by omega))
  | some r =>
    obtain ⟨h₁, h₂, h₃, h₄, h₅⟩ := hspec
    simp only [CHARACTER_BUFFER_SIZE] at *
    refine respects_ok.trans ⟨?_, ?_⟩
    · rintro ⟨-, hv⟩
      exact ⟨r.1 - 1, by omega, by omega, h₃⟩
    · rintro ⟨k, hk, hkn, hl⟩
      -- the first newline is not after this one
      have hj : r.1 ≤ k + 1 := by
        by_contra hj
        exact h₄ k (Nat.zero_le k) (by omega) hl
      refine ⟨fun a ha => ?_, by omega⟩
      rcases h₅ a ha with h | h
      · omega
      · cases h

theorem readFile_respects (h₀ : 0 ≤ nbytes) (h₁ : nbytes < 2 ^ 31) (s : State) (fd : Nat) (buf : Nat → Byte) :
    Respects nbytes (callRead img .readFile s fd (some (.fresh buf)) nbytes line) := by
  simp only [callRead, callRead.store, readFile, readData_eq]
  rw [toU32_of_nonneg h₀ (by omega)]
  generalize hk : min nbytes.toNat _ = k
  rw [toI32_natCast (by omega)]
  refine respects_ok.mpr ⟨fun a ha => ?_, by omega⟩
  rcases (Mem.mem_storeList_stored _ _ _).mp ha with ⟨-, h⟩ | h
  · rw [length_fileSlice] at h
    omega
  · cases h

theorem readDirectory_respects {e : FdEntry} (he : s.curPcb.fdEntry fd = e)
    (hp : 0 ≤ e.filePosition ∧ e.filePosition ≤ img.dentryCount) (h₀ : 0 ≤ nbytes) :
    Respects nbytes (callRead img .readDirectory s fd (some (.fresh buf)) nbytes line) ↔
      (e.filePosition < img.dentryCount → ((entryName img e.filePosition.toNat).length : Int) ≤ nbytes) := by
  simp only [callRead, callRead.store, readDirectory, he]
  by_cases hc : e.filePosition ≥ img.dentryCount
  · rw [if_pos hc]
    exact ⟨fun _ h => by omega, fun _ => respects_fresh s (by omega)⟩
  have hlt := toI32_lt (img.word 0)
  have hi : ¬ toU32 e.filePosition > toU32 img.dentryCount := by
    simp only [Image.dentryCount] at *
    rw [toU32_of_nonneg hp.1 (by omega), toU32_of_nonneg (by omega) (by omega)]
    omega
  have hpos : toU32 e.filePosition = e.filePosition.toNat := by
    simp only [Image.dentryCount] at *
    exact toU32_of_nonneg hp.1 (by omega)
  rw [if_neg hc]
  simp only [readDentryByIndex, if_neg hi]
  rw [hpos]
  obtain ⟨hn, hm⟩ := copyName_spec (dentryAt img e.filePosition.toNat).fileName (.fresh buf) 0
  rw [Nat.zero_add] at hn
  simp only [entryName]
  refine respects_ok.trans ⟨fun h _ => ?_, fun h => ⟨fun a ha => ?_, ?_⟩⟩
  · rw [hn] at h
    omega
  · have := h (by omega)
    rcases hm a ha with ha | ha
    · omega
    · cases ha
  · have := h (by omega)
    omega

end

/-- In every state the kernel reaches, a `read` of any descriptor stores only into the
buffer it is given and returns a count within it exactly when what it reads fits. -/
theorem read_respects_iff {img : Image} {es : List Step} {s : State} (hr : run (step img) boot es = some s) {fd : Nat}
    (hfd : fd < MAX_FD_NUM) (buf : Nat → Byte) {nbytes : Int} (h₀ : 0 ≤ nbytes) (h₁ : nbytes < 2 ^ 31)
    (line : Nat → Byte) :
    Respects nbytes (sysRead img s fd (some (.fresh buf)) nbytes line) ↔
      ReadFits img (s.curPcb.fdEntry fd) nbytes line := by
  have hslots : Slots img s.curPcb.fdEntry := Tables.reached hr s.currentPid
  simp only [sysRead, Int.toNat_natCast]
  by_cases h1 : fd = 1
  · -- the standard output is not read
    subst h1
    rw [if_pos (.inr (.inr rfl))]
    refine ⟨fun _ hu => ?_, fun _ => respects_fresh s (.inl rfl)⟩
    have ht := (hslots.used hfd hu).2
    constructor
    · intro h
      rw [ht] at h
      cases h
    · intro h
      rw [ht] at h
      cases h
  rw [if_neg (by simp only [MAX_FD_NUM] at *; omega)]
  by_cases hf : (s.curPcb.fdEntry fd).flags = .FREE
  · rw [if_pos hf]
    refine ⟨fun _ hu => ?_, fun _ => respects_fresh s (.inl rfl)⟩
    rw [hf] at hu
    cases hu
  rw [if_neg hf]
  have hu := PidStatus.ne_FREE.mp hf
  have ho := hslots.used hfd hu
  rcases fd with _ | _ | n
  · have ht := ho.2
    rw [ht]
    refine (terminalRead_respects s buf).trans ⟨fun h _ => ⟨fun _ => h, fun h => ?_⟩, fun h => (h hu).1 ht⟩
    rw [ht] at h
    cases h
  · exact absurd rfl h1
  · have hno : (s.curPcb.fdEntry (n + 2)).operationsPointer ≠ stdinTable := by
      intro h
      rcases ho.table with h' | h' | h' <;> rw [h'] at h <;> cases h
    have htrue : (s.curPcb.fdEntry (n + 2)).operationsPointer ≠ directoryTable →
        ReadFits img (s.curPcb.fdEntry (n + 2)) nbytes line :=
      fun hd _ => ⟨fun h => absurd h hno, fun h => absurd h hd⟩
    rcases ho.table with ht | ht | ht
    · have hfits := htrue (by rw [ht]; decide)
      rw [ht]
      exact ⟨fun _ => hfits, fun _ => respects_fresh _ (.inr ⟨Int.le_refl 0, h₀⟩)⟩
    · rw [ht]
      refine (readDirectory_respects rfl (ho.directory ht) h₀).trans
        ⟨fun h _ => ⟨fun h => absurd h hno, fun _ => h⟩, fun h => (h hu).2 ht⟩
    · have hfits := htrue (by rw [ht]; decide)
      rw [ht]
      exact ⟨fun _ => hfits, fun _ => readFile_respects h₀ h₁ s _ buf⟩

/-- The first tick from boot has started a shell. -/
def shellRuns : State := (run (step shellImage) boot [.tick 0 0 emptyFrame]).getD boot

/-- What the keys `a`, `b` and Enter leave for the shell to read. -/
def typedLine : Nat → Byte :=
  (((run (step shellImage) shellRuns [.key 0x1e#8, .key 0x30#8, .key 0x1c#8]).getD boot).commandBuf 0).byte

theorem shellRuns_eq : run (step shellImage) boot [.tick 0 0 emptyFrame] = some shellRuns := by
  obtain ⟨s, hs⟩ := Option.isSome_iff_exists.mp
    (show (run (step shellImage) boot [.tick 0 0 emptyFrame]).isSome by decide +kernel)
  rw [shellRuns, hs, Option.getD_some]

theorem read_respects_typedLine :
    (∃ k < CHARACTER_BUFFER_SIZE, ((k : Nat) : Int) < 3 ∧ typedLine k = 0x0a#8) ∧
      Respects 3 (sysRead shellImage shellRuns (0 : Nat) (some (.fresh fun _ => 0#8)) 3 typedLine) := by
  have hline : ∃ k < CHARACTER_BUFFER_SIZE, ((k : Nat) : Int) < 3 ∧ typedLine k = 0x0a#8 :=
    ⟨2, by decide, by decide, by decide +kernel⟩
  refine ⟨hline, (read_respects_iff shellRuns_eq (by decide) _ (by decide) (by decide) _).mpr fun _ => ⟨fun _ => hline, ?_⟩⟩
  intro h
  exact absurd h (by decide +kernel)

/-- The shell asks for one byte of the line and gets three. -/
theorem readByte_not_respects :
    run (step shellImage) boot [.tick 0 0 emptyFrame] = some shellRuns ∧
      (shellRuns.curPcb.fdEntry 0).flags = .IN_USE ∧
      ¬ Respects 1 (sysRead shellImage shellRuns (0 : Nat) (some (.fresh fun _ => 0#8)) 1 typedLine) := by
  have hv : (sysRead shellImage shellRuns (0 : Nat) (some (.fresh fun _ => 0#8)) 1 typedLine).toOption.map (·.1) =
      some 3 := by decide +kernel
  refine ⟨shellRuns_eq, by decide +kernel, ?_⟩
  rintro ⟨v, m, s', h, -, hle⟩
  rw [h] at hv
  obtain rfl := Option.some.inj hv
  omega

end LimeOS
