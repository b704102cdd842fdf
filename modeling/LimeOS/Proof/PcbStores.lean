import LimeOS.Impl.Pcb
import LimeOS.Proof.ReadBuffer

/-!
# The descriptors under the stores of `read`

A driver of `read` stores at the start of the buffer and nothing past the bytes that
it has (`sysRead_stored`). As long as these are not in the kernel's own memory, a call does
to the caller's table what it does in any buffer, and the table stays whole
(`descriptors_ok`). A buffer in the caller's control block makes it another one
(`descriptors_overwritten`).
-/

namespace LimeOS

/-- How many bytes `terminal_read` copies: the line, with its newline. -/
def lineLength (line : Nat → Byte) : Nat :=
  match (List.range CHARACTER_BUFFER_SIZE).find? fun k => line k = 0x0a#8 with
  | some k => k + 1
  | none => 0

/-- How many bytes a `READ` slot stores. -/
def readLength (img : Image) (e : FdEntry) (nbytes : Int) (line : Nat → Byte) : Nat :=
  match e.operationsPointer.READ with
  | some .terminalRead => lineLength line
  | some .readFile => min (toU32 nbytes) (inodeLength img (toU32 e.inodeIndex) - toU32 e.filePosition)
  | some .readDirectory =>
    if e.filePosition ≥ img.dentryCount then 0
    else
      match readDentryByIndex img (toU32 e.filePosition) with
      | some current => (untilNul current.fileName).length
      | none => 0
  | _ => 0

/-- No byte that a `read` stores is in the kernel's own memory. -/
def FdCall.Spares (img : Image) (s : State) : FdCall → Prop
  | .read fd (some b) nbytes line =>
    ∀ i < readLength img (s.curPcb.fdEntry fd.toNat) nbytes line, ∀ a, b.region i ≠ .kernel a
  | _ => True

section

variable {img : Image} {s s' : State}

theorem copyLine_stored {line : Nat → Byte} {f : Nat → Byte} {j : Nat} {m : Mem}
    (h : copyLine line CHARACTER_BUFFER_SIZE 0 (.fresh f) = some (j, m)) : ∀ i ∈ m.stored, i < lineLength line := by
  have hspec := copyLine_spec line CHARACTER_BUFFER_SIZE 0 (.fresh f)
  rw [h] at hspec
  obtain ⟨h₁, h₂, h₃, h₄, h₅⟩ := hspec
  have hfind : ((List.range CHARACTER_BUFFER_SIZE).find? fun k => line k = 0x0a#8) = some (j - 1) := by
    refine List.find?_range_eq_some.mpr ⟨by simpa using h₃, List.mem_range.mpr (by omega), fun k hk => ?_⟩
    simpa using h₄ k (Nat.zero_le k) (by omega)
  intro i hi
  rw [lineLength, hfind]
  rcases h₅ i hi with hi | hi
  · show i < j - 1 + 1
    omega
  · cases hi

/-- A driver stores nothing past the bytes that it has for the buffer. -/
theorem sysRead_stored {fd : Int} {f : Nat → Byte} {nbytes : Int} {line : Nat → Byte} {v : Int} {m : Mem}
    (h : sysRead img s fd (some (.fresh f)) nbytes line = .ok (v, some m, s')) :
    ∀ i ∈ m.stored, i < readLength img (s.curPcb.fdEntry fd.toNat) nbytes line := by
  have hfresh : m = .fresh f → ∀ i ∈ m.stored, i < readLength img (s.curPcb.fdEntry fd.toNat) nbytes line := by
    rintro rfl i hi
    cases hi
  rcases sysRead_eq_ok h with e | ⟨n, g, rfl, -, -, -, hg, hc⟩
  · cases e
    exact hfresh rfl
  rw [Int.toNat_natCast] at hfresh ⊢
  unfold readLength at hfresh ⊢
  rw [hg] at hfresh ⊢
  cases g with
  | nullFunc =>
    cases hc
    exact hfresh rfl
  | terminalRead =>
    simp only [callRead, terminalRead] at hc
    split at hc
    · cases hc
    · rename_i hl
      cases hc
      exact copyLine_stored hl
  | readRTC =>
    cases hc
    exact hfresh rfl
  | readFile =>
    simp only [callRead, callRead.store, readFile, readData_eq] at hc
    cases hc
    intro i hi
    rcases (Mem.mem_storeList_stored _ _ _).mp hi with ⟨-, hi⟩ | hi
    · rwa [length_fileSlice, Nat.zero_add] at hi
    · cases hi
  | readDirectory =>
    simp only [callRead, callRead.store, readDirectory] at hc hfresh ⊢
    by_cases hp : (s.curPcb.fdEntry n).filePosition ≥ img.dentryCount
    · rw [if_pos hp] at hc
      cases hc
      intro i hi
      cases hi
    rw [if_neg hp] at hc ⊢
    cases hd : readDentryByIndex img (toU32 (s.curPcb.fdEntry n).filePosition) with
    | none =>
      rw [hd] at hc
      cases hc
      intro i hi
      cases hi
    | some current =>
      rw [hd] at hc
      obtain ⟨hlen, hstored⟩ := copyName_spec current.fileName (.fresh f) 0
      cases hc
      intro i hi
      rcases hstored i hi with hi | hi
      · rwa [hlen, Nat.zero_add] at hi
      · cases hi

theorem sysRead_ne_kernelStore (fd : Int) (buf : Option Mem) (nbytes : Int) (line : Nat → Byte) :
    sysRead img s fd buf nbytes line ≠ .error .kernelStore := by
  intro h
  unfold sysRead at h
  split at h
  · cases h
  · simp only at h
    split at h
    · cases h
    · split at h
      · cases h
      · rename_i f hf
        cases f with
        | nullFunc => cases h
        | readRTC => cases h
        | terminalRead =>
          simp only [callRead, terminalRead] at h
          split at h
          · cases h
          · split at h <;> cases h
        | _ =>
          simp only [callRead, callRead.store] at h
          split at h
          · cases h
          · split at h <;> cases h

/-- A call stores over the kernel's memory at a byte that its driver has stored. -/
theorem storedThrough_eq_kernelStore {b : Buffer} {r : Int × Option Mem × State}
    (h : storedThrough s (some b) r = .error .kernelStore) :
    ∃ m, r.2.1 = some m ∧ ∃ i ∈ m.stored, ∃ a, b.region i = .kernel a := by
  unfold storedThrough at h
  split at h
  · rename_i b' m hb hm
    cases hb
    refine ⟨m, hm, ?_⟩
    split at h
    · cases h
    · rename_i i hi
      split at h
      · cases h
      · rename_i hne
        refine ⟨i, List.mem_reverse.mp (List.mem_of_find?_eq_some hi), ?_⟩
        have hp : b.region i ≠ .program := by simpa using List.find?_some hi
        cases hr : b.region i with
        | program => exact absurd hr hp
        | kernel a => exact ⟨a, rfl⟩
        | absent => exact absurd hr hne
  · cases h

/-- A `read` does so only if its buffer is there. -/
theorem readThrough_ne_kernelStore {fd : Int} {b : Buffer} {nbytes : Int} {line : Nat → Byte}
    (hc : FdCall.Spares img s (.read fd (some b) nbytes line)) :
    readThrough img s fd (some b) nbytes line ≠ .error .kernelStore := by
  intro h
  rw [readThrough, Option.map_some] at h
  cases hr : sysRead img s fd (some b.mem) nbytes line with
  | error f =>
    rw [hr] at h
    cases h
    exact sysRead_ne_kernelStore _ _ _ _ hr
  | ok r =>
    rw [hr] at h
    obtain ⟨v, m, s'⟩ := r
    obtain ⟨m, hm, i, hi, a, ha⟩ := storedThrough_eq_kernelStore h
    cases hm
    exact hc i (sysRead_stored hr i hi) a ha

/-- Then a call does what it does in a buffer of the program. -/
theorem pcbStep_eq_fdStep {c : FdCall} (hc : c.Spares img s) : pcbStep img s c = fdStep img s c := by
  unfold pcbStep fdStep
  split
  · rename_i r hr
    rw [hr]
    rfl
  · rename_i fd b nbytes line hr
    exact absurd hr (readThrough_ne_kernelStore hc)
  · rename_i f _ hf
    rw [hf]
    rfl

end

/-- After `setup_PCB`, in any order of calls of which no `read` stores over the kernel's memory: the table stays
whole, so that no call goes through a `NULL` pointer; `open` takes the lowest free descriptor; and
closing it gives back the table. -/
theorem descriptors_ok {img : Image} (hs : img.Sound) {s₀ s s' : State} {p : Int} (hp : setupPCB s₀ p = some s)
    {calls : List FdCall} (hc : Guarded (pcbStep img) (fun s c => c.Spares img s) { s with currentPid := p } calls)
    (hr : run (pcbStep img) { s with currentPid := p } calls = some s') :
    DescriptorTable img s'.curPcb.fdEntry ∧ (∀ c, fdCall img s' c ≠ .error .nullCall) ∧
      ∀ filename fd s₁, sysOpen img s' filename = .ok (fd, s₁) → 2 ≤ fd →
        ∃ i : Nat, fd = i ∧ i < MAX_FD_NUM ∧ s'.curPcb.fdEntry i = freeEntry ∧
          (∀ j, 2 ≤ j → j < i → (s'.curPcb.fdEntry j).flags = .IN_USE) ∧
          ∃ s₂, sysClose s₁ fd = .ok (0, s₂) ∧ s₂.curPcb.fdEntry = s'.curPcb.fdEntry := by
  have ha := Guarded.always (I := fun s : State => DescriptorTable img s.curPcb.fdEntry)
    (P := fun s : State => DescriptorTable img s.curPcb.fdEntry) (fun _ h => h)
    (fun _ _ _ h hc hstep => h.step hs (pcbStep_eq_fdStep hc ▸ hstep)) (.of_setupPCB img hp) hc
  have h := ha.last hr
  exact ⟨h, h.slots.no_nullCall, fun filename fd s₁ ho h₂ => h.open_close ho h₂⟩

/-- A process's descriptors after its start. -/
def freshProcess : State := { (setupPCB boot 0).getD boot with currentPid := 0 }

/-- A file is opened, read and closed. -/
def ownRead : List FdCall :=
  [.open (some shellCommand), .read 2 (some (.own fun _ => 0#8)) 4 fun _ => 0#8, .close 2]

theorem descriptors_ok_ownRead :
    ∃ s s', setupPCB boot 0 = some s ∧ run (pcbStep shellImage) { s with currentPid := 0 } ownRead = some s' ∧
      DescriptorTable shellImage s'.curPcb.fdEntry := by
  obtain ⟨s', hr⟩ := Option.isSome_iff_exists.mp (show (run (pcbStep shellImage) freshProcess ownRead).isSome by
    decide +kernel)
  have hspares : Guarded (pcbStep shellImage) (fun s c => c.Spares shellImage s) freshProcess ownRead := by
    refine guarded_of_forall fun c hc s => ?_
    simp only [ownRead, List.mem_cons, List.not_mem_nil, or_false] at hc
    rcases hc with rfl | rfl | rfl
    · trivial
    · exact fun _ _ _ h => by cases h
    · trivial
  have hp : setupPCB boot 0 = some ((setupPCB boot 0).getD boot) := rfl
  exact ⟨_, s', hp, hr, (descriptors_ok shellImage_sound hp hspares hr).1⟩

/-- Sixteen zero bytes of a file are read over the first descriptor of the caller, at the start of its control block. -/
def readOverStdin : List FdCall :=
  [.open (some shellCommand), .read 2 (some (.own fun _ => 0#8)) 4 fun _ => 0#8,
    .read 2 (some (.ofAddr 0x7fe000 fun _ => 0#8)) 16 fun _ => 0#8]

/-- The next `read` of the keyboard goes through a `NULL` pointer. -/
theorem descriptors_overwritten : shellImage.Sound ∧
    ∃ s s', setupPCB boot 0 = some s ∧ run (pcbStep shellImage) { s with currentPid := 0 } readOverStdin = some s' ∧
      ¬ DescriptorTable shellImage s'.curPcb.fdEntry ∧
      fdCall shellImage s' (.read 0 (some (.own fun _ => 0#8)) 1 fun _ => 0x0a#8) = .error .nullCall := by
  have hv : (run (pcbStep shellImage) freshProcess readOverStdin).map (fun s => s.curPcb.fdEntry 0) =
      some ⟨nullTable, -1, -1, .IN_USE⟩ := by decide +kernel
  obtain ⟨s', hs', he⟩ := Option.map_eq_some_iff.mp hv
  refine ⟨shellImage_sound, _, s', rfl, hs', fun h => ?_, ?_⟩
  · have ht := h.stdin.2
    rw [show s'.curPcb.fdEntry STDIN = _ from he] at ht
    cases ht
  · have he' : s'.curPcb.fdEntry (0 : Int).toNat = ⟨nullTable, -1, -1, .IN_USE⟩ := he
    have hfd : ¬ ((0 : Int) ≥ MAX_FD_NUM ∨ (0 : Int) < 0 ∨ (0 : Int) = 1) := by decide
    simp only [fdCall, readThrough, sysRead, hfd, he', nullTable, reduceCtorEq, if_false]
    rfl

end LimeOS
