import LimeOS.Proof.Descriptors

/-!
# The names that `open` resolves

`open` compares a name with `stdin` and `stdout` for as many bytes as these have
before it looks the name up, so a longer name that begins with one of them is
taken for it. Every other name is resolved as a whole (`opensWhole_iff`).
-/

namespace LimeOS

section

variable (img : Image) (s : State) (name : CString)

/-- A descriptor from 2 on is free. -/
def HasVacant : Prop := ∃ i, 2 ≤ i ∧ i < MAX_FD_NUM ∧ (s.curPcb.fdEntry i).flags = .FREE

/-- What `open` should come to for a name: the whole of it decides. -/
structure OpensWhole : Prop where
  stdin : ∀ s', sysOpen img s (some name) = .ok (0, s') → name.1 = str "stdin"
  stdout : ∀ s', sysOpen img s (some name) = .ok (1, s') → name.1 = str "stdout"
  binds : name.1 ≠ str "stdin" → name.1 ≠ str "stdout" → ∀ d table, readDentryByName img name = some d →
    typeTable d.fileType = some table → HasVacant s → ∃ (i : Nat) (s' : State), sysOpen img s (some name) = .ok (i, s') ∧
      2 ≤ i ∧ i < MAX_FD_NUM ∧ (s.curPcb.fdEntry i).flags = .FREE ∧
      s'.curPcb.fdEntry = Function.update s.curPcb.fdEntry i ⟨table, d.inodeNumber, 0, .IN_USE⟩
  refuses : name.1 ≠ str "stdin" → name.1 ≠ str "stdout" →
    (∀ d, readDentryByName img name = some d → typeTable d.fileType ≠ none → ¬ HasVacant s) →
    ∃ s', sysOpen img s (some name) = .ok (-1, s') ∧ s'.curPcb.fdEntry = s.curPcb.fdEntry

end

section

variable {img : Image} {s : State} {name : CString}

theorem hasVacant_iff : HasVacant s ↔ ∃ i, vacantFd s = some i := by
  constructor
  · rintro ⟨i, h₂, h₈, hf⟩
    cases hv : vacantFd s with
    | some j => exact ⟨j, rfl⟩
    | none =>
      have hall := List.find?_eq_none.mp hv i (by rw [List.mem_range'_1]; simp only [MAX_FD_NUM] at *; omega)
      exact absurd hf (by simpa using hall)
  · rintro ⟨i, hv⟩
    obtain ⟨h₂, h₈, hf, -⟩ := vacantFd_eq_some hv
    exact ⟨i, h₂, h₈, hf⟩

/-- A name that begins with `stdin`. -/
theorem sysOpen_stdin (h : str "stdin" <+: name.1) : ∃ s', sysOpen img s (some name) = .ok (0, s') := by
  have hc := (strncmp_eq_zero (by decide)).mpr h
  simp only [sysOpen]
  rw [if_pos (show strncmp _ _ STDIN_LEN = 0 from hc)]
  exact ⟨_, rfl⟩

/-- A name that begins with `stdout`. -/
theorem sysOpen_stdout (h : str "stdout" <+: name.1) : ∃ s', sysOpen img s (some name) = .ok (1, s') := by
  have hin : ¬ str "stdin" <+: name.1 := fun hin => by
    have := List.prefix_of_prefix_length_le hin h (by decide)
    exact absurd this (by decide)
  have hc₀ := mt (strncmp_eq_zero (by decide)).mp hin
  have hc₁ := (strncmp_eq_zero (by decide)).mpr h
  simp only [sysOpen]
  rw [if_neg (show ¬ strncmp _ _ STDIN_LEN = 0 from hc₀), if_pos (show strncmp _ _ STDOUT_LEN = 0 from hc₁)]
  exact ⟨_, rfl⟩

/-- A name that begins with neither, of an entry of a known type. -/
theorem sysOpen_found (h₀ : ¬ str "stdin" <+: name.1) (h₁ : ¬ str "stdout" <+: name.1) {d : Dentry} {i : Nat}
    {table : Operations} (hd : readDentryByName img name = some d) (hi : vacantFd s = some i)
    (ht : typeTable d.fileType = some table) : ∃ s', sysOpen img s (some name) = .ok ((i : Int), s') ∧
      s'.curPcb.fdEntry = Function.update s.curPcb.fdEntry i ⟨table, d.inodeNumber, 0, .IN_USE⟩ := by
  have hc₀ := mt (strncmp_eq_zero (by decide)).mp h₀
  have hc₁ := mt (strncmp_eq_zero (by decide)).mp h₁
  have hf : ∃ f, table.OPEN = some f := by
    rcases typeTable_eq_some ht with ⟨-, rfl⟩ | ⟨-, rfl⟩ | ⟨-, rfl⟩
    · exact ⟨_, rfl⟩
    · exact ⟨_, rfl⟩
    · exact ⟨_, rfl⟩
  obtain ⟨f, hf⟩ := hf
  have hn : ¬ (callOpen f (s.setFd i ⟨table, d.inodeNumber, 0, .IN_USE⟩)).1 < 0 := by
    cases f <;> simp [callOpen, openRTC]
  simp only [sysOpen]
  rw [if_neg (show ¬ strncmp _ _ STDIN_LEN = 0 from hc₀), if_neg (show ¬ strncmp _ _ STDOUT_LEN = 0 from hc₁)]
  simp only [hd, hi, ht, hf, hn, if_false]
  refine ⟨_, rfl, ?_⟩
  rw [(callOpen_still _ _).curPcb, setFd_fdEntry]

/-- A name that begins with neither, with nothing to open or nowhere to open it. -/
theorem sysOpen_refused (h₀ : ¬ str "stdin" <+: name.1) (h₁ : ¬ str "stdout" <+: name.1)
    (h : ∀ d i, readDentryByName img name = some d → vacantFd s = some i → typeTable d.fileType = none) :
    sysOpen img s (some name) = .ok (-1, s) := by
  have hc₀ := mt (strncmp_eq_zero (by decide)).mp h₀
  have hc₁ := mt (strncmp_eq_zero (by decide)).mp h₁
  simp only [sysOpen]
  rw [if_neg (show ¬ strncmp _ _ STDIN_LEN = 0 from hc₀), if_neg (show ¬ strncmp _ _ STDOUT_LEN = 0 from hc₁)]
  cases hd : readDentryByName img name with
  | none => rfl
  | some d =>
    cases hi : vacantFd s with
    | none => rfl
    | some i => simp only [h d i hd hi]

/-- A name that begins with neither gives no standard descriptor. -/
theorem sysOpen_neither (h₀ : ¬ str "stdin" <+: name.1) (h₁ : ¬ str "stdout" <+: name.1) {fd : Int} {s' : State}
    (h : sysOpen img s (some name) = .ok (fd, s')) : fd ≠ 0 ∧ fd ≠ 1 := by
  by_cases hr : ∀ d i, readDentryByName img name = some d → vacantFd s = some i → typeTable d.fileType = none
  · rw [sysOpen_refused h₀ h₁ hr] at h
    cases h
    decide
  · simp only [not_forall] at hr
    obtain ⟨d, i, hd, hi, ht⟩ := hr
    obtain ⟨table, ht⟩ := Option.ne_none_iff_exists'.mp ht
    obtain ⟨s₁, hs₁, -⟩ := sysOpen_found h₀ h₁ hd hi ht
    have h₂ := (vacantFd_eq_some hi).1
    rw [hs₁] at h
    cases h
    omega

/-- The only start of a name that is not longer than a word is the word. -/
theorem eq_of_no_rest {w l : List Byte} (h : ∀ rest, rest ≠ [] → l ≠ w ++ rest) (hp : w <+: l) : l = w := by
  obtain ⟨rest, rfl⟩ := hp
  by_cases hr : rest = []
  · rw [hr, List.append_nil]
  · exact absurd rfl (h rest hr)

/-- **`open` resolves the whole name** exactly when the name does not go on after `stdin` or `stdout`. -/
theorem opensWhole_iff (img : Image) (s : State) (name : CString) : OpensWhole img s name ↔
    ∀ rest, rest ≠ [] → name.1 ≠ str "stdin" ++ rest ∧ name.1 ≠ str "stdout" ++ rest := by
  constructor
  · intro h rest hr
    refine ⟨fun e => ?_, fun e => ?_⟩
    · obtain ⟨s', hs⟩ : ∃ s', sysOpen img s (some name) = .ok (0, s') :=
        sysOpen_stdin (by rw [e]; exact List.prefix_append _ _)
      exact hr (List.append_cancel_left (e.symm.trans ((h.stdin s' hs).trans (List.append_nil _).symm)))
    · obtain ⟨s', hs⟩ : ∃ s', sysOpen img s (some name) = .ok (1, s') :=
        sysOpen_stdout (by rw [e]; exact List.prefix_append _ _)
      exact hr (List.append_cancel_left (e.symm.trans ((h.stdout s' hs).trans (List.append_nil _).symm)))
  · intro h
    have hin : str "stdin" <+: name.1 → name.1 = str "stdin" := eq_of_no_rest fun rest hr => (h rest hr).1
    have hout : str "stdout" <+: name.1 → name.1 = str "stdout" := eq_of_no_rest fun rest hr => (h rest hr).2
    refine ⟨fun s' hs => ?_, fun s' hs => ?_, fun hne₀ hne₁ d table hd ht hv => ?_, fun hne₀ hne₁ hr => ?_⟩
    · by_contra hne
      by_cases ho : str "stdout" <+: name.1
      · obtain ⟨s₁, hs₁⟩ : ∃ s', sysOpen img s (some name) = .ok (1, s') := sysOpen_stdout ho
        rw [hs₁] at hs
        cases hs
      · exact (sysOpen_neither (mt hin hne) ho hs).1 rfl
    · by_contra hne
      by_cases hi : str "stdin" <+: name.1
      · obtain ⟨s₁, hs₁⟩ : ∃ s', sysOpen img s (some name) = .ok (0, s') := sysOpen_stdin hi
        rw [hs₁] at hs
        cases hs
      · exact (sysOpen_neither hi (mt hout hne) hs).2 rfl
    · obtain ⟨i, hi⟩ := hasVacant_iff.mp hv
      obtain ⟨h₂, h₈, hf, -⟩ := vacantFd_eq_some hi
      obtain ⟨s', hs, he⟩ := sysOpen_found (mt hin hne₀) (mt hout hne₁) hd hi ht
      exact ⟨i, s', hs, h₂, h₈, hf, he⟩
    · refine ⟨s, sysOpen_refused (mt hin hne₀) (mt hout hne₁) fun d i hd hi => ?_, rfl⟩
      by_contra ht
      exact hr d hd ht (hasVacant_iff.mpr ⟨i, hi⟩)

end

/-- A name that goes on after `stdin`. -/
def stdinxName : CString := ⟨str "stdinx", by decide⟩

/-- It gives a new process descriptor 0. -/
theorem opensWhole_stdinx : ∃ s, setupPCB boot 0 = some s ∧
    ¬ OpensWhole shellImage { s with currentPid := 0 } stdinxName := by
  refine ⟨_, rfl, fun h => ?_⟩
  have hp : str "stdin" <+: stdinxName.1 := by decide
  obtain ⟨s', hs⟩ := sysOpen_stdin hp
  exact absurd (h.stdin s' hs) (by decide)

end LimeOS
