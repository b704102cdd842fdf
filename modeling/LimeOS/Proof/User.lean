import LimeOS.Impl.User
import LimeOS.Proof.Directory
import LimeOS.Proof.Display
import LimeOS.Proof.Getargs
import LimeOS.Proof.Open
import LimeOS.Proof.Waiting
import LimeOS.Spec.Programs

/-!
# User programs on the kernel

What the kernel answers to a program, whatever happens between its calls: while a
process waits nothing that it has changes (`Waits`), so a call finds the descriptors
that the last one left (`Running`), and each has one rule. On these rules
the programs are proved: `cat` writes the content of the file that it is given
(`cat_writes`) and `ls` the names of the directory, one on each line (`ls_writes`).
-/

namespace LimeOS

/-! ## Arrays of a program -/

theorem Mem.storeList_stored : ∀ (l : List Byte) (m : Mem) (i : Nat),
    (m.storeList i l).stored = (List.range' i l.length).reverse ++ m.stored
  | [], _, _ => rfl
  | b :: l, m, i => by
    rw [storeList, storeList_stored l, store_stored, List.length_cons, List.range'_succ, List.reverse_cons,
      List.append_assoc]
    rfl

theorem Mem.storeList_byte_of_not : ∀ (l : List Byte) (m : Mem) (i : Nat) {x : Nat}, ¬ (i ≤ x ∧ x < i + l.length) →
    (m.storeList i l).byte x = m.byte x
  | [], _, _, _, _ => rfl
  | b :: l, m, i, x, h => by
    rw [List.length_cons] at h
    rw [storeList, storeList_byte_of_not l _ _ (by omega), store_byte_of_ne _ _ (by omega)]

/-- What the kernel stores from a pointer on is stored from its place in the array on. -/
theorem Mem.paste_storeList (data : Mem) (off : Nat) (f : Nat → Byte) (l : List Byte) :
    data.paste off ((Mem.fresh f).storeList 0 l) = data.storeList off l := by
  have hs : (data.paste off ((Mem.fresh f).storeList 0 l)).stored = (data.storeList off l).stored := by
    rw [paste, storeList_stored, storeList_stored, fresh_stored, List.append_nil, List.map_reverse,
      List.map_add_range', Nat.add_zero]
  have hb : (data.paste off ((Mem.fresh f).storeList 0 l)).byte = (data.storeList off l).byte := by
    funext x
    simp only [paste, mem_storeList_stored, fresh_stored, List.not_mem_nil, or_false, Nat.zero_add, Nat.zero_le, true_and]
    split
    · rename_i hx
      have h₁ := storeList_byte l (.fresh f) 0 hx.2
      have h₂ := storeList_byte l data off hx.2
      rw [Nat.zero_add] at h₁
      rw [show off + (x - off) = x by omega] at h₂
      rw [h₁, h₂]
    · rename_i hx
      refine (storeList_byte_of_not l data off ?_).symm
      omega
  cases h₁ : data.paste off ((Mem.fresh f).storeList 0 l) with
  | mk b s =>
    rw [h₁] at hs hb
    cases h₂ : data.storeList off l with
    | mk b' s' =>
      rw [h₂] at hs hb
      simp only at hs hb
      rw [hs, hb]

/-- An array that is a memory of its own, after what was stored through a pointer to its start. -/
theorem Mem.Stores.paste_byte {P : Nat → Prop} {f : Nat → Byte} {m : Mem} (h : Mem.Stores P (.fresh f) m) :
    ((Mem.fresh f).paste 0 m).byte = m.byte := by
  obtain ⟨l, hl, -, hb⟩ := h
  funext x
  simp only [paste, Nat.zero_le, Nat.sub_zero, true_and]
  split
  · rfl
  · rename_i hx
    rw [hl, fresh_stored, List.append_nil] at hx
    exact (hb x hx).symm

/-! ## Between two calls -/

/-- Process `p` is live, with these descriptors, and has written `out`. -/
structure Running (p : Int) (fds : Nat → FdEntry) (out : List Byte) (w : World) : Prop where
  live : w.kernel.pidFlags p = .IN_USE
  fds : (w.kernel.pcb p).fdEntry = fds
  output : w.output = out

section

variable {img : Image} {p : Int} {fds : Nat → FdEntry} {out : List Byte} {w w₁ : World}

/-- Nothing of the process changes while it waits. -/
theorem idle_waits (hlive : w.kernel.pidFlags p = .IN_USE) (hi : (userHost img p).idle w w₁) :
    Waits p w.kernel w₁.kernel := by
  obtain ⟨-, -, es, hg, hr⟩ := hi
  have h := Guarded.always (I := Waits p w.kernel) (P := Waits p w.kernel) (fun _ h => h)
    (fun _ _ _ h he hs => h.step he hs) (.refl hlive) hg
  exact h.last hr

/-- When it runs again it is the current process, with its descriptors. -/
theorem Running.idle (h : Running p fds out w) (hi : (userHost img p).idle w w₁) :
    Running p fds out w₁ ∧ w₁.kernel.currentPid = p ∧ w₁.kernel.curPcb.fdEntry = fds := by
  have hw := idle_waits h.live hi
  have hf : (w₁.kernel.pcb p).fdEntry = fds := hw.fdEntry.trans h.fds
  refine ⟨⟨hw.pidFlags, hf, hi.1.trans h.output⟩, hi.2.1, ?_⟩
  rw [State.curPcb, hi.2.1]
  exact hf

/-- A call of the process that keeps its pid, and the descriptors it leaves. -/
theorem Running.call (h : Running p fds out w) (hc : w.kernel.currentPid = p) (out' : List Byte) {s : State}
    (ha : Aside w.kernel s) : Running p s.curPcb.fdEntry out' ⟨s, out'⟩ where
  live := by
    rw [ha.pidFlags]
    exact h.live
  fds := by rw [State.curPcb, ha.currentPid, hc]
  output := rfl

/-! ## The calls -/

/-- The descriptor is the standard output. -/
def IsStdout (e : FdEntry) : Prop := e.flags = .IN_USE ∧ e.operationsPointer = stdoutTable

theorem wp_write (h : Running p fds out w) (ho : IsStdout (fds STDOUT)) (buf : Nat → Byte) {n : Nat} :
    (ece391Write 1 buf n).Wp (userHost img p)
      (fun v w' => v = n ∧ Running p fds (out ++ (List.range n).map buf) w') w := by
  refine Prog.wp_ask.mpr fun w₁ o hi ha => ?_
  obtain ⟨line, rfl⟩ := ha
  obtain ⟨h₁, hc, hf⟩ := h.idle hi
  rw [← hf] at ho
  obtain ⟨s', hs⟩ : ∃ s', sysWrite w₁.kernel 1 (some (.own buf)) n = .ok (((n : Int).toNat : Int), s') := by
    obtain ⟨x, y, hs⟩ := sysWrite_stdout (s := w₁.kernel) (Buffer.own_fault buf (n : Int).toNat) ho.1 ho.2
    exact ⟨_, hs⟩
  have hstill := sysWrite_still hs
  refine ⟨(n, ⟨s', out ++ (List.range n).map buf⟩), ?_, rfl, ?_⟩
  · simp only [userAnswer, hs, Except.toOption, Option.map_some, h₁.output, Int.toNat_natCast]
    rfl
  · have hcall := h₁.call hc (out ++ (List.range n).map buf) hstill.quiet.toAside
    rwa [hstill.curPcb, hf] at hcall

theorem map_getD_range (l : List Byte) : (List.range l.length).map (l.getD · 0#8) = l := by
  refine List.ext_getElem (by simp) fun i h₁ h₂ => ?_
  rw [List.getElem_map, List.getElem_range, List.getD_eq_getElem _ _ h₂]

theorem wp_fdputs (h : Running p fds out w) (ho : IsStdout (fds STDOUT)) (s : List Byte) :
    (ece391Fdputs 1 s).Wp (userHost img p) (fun _ w' => Running p fds (out ++ s) w') w := by
  refine Prog.wp_bind'.mpr ((wp_write h ho (s.getD · 0#8)).mono fun v w' hv => ?_)
  rw [map_getD_range] at hv
  exact hv.2

/-- A descriptor of a regular file, at a position. -/
def fileEntry (inode : Int) (pos : Nat) : FdEntry := ⟨fileTable, inode, pos, .IN_USE⟩

/-- What a file holds from an offset on. -/
theorem Image.HasFile.fileSlice_eq {blocks inode : Nat} (h : img.HasFile blocks inode) {pos k : Nat}
    (hk : pos + k ≤ inodeLength img inode) : fileSlice img inode pos k = ((img.content inode).drop pos).take k := by
  have ha := h.take_append hk
  have hlen := h.length_eq
  have hp : ((img.content inode).take pos).length = pos := by
    rw [List.length_take]
    omega
  have hd : ((img.content inode).take (pos + k)).drop pos = fileSlice img inode pos k := by
    rw [← ha, List.drop_append, hp, Nat.sub_self, List.drop_zero, List.drop_eq_nil_of_le (by omega), List.nil_append]
  rw [← hd, List.drop_take, Nat.add_sub_cancel_left]

theorem wp_read_file {blocks i pos : Nat} {inode : Int} (h : Running p fds out w) (h₂ : 2 ≤ i) (h₈ : i < MAX_FD_NUM)
    (he : fds i = fileEntry inode pos) (hf : img.HasFile blocks (toU32 inode))
    (hpos : pos ≤ (img.content (toU32 inode)).length) (buf : Nat → Byte) {n : Nat} (hn : n < 2 ^ 31) :
    (ece391Read i buf n).Wp (userHost img p) (fun r w' =>
      let l := ((img.content (toU32 inode)).drop pos).take n
      r = ((l.length : Int), (Mem.fresh buf).storeList 0 l) ∧
        Running p (Function.update fds i (fileEntry inode (pos + l.length))) out w') w := by
  refine Prog.wp_ask.mpr fun w₁ o hi ha => ?_
  obtain ⟨line, rfl⟩ := ha
  obtain ⟨h₁, hc, hfds⟩ := h.idle hi
  have hlen := hf.length_eq
  have hmax := hf.length
  have hfd : FileFd w₁.kernel i := by
    refine ⟨h₂, h₈, ?_, ?_⟩
    · rw [hfds, he]
      rfl
    · rw [hfds, he]
      rfl
  have hr := readThrough_own (@FileFd.sysRead_eq img w₁.kernel i hfd (.fresh buf) n line)
  simp only [hfds, he, fileEntry] at hr
  rw [toU32_natCast (show n < 2 ^ 32 by omega), toU32_natCast (show pos < 2 ^ 32 by omega)] at hr
  generalize hk : min n (inodeLength img (toU32 inode) - pos) = k at hr
  have hl : ((img.content (toU32 inode)).drop pos).take n = fileSlice img (toU32 inode) pos k := by
    rw [hf.fileSlice_eq (by omega), ← hk, List.take_eq_take_iff]
    rw [List.length_drop]
    omega
  have hlk : (fileSlice img (toU32 inode) pos k).length = k := length_fileSlice _ _ _ _
  rw [toI32_natCast (show k < 2 ^ 31 by omega), ← Int.natCast_add, toI32_natCast (show pos + k < 2 ^ 31 by omega)] at hr
  rw [hl]
  simp only [hlk]
  refine ⟨(((k : Int), (Mem.fresh buf).storeList 0 (fileSlice img (toU32 inode) pos k)),
    ⟨w₁.kernel.setFd i (fileEntry inode (pos + k)), out⟩), ?_, rfl, ?_⟩
  · simp only [userAnswer, hr, Except.toOption, Option.map_some, Option.getD_some, h₁.output]
    rfl
  · have hcall := h₁.call hc out (setFd_steady w₁.kernel i (fileEntry inode (pos + k))).toAside
    rwa [setFd_fdEntry, hfds] at hcall

/-- A descriptor of the directory, after `k` reads. -/
def directoryEntry (img : Image) (inode : Int) (k : Nat) : FdEntry := ⟨directoryTable, inode, dirPosition img k, .IN_USE⟩

theorem wp_read_directory {i k : Nat} {inode : Int} (h : Running p fds out w) (h₂ : 2 ≤ i) (h₈ : i < MAX_FD_NUM)
    (he : fds i = directoryEntry img inode k) (buf : Nat → Byte) (n : Int) :
    (ece391Read i buf n).Wp (userHost img p) (fun r w' =>
      r = (((dirReport img k).length : Int), (Mem.fresh buf).storeList 0 (dirReport img k)) ∧
        Running p (Function.update fds i (directoryEntry img inode (k + 1))) out w') w := by
  refine Prog.wp_ask.mpr fun w₁ o hi ha => ?_
  obtain ⟨line, rfl⟩ := ha
  obtain ⟨h₁, hc, hfds⟩ := h.idle hi
  have hfd : DirFd img w₁.kernel i k := by
    refine ⟨h₂, h₈, ?_, ?_, ?_⟩
    all_goals
      rw [hfds, he]
      rfl
  have hr := readThrough_own (hfd.sysRead_eq (.fresh buf) n line)
  refine ⟨((((dirReport img k).length : Int), (Mem.fresh buf).storeList 0 (dirReport img k)),
    ⟨dirNext img w₁.kernel i k, out⟩), ?_, rfl, ?_⟩
  · simp only [userAnswer, hr, Except.toOption, Option.map_some, Option.getD_some, h₁.output]
  · have hentry : (dirNext img w₁.kernel i k).curPcb.fdEntry =
        Function.update fds i (directoryEntry img inode (k + 1)) := by
      unfold dirNext
      split
      · rename_i hk
        rw [setFd_fdEntry, hfds, he]
        congr 1
        simp only [directoryEntry, dirPosition, FdEntry.mk.injEq, true_and, and_true]
        split <;> omega
      · rename_i hk
        rw [hfds]
        refine (Function.update_eq_self_iff.mpr ?_).symm
        rw [he, directoryEntry, directoryEntry, dirPosition, dirPosition, if_neg hk, if_neg (by omega)]
    have haside : Aside w₁.kernel (dirNext img w₁.kernel i k) := by
      unfold dirNext
      split
      · exact (setFd_steady _ _ _).toAside
      · exact (Steady.refl _).toAside
    have hcall := h₁.call hc out haside
    rwa [hentry] at hcall

theorem wp_read_rtc {i : Nat} {e : FdEntry} (h : Running p fds out w) (h₂ : 2 ≤ i) (h₈ : i < MAX_FD_NUM)
    (he : fds i = e) (hu : e.flags = .IN_USE) (ht : e.operationsPointer = rtcTable) (buf : Nat → Byte) (n : Int) :
    (ece391Read i buf n).Wp (userHost img p) (fun r w' => r = (0, .fresh buf) ∧ Running p fds out w') w := by
  refine Prog.wp_ask.mpr fun w₁ o hi ha => ?_
  obtain ⟨line, rfl⟩ := ha
  obtain ⟨h₁, hc, hfds⟩ := h.idle hi
  have hr : sysRead img w₁.kernel i (some (.fresh buf)) n line =
      .ok ((readRTC w₁.kernel).1, some (.fresh buf), (readRTC w₁.kernel).2) :=
    sysRead_call h₂ h₈ (by rw [hfds, he, hu]) (by rw [hfds, he, ht]; rfl) _ n line
  refine ⟨((0, .fresh buf), ⟨(readRTC w₁.kernel).2, out⟩), ?_, rfl, ⟨h₁.live, h₁.fds, rfl⟩⟩
  simp only [userAnswer, readThrough_own hr, Except.toOption, Option.map_some, Option.getD_some, h₁.output]
  rfl

/-- The lowest free descriptor of a table. -/
def vacantOf (fds : Nat → FdEntry) : Option Nat :=
  (List.range' 2 (MAX_FD_NUM - 2)).find? fun i => (fds i).flags = .FREE

/-- What `open` does with an entry of the directory, for a name that is not of a standard descriptor. -/
theorem wp_open {name : CString} {d : Dentry} {i : Nat} {table : Operations} (h : Running p fds out w)
    (h₀ : ¬ str "stdin" <+: name.1) (h₁ : ¬ str "stdout" <+: name.1) (hd : readDentryByName img name = some d)
    (hv : vacantOf fds = some i) (ht : typeTable d.fileType = some table) :
    (ece391Open name).Wp (userHost img p) (fun v w' =>
      v = i ∧ Running p (Function.update fds i ⟨table, d.inodeNumber, 0, .IN_USE⟩) out w') w := by
  refine Prog.wp_ask.mpr fun w₁ o hi ha => ?_
  obtain ⟨line, rfl⟩ := ha
  obtain ⟨hw, hc, hfds⟩ := h.idle hi
  have hvac : vacantFd w₁.kernel = some i := by
    rw [vacantFd, hfds]
    exact hv
  obtain ⟨s', hs, he⟩ := sysOpen_found h₀ h₁ hd hvac ht
  refine ⟨((i : Int), ⟨s', out⟩), ?_, rfl, ?_⟩
  · simp only [userAnswer, hs, Except.toOption, Option.map_some, hw.output]
  · have hcall := hw.call hc out (sysOpen_steady hs).toAside
    rwa [he, hfds] at hcall

theorem wp_open_refused {name : CString} (h : Running p fds out w) (h₀ : ¬ str "stdin" <+: name.1)
    (h₁ : ¬ str "stdout" <+: name.1) (hd : ∀ d, readDentryByName img name = some d → typeTable d.fileType = none) :
    (ece391Open name).Wp (userHost img p) (fun v w' => v = -1 ∧ Running p fds out w') w := by
  refine Prog.wp_ask.mpr fun w₁ o hi ha => ?_
  obtain ⟨line, rfl⟩ := ha
  obtain ⟨hw, hc, hfds⟩ := h.idle hi
  have hs := sysOpen_refused (s := w₁.kernel) h₀ h₁ (fun d _ hd' _ => hd d hd')
  refine ⟨((-1 : Int), w₁), ?_, rfl, hw⟩
  simp only [userAnswer, hs, Except.toOption, Option.map_some]

theorem wp_close {i : Nat} (h : Running p fds out w) (h₂ : 2 ≤ i) (h₈ : i < MAX_FD_NUM) (hu : (fds i).flags = .IN_USE)
    {f : CloseFn} (hf : (fds i).operationsPointer.CLOSE = some f) : (ece391Close i).Wp (userHost img p)
      (fun v w' => v = 0 ∧ Running p (Function.update fds i freeEntry) out w') w := by
  refine Prog.wp_ask.mpr fun w₁ o hi ha => ?_
  obtain ⟨line, rfl⟩ := ha
  obtain ⟨hw, hc, hfds⟩ := h.idle hi
  have hs : sysClose w₁.kernel i = .ok (0, w₁.kernel.setFd i freeEntry) := by
    have hn : ¬ ((i : Int) < 2 ∨ (i : Int) ≥ MAX_FD_NUM) := by
      simp only [MAX_FD_NUM] at *
      omega
    simp only [sysClose, hn, if_false, Int.toNat_natCast, hfds, hu, reduceCtorEq, hf, callClose, Int.lt_irrefl]
  refine ⟨((0 : Int), ⟨w₁.kernel.setFd i freeEntry, out⟩), ?_, rfl, ?_⟩
  · simp only [userAnswer, hs, Except.toOption, Option.map_some, hw.output]
  · have hcall := hw.call hc out (setFd_steady w₁.kernel i freeEntry).toAside
    rwa [setFd_fdEntry, hfds] at hcall

/-- The arguments of the process, as `getargs` stores them. -/
theorem wp_getargs {args : List Byte} (h : Running p fds out w) (ha : Holds (w.kernel.pcb p).args args) (hne : args ≠ [])
    (buf : Nat → Byte) {n : Nat} (hn : args.length < n) (hlt : n < 2 ^ 32) : (ece391Getargs buf n).Wp (userHost img p)
      (fun r w' => r.1 = 0 ∧ (Mem.cstr (((Mem.fresh buf).paste 0 r.2).byte) n).1 = args ∧ Running p fds out w') w := by
  refine Prog.wp_ask.mpr fun w₁ o hi hans => ?_
  obtain ⟨line, rfl⟩ := hans
  obtain ⟨hw, hc, hfds⟩ := h.idle hi
  have hargs : Holds w₁.kernel.curPcb.args args := by
    rw [State.curPcb, hc, (idle_waits h.live hi).args]
    exact ha
  have hcall := getargs_cons (s := w₁.kernel) (by rw [hargs.cstr]; exact hne) (.fresh buf) n
  rw [toU32_natCast hlt] at hcall
  have hb := strncpyFrom_byte hargs.terminated hargs.ne_zero n 0 (.fresh buf) (Nat.zero_le _) (by omega)
  refine ⟨((0, strncpy (.fresh buf) w₁.kernel.curPcb.args n), ⟨(getargs w₁.kernel (some (.fresh buf)) n).2.2, out⟩),
    ?_, rfl, ?_, ?_⟩
  · simp only [userAnswer, getargsThrough_own, hcall, Except.toOption, Option.map_some, Option.getD_some, hw.output]
  · simp only [(strncpy_stores (.fresh buf) w₁.kernel.curPcb.args n).paste_byte]
    refine Mem.cstr_eq hn hargs.nul (fun j hj => ?_) ?_
    · rw [strncpy, hb j (Nat.zero_le j) (by omega)]
      exact hargs.byte j hj
    · rw [strncpy, hb args.length (Nat.zero_le _) (Nat.le_refl _)]
      exact hargs.terminated
  · have hafter := hw.call hc out (getargs_aside w₁.kernel (some (.fresh buf)) n)
    have hentry : (getargs w₁.kernel (some (.fresh buf)) n).2.2.curPcb.fdEntry = w₁.kernel.curPcb.fdEntry := by
      rw [hcall]
      simp only [State.curPcb, State.setPcb, Function.update_self]
    rwa [hentry, hfds] at hafter

theorem wp_getargs_none (h : Running p fds out w) (ha : Holds (w.kernel.pcb p).args []) (buf : Nat → Byte) (n : Nat) :
    (ece391Getargs buf n).Wp (userHost img p) (fun r w' => r.1 = -1 ∧ Running p fds out w') w := by
  refine Prog.wp_ask.mpr fun w₁ o hi hans => ?_
  obtain ⟨line, rfl⟩ := hans
  obtain ⟨hw, hc, hfds⟩ := h.idle hi
  have hargs : Holds w₁.kernel.curPcb.args [] := by
    rw [State.curPcb, hc, (idle_waits h.live hi).args]
    exact ha
  have hcall := getargs_nil (s := w₁.kernel) hargs.cstr (.fresh buf) n
  refine ⟨((-1, .fresh buf), w₁), ?_, rfl, hw⟩
  simp only [userAnswer, getargsThrough_own, hcall, Except.toOption, Option.map_some, Option.getD_some]

/-! ## Programs that read to the end -/

/-- What a descriptor gives its reader: at `x` its entry, what a read returns, and where it goes on. -/
structure Source where
  Valid : Nat → Prop
  entry : Nat → FdEntry
  chunk : Nat → List Byte
  next : Nat → Nat

/-- A read of `n` bytes from descriptor `fd` gives what the source has. -/
def Source.Gives (src : Source) (img : Image) (p : Int) (fd n : Nat) : Prop :=
  ∀ x fds out w buf, src.Valid x → Running p (Function.update fds fd (src.entry x)) out w →
    (ece391Read fd buf n).Wp (userHost img p) (fun r w' =>
      r = (((src.chunk x).length : Int), (Mem.fresh buf).storeList 0 (src.chunk x)) ∧
        Running p (Function.update fds fd (src.entry (src.next x))) out w') w

/-- From `x` on a reader that writes `emit` of every chunk writes `rest`. -/
structure Source.Writes (src : Source) (emit rest : Nat → List Byte) : Prop where
  next : ∀ x, src.Valid x → src.chunk x ≠ [] → src.Valid (src.next x)
  nil : ∀ x, src.Valid x → src.chunk x = [] → rest x = []
  ne_nil : ∀ x, src.Valid x → src.chunk x ≠ [] → emit x ≠ []
  eq : ∀ x, src.Valid x → src.chunk x ≠ [] → rest x = emit x ++ rest (src.next x)

/-- A loop whose round takes a chunk, writes `emit` of it and goes on, and ends where the chunk is empty: it writes
everything from `x` on. -/
theorem Source.wp_loop (src : Source) {emit rest : Nat → List Byte} (hwrites : src.Writes emit rest) {fd : Nat}
    {round : Mem → UserProg (Mem ⊕ Int)}
    (hround : ∀ x buf out w, src.Valid x → Running p (Function.update fds fd (src.entry x)) out w →
      (round buf).Wp (userHost img p) (fun r w' =>
        if src.chunk x = [] then r = .inr 0 ∧ w'.output = out
        else (∃ buf', r = .inl buf') ∧ Running p (Function.update fds fd (src.entry (src.next x))) (out ++ emit x) w') w)
    {x n : Nat} {buf : Mem} (hx : src.Valid x) (h : Running p (Function.update fds fd (src.entry x)) out w)
    (hn : (rest x).length < n) :
    (Prog.loop round n buf).Wp (userHost img p) (fun r w' => r = some 0 ∧ w'.output = out ++ rest x) w := by
  let I : Nat → Mem → World → Prop := fun k _ w' => ∃ x' out', src.Valid x' ∧
    Running p (Function.update fds fd (src.entry x')) out' w' ∧ out' ++ rest x' = out ++ rest x ∧ k = (rest x').length
  have hstep : ∀ k buf w', I k buf w' → (round buf).Wp (userHost img p) (fun r w'' => r.elim
      (fun buf' => ∃ k' < k, I k' buf' w'') (fun v => v = 0 ∧ w''.output = out ++ rest x)) w' := by
    rintro k buf w' ⟨x', out', hx', h', ht, rfl⟩
    refine (hround x' buf out' w' hx' h').mono fun r w'' hr => ?_
    by_cases hc : src.chunk x' = []
    · rw [if_pos hc] at hr
      obtain ⟨rfl, hout⟩ := hr
      refine ⟨rfl, ?_⟩
      rw [hout, ← ht, hwrites.nil x' hx' hc, List.append_nil]
    · rw [if_neg hc] at hr
      obtain ⟨⟨buf', rfl⟩, h''⟩ := hr
      have hr := hwrites.eq x' hx' hc
      refine ⟨_, ?_, _, _, hwrites.next x' hx' hc, h'', by rw [List.append_assoc, ← hr, ht], rfl⟩
      -- every round writes something
      have hpos := List.length_pos_iff.mpr (hwrites.ne_nil x' hx' hc)
      rw [hr, List.length_append]
      omega
  have hI : I (rest x).length buf w := ⟨x, out, hx, h, rfl, rfl⟩
  refine (Prog.wp_loop hstep hI hn).mono fun r w' hr => ?_
  obtain ⟨v, rfl, rfl, hout⟩ := hr
  exact ⟨rfl, hout⟩

theorem IsStdout.update {fd : Nat} (h : IsStdout (fds STDOUT)) (h₂ : 2 ≤ fd) (e : FdEntry) :
    IsStdout (Function.update fds fd e STDOUT) := by
  rwa [Function.update_of_ne (by simp only [STDOUT]; omega)]

/-- A round of `cat`, by what its read returns. -/
theorem wp_catRound {fd : Nat} {fds' : Nat → FdEntry} {l : List Byte} {buf : Mem} (hread :
      (ece391Read fd buf.byte 1024).Wp (userHost img p) (fun r w' =>
        r = ((l.length : Int), (Mem.fresh buf.byte).storeList 0 l) ∧ Running p fds' out w') w)
    (ho : IsStdout (fds' STDOUT)) : (catRound fd buf).Wp (userHost img p) (fun r w' =>
      if l = [] then r = .inr 0 ∧ w'.output = out else (∃ buf', r = .inl buf') ∧ Running p fds' (out ++ l) w') w := by
  refine Prog.wp_bind'.mpr (hread.mono fun r w' hr => ?_)
  obtain ⟨rfl, h⟩ := hr
  simp only [Mem.paste_storeList]
  by_cases hl : l = []
  · subst hl
    exact ⟨rfl, h.output⟩
  · have hpos := List.length_pos_iff.mpr hl
    simp only [if_neg hl]
    rw [if_neg (by omega), if_neg (by omega)]
    refine Prog.wp_bind'.mpr ((wp_write h ho (buf.storeList 0 l).byte).mono fun v w' hv => ?_)
    obtain ⟨rfl, hw⟩ := hv
    rw [map_byte_storeList] at hw
    rw [if_neg (by omega)]
    exact ⟨⟨_, rfl⟩, hw⟩

/-- A round of `ls`. -/
theorem wp_lsRound {fd : Nat} {fds' : Nat → FdEntry} {l : List Byte} {buf : Mem} (hread :
      (ece391Read fd buf.byte (SBUFSIZE - 1)).Wp (userHost img p) (fun r w' =>
        r = ((l.length : Int), (Mem.fresh buf.byte).storeList 0 l) ∧ Running p fds' out w') w)
    (ho : IsStdout (fds' STDOUT)) : (lsRound fd buf).Wp (userHost img p) (fun r w' =>
      if l = [] then r = .inr 0 ∧ w'.output = out
      else (∃ buf', r = .inl buf') ∧ Running p fds' (out ++ (l ++ [0x0a#8])) w') w := by
  refine Prog.wp_bind'.mpr (hread.mono fun r w' hr => ?_)
  obtain ⟨rfl, h⟩ := hr
  simp only [Mem.paste_storeList]
  by_cases hl : l = []
  · subst hl
    exact ⟨rfl, h.output⟩
  · have hpos := List.length_pos_iff.mpr hl
    have hline : (buf.storeList 0 l).store l.length 0x0a#8 = buf.storeList 0 (l ++ [0x0a#8]) := by
      rw [← Mem.storeList_append, Nat.zero_add]
      rfl
    have hlen : ((l.length : Int) + 1) = ((l ++ [0x0a#8]).length : Nat) := by
      rw [List.length_append]
      rfl
    simp only [if_neg hl]
    rw [if_neg (by omega), if_neg (by omega)]
    simp only [Int.toNat_natCast, hline, hlen]
    refine Prog.wp_bind'.mpr ((wp_write h ho (buf.storeList 0 (l ++ [0x0a#8])).byte).mono fun v w' hv => ?_)
    obtain ⟨rfl, hw⟩ := hv
    rw [map_byte_storeList] at hw
    rw [if_neg (by omega)]
    exact ⟨⟨_, rfl⟩, hw⟩

/-! ### The directory, read to the first empty name -/

theorem dirNames_eq_take : img.dirNames = ((List.range img.dentryCount.toNat).map (entryName img)).take
    (((List.range img.dentryCount.toNat).map (entryName img)).findIdx (· = [])) := by
  rw [Image.dirNames, List.takeWhile_eq_take_findIdx_not]
  simp

theorem dirReport_eq_entryName {k : Nat} (hk : k < img.dentryCount.toNat) : dirReport img k = entryName img k :=
  if_pos (by omega)

theorem dirNames_drop {k : Nat} (hk : k < img.dirNames.length) :
    dirReport img k ≠ [] ∧ img.dirNames.drop k = dirReport img k :: img.dirNames.drop (k + 1) := by
  have hk' := hk
  rw [dirNames_eq_take, List.length_take, Nat.lt_min] at hk'
  have hc : k < img.dentryCount.toNat := by simpa using hk'.2
  have hne := List.not_of_lt_findIdx hk'.1
  rw [dirReport_eq_entryName hc]
  refine ⟨by simpa using hne, ?_⟩
  rw [List.drop_eq_getElem_cons hk]
  congr 1
  simp only [dirNames_eq_take, List.getElem_take, List.getElem_map, List.getElem_range]

/-- Then a read reports nothing. -/
theorem dirReport_length : dirReport img img.dirNames.length = [] := by
  by_cases hc : img.dirNames.length < img.dentryCount.toNat
  · rw [dirReport_eq_entryName hc]
    have hle : ((List.range img.dentryCount.toNat).map (entryName img)).findIdx (· = []) ≤
        ((List.range img.dentryCount.toNat).map (entryName img)).length := List.findIdx_le_length
    have hlen : img.dirNames.length = ((List.range img.dentryCount.toNat).map (entryName img)).findIdx (· = []) := by
      rw [dirNames_eq_take, List.length_take]
      omega
    have hlt : ((List.range img.dentryCount.toNat).map (entryName img)).findIdx (· = []) <
        ((List.range img.dentryCount.toNat).map (entryName img)).length := by
      rw [← hlen]
      simpa using hc
    have hf := List.findIdx_getElem (w := hlt)
    rw [hlen]
    simpa using hf
  · rw [dirReport, if_neg (by omega)]

/-! ## A process that has been started -/

theorem vacantOf_standardFds (old : Nat → FdEntry) : vacantOf (standardFds old) = some 2 := rfl

theorem isStdout_standardFds (old : Nat → FdEntry) : IsStdout (standardFds old STDOUT) := ⟨rfl, rfl⟩

/-- Its descriptors are those of `setup_PCB`. -/
theorem running_started {s₀ s : State} {command : Option CString} {k : ExecuteFrame} {target : Nat}
    (hx : execute img s₀ command k = .ok (.starts s target)) :
    ∃ old, Running s.currentPid (standardFds old) [] ⟨s, []⟩ := by
  rcases execute_eq_ok hx with ⟨v, s', he, -, -⟩ | ⟨c, n, page, target', -, -, -, -, he⟩
  · cases he
  · cases he
    refine ⟨(s₀.pcb n).fdEntry, ?_, ?_, rfl⟩
    · exact Function.update_self _ _ _
    · show (Function.update s₀.pcb n _ n).fdEntry = _
      rw [Function.update_self]

/-! ## What there is to read -/

/-- A regular file, from its positions on. -/
def fileSource (img : Image) (ino : Int) (n : Nat) : Source where
  Valid pos := pos ≤ (img.content (toU32 ino)).length
  entry := fileEntry ino
  chunk pos := ((img.content (toU32 ino)).drop pos).take n
  next pos := pos + (((img.content (toU32 ino)).drop pos).take n).length

/-- The directory, from its entries on. -/
def directorySource (img : Image) (ino : Int) : Source where
  Valid k := k ≤ img.dirNames.length
  entry := directoryEntry img ino
  chunk := dirReport img
  next := (· + 1)

/-- The clock. -/
def clockSource (ino : Int) : Source where
  Valid _ := True
  entry _ := ⟨rtcTable, ino, 0, .IN_USE⟩
  chunk _ := []
  next := id

section

variable {ino : Int} {fd n : Nat}

theorem fileSource_gives {blocks : Nat} (hf : img.HasFile blocks (toU32 ino)) (h₂ : 2 ≤ fd) (h₈ : fd < MAX_FD_NUM)
    (hn : n < 2 ^ 31) : (fileSource img ino n).Gives img p fd n := by
  intro pos fds out w buf hpos h
  have hread := wp_read_file h h₂ h₈ (Function.update_self _ _ _) hf hpos buf hn
  simp only [Function.update_idem] at hread
  exact hread

theorem fileSource_writes (hn : 0 < n) :
    (fileSource img ino n).Writes (fileSource img ino n).chunk (img.content (toU32 ino)).drop where
  next pos hpos _ := by
    simp only [fileSource, List.length_take, List.length_drop] at *
    omega
  nil pos _ hc := (List.take_eq_nil_iff.mp hc).resolve_left (by omega)
  ne_nil _ _ hc := hc
  eq pos hpos _ := by
    simp only [fileSource]
    rw [← List.drop_drop]
    generalize (img.content (toU32 ino)).drop pos = l
    rw [List.length_take]
    by_cases hl : n ≤ l.length
    · rw [Nat.min_eq_left hl, List.take_append_drop]
    · rw [Nat.min_eq_right (by omega), List.drop_length, List.append_nil, List.take_of_length_le (by omega)]

theorem directorySource_gives (h₂ : 2 ≤ fd) (h₈ : fd < MAX_FD_NUM) : (directorySource img ino).Gives img p fd n := by
  intro k fds out w buf _ h
  have hread := wp_read_directory h h₂ h₈ (Function.update_self _ _ _) buf n
  simp only [Function.update_idem] at hread
  exact hread

/-- What a reader writes that puts `f` of every name. -/
theorem directorySource_writes {f : List Byte → List Byte} (hf : ∀ l, l ≠ [] → f l ≠ []) :
    (directorySource img ino).Writes (fun k => f (dirReport img k)) fun k => ((img.dirNames.drop k).map f).flatten where
  next k hk hc := by
    simp only [directorySource] at *
    rcases Nat.lt_or_eq_of_le hk with h | rfl
    · omega
    · exact absurd dirReport_length hc
  nil k hk hc := by
    simp only [directorySource] at *
    rcases Nat.lt_or_eq_of_le hk with h | rfl
    · exact absurd hc (dirNames_drop h).1
    · simp
  ne_nil k _ hc := hf _ hc
  eq k hk hc := by
    simp only [directorySource] at *
    rcases Nat.lt_or_eq_of_le hk with h | rfl
    · rw [(dirNames_drop h).2, List.map_cons, List.flatten_cons]
    · exact absurd dirReport_length hc

theorem clockSource_gives (h₂ : 2 ≤ fd) (h₈ : fd < MAX_FD_NUM) : (clockSource ino).Gives img p fd n := by
  intro _ fds out w buf _ h
  refine (wp_read_rtc h h₂ h₈ (Function.update_self _ _ _) rfl rfl buf n).mono fun r w' hr => ?_
  exact hr

theorem clockSource_writes : (clockSource ino).Writes (fun _ => []) fun _ => [] where
  next _ _ hc := absurd rfl hc
  nil _ _ _ := rfl
  ne_nil _ _ hc := absurd rfl hc
  eq _ _ hc := absurd rfl hc

end

/-! ## `cat` -/

/-- The loop of `cat` writes what there is to read. -/
theorem wp_cat_loop (src : Source) {rest : Nat → List Byte} (hgives : src.Gives img p 2 1024)
    (hwrites : src.Writes src.chunk rest) (ho : IsStdout (fds STDOUT)) {x n : Nat} {buf : Mem} (hx : src.Valid x)
    (h : Running p (Function.update fds 2 (src.entry x)) out w) (hn : (rest x).length < n) :
    (Prog.loop (catRound 2) n buf).Wp (userHost img p) (fun r w' => r = some 0 ∧ w'.output = out ++ rest x) w :=
  src.wp_loop hwrites (fun x buf _ w hx h => wp_catRound (hgives x fds _ w buf.byte hx h) (ho.update (by decide) _)) hx h hn

theorem readDentryByName_isFile {name : CString} {d : Dentry} (hd : readDentryByName img name = some d)
    (ht : d.fileType = 2) : ∃ j, img.IsFile j ∧ img.inodeOf j = toU32 d.inodeNumber := by
  obtain ⟨j, hj, rfl⟩ := List.mem_map.mp (List.mem_of_find?_eq_some hd)
  exact ⟨j, ⟨List.mem_range.mp hj, ht⟩, rfl⟩

section

variable {name : CString} {d : Dentry} {n : Nat} {buf : Mem}

theorem wp_catFile_missing (h : Running p fds out w) (ho : IsStdout (fds STDOUT)) (h₀ : ¬ str "stdin" <+: name.1)
    (h₁ : ¬ str "stdout" <+: name.1) (hd : ∀ d, readDentryByName img name = some d → typeTable d.fileType = none) :
    (catFile n name buf).Wp (userHost img p) (fun r w' => r = some 2 ∧ w'.output = out ++ str "file not found\n") w := by
  refine Prog.wp_bind'.mpr ((wp_open_refused h h₀ h₁ hd).mono fun v w' hv => ?_)
  obtain ⟨rfl, h'⟩ := hv
  rw [if_pos rfl]
  exact Prog.wp_bind'.mpr ((wp_fdputs h' ho _).mono fun _ w'' h'' => ⟨rfl, h''.output⟩)

theorem wp_catFile (h : Running p fds out w) (ho : IsStdout (fds STDOUT)) (hv : vacantOf fds = some 2)
    (h₀ : ¬ str "stdin" <+: name.1) (h₁ : ¬ str "stdout" <+: name.1) (hd : readDentryByName img name = some d)
    {table : Operations} (ht : typeTable d.fileType = some table) (src : Source) {rest : Nat → List Byte}
    (hgives : src.Gives img p 2 1024) (hwrites : src.Writes src.chunk rest) (hvalid : src.Valid 0)
    (he : src.entry 0 = ⟨table, d.inodeNumber, 0, .IN_USE⟩) (hn : (rest 0).length < n) :
    (catFile n name buf).Wp (userHost img p) (fun r w' => r = some 0 ∧ w'.output = out ++ rest 0) w := by
  refine Prog.wp_bind'.mpr ((wp_open h h₀ h₁ hd hv ht).mono fun v w' hv => ?_)
  obtain ⟨rfl, h'⟩ := hv
  rw [if_neg (by decide)]
  rw [← he] at h'
  exact wp_cat_loop src hgives hwrites ho hvalid h' hn

end

/-- An entry of the directory, as `open` makes it, is at the directory's start. -/
theorem directorySource_entry (ino : Int) : (directorySource img ino).entry 0 = ⟨directoryTable, ino, 0, .IN_USE⟩ := by
  simp only [directorySource, directoryEntry, dirPosition, FdEntry.mk.injEq, true_and, and_true]
  split <;> omega

/-- What `cat` does with a name that is in the directory. -/
theorem wp_catFile_found {blocks : Nat} (hw : img.WellFormed blocks) (h : Running p fds out w) (ho : IsStdout (fds STDOUT))
    (hv : vacantOf fds = some 2) {name : CString} (h₀ : ¬ str "stdin" <+: name.1) (h₁ : ¬ str "stdout" <+: name.1)
    (hne : name.1 ≠ []) {d : Dentry} (hd : readDentryByName img name = some d) {n : Nat}
    (hn : (catResult img name).2.length < n) (buf : Mem) : (catFile n name buf).Wp (userHost img p) (fun r w' =>
      r = some (catResult img name).1 ∧ w'.output = out ++ (catResult img name).2) w := by
  simp only [catResult, if_neg hne, hd] at hn ⊢
  by_cases ht₀ : d.fileType = 0
  · simp only [if_pos ht₀] at hn ⊢
    exact wp_catFile h ho hv h₀ h₁ hd (by rw [typeTable, if_pos ht₀]) (clockSource d.inodeNumber)
      (clockSource_gives (by decide) (by decide)) clockSource_writes trivial rfl hn
  · by_cases ht₁ : d.fileType = 1
    · simp only [if_neg ht₀, if_pos ht₁] at hn ⊢
      have hwrites : (directorySource img d.inodeNumber).Writes (dirReport img) fun k => (img.dirNames.drop k).flatten := by
        have hw := @directorySource_writes img d.inodeNumber (fun l => l) fun _ h => h
        simpa using hw
      exact wp_catFile h ho hv h₀ h₁ hd (by rw [typeTable, if_neg ht₀, if_pos ht₁]) (directorySource img d.inodeNumber)
        (directorySource_gives (by decide) (by decide)) hwrites (Nat.zero_le _) (directorySource_entry _) hn
    · by_cases ht₂ : d.fileType = 2
      · simp only [if_neg ht₀, if_neg ht₁, if_pos ht₂] at hn ⊢
        obtain ⟨j, hj, hino⟩ := readDentryByName_isFile hd ht₂
        have hf : img.HasFile blocks (toU32 d.inodeNumber) := hino ▸ hw.hasFile hj
        exact wp_catFile h ho hv h₀ h₁ hd (by rw [typeTable, if_neg ht₀, if_neg ht₁, if_pos ht₂])
          (fileSource img d.inodeNumber 1024) (fileSource_gives hf (by decide) (by decide) (by decide))
          (fileSource_writes (by decide)) (Nat.zero_le _) rfl hn
      · simp only [if_neg ht₀, if_neg ht₁, if_neg ht₂] at hn ⊢
        refine wp_catFile_missing h ho h₀ h₁ fun d' hd' => ?_
        obtain rfl := Option.some.inj (hd.symm.trans hd')
        rw [typeTable, if_neg ht₀, if_neg ht₁, if_neg ht₂]

theorem wp_cat {blocks : Nat} (hw : img.WellFormed blocks) (h : Running p fds [] w) (ho : IsStdout (fds STDOUT))
    (hv : vacantOf fds = some 2) {name : CString} (hargs : Holds (w.kernel.pcb p).args name.1)
    (h₀ : ¬ str "stdin" <+: name.1) (h₁ : ¬ str "stdout" <+: name.1) {n : Nat}
    (hn : (catResult img name).2.length < n) (buf : Nat → Byte) : (cat n buf).Wp (userHost img p) (fun r w' =>
      r = some (catResult img name).1 ∧ w'.output = (catResult img name).2) w := by
  by_cases hne : name.1 = []
  · simp only [catResult, if_pos hne]
    rw [hne] at hargs
    refine Prog.wp_bind'.mpr ((wp_getargs_none h hargs buf 1024).mono fun r w' hr => ?_)
    obtain ⟨hr, h'⟩ := hr
    rw [if_pos (by rw [hr]; decide)]
    exact Prog.wp_bind'.mpr ((wp_fdputs h' ho _).mono fun _ w'' h'' => ⟨rfl, h''.output⟩)
  · have hlen := hargs.length
    simp only [MAX_LENGTH_ARG] at hlen
    refine Prog.wp_bind'.mpr ((wp_getargs h hargs hne buf (n := 1024) (by omega) (by decide)).mono fun r w' hr => ?_)
    obtain ⟨hr, hname, h'⟩ := hr
    have hname : Mem.cstr ((Mem.fresh buf).paste 0 r.2).byte 1024 = name := Subtype.ext hname
    rw [if_neg (by rw [hr]; decide), hname]
    cases hd : readDentryByName img name with
    | some d => exact wp_catFile_found hw h' ho hv h₀ h₁ hne hd hn _
    | none =>
      simp only [catResult, if_neg hne, hd]
      exact wp_catFile_missing h' ho h₀ h₁ fun d hd' => by rw [hd] at hd'; cases hd'

/-- **`cat` on the kernel.** Started with the arguments `name`, which do not begin as the name of a standard
descriptor, in whatever interleaving with interrupts and other processes: no call of it faults, and when it ends it
has written what it should, the content of the file, and returns what it should. -/
theorem cat_ok {blocks : Nat} (hw : img.WellFormed blocks) {s₀ s : State} {command : Option CString} {k : ExecuteFrame}
    {target : Nat} (hx : execute img s₀ command k = .ok (.starts s target)) {name : CString}
    (hargs : Holds s.curPcb.args name.1) (h₀ : ¬ str "stdin" <+: name.1) (h₁ : ¬ str "stdout" <+: name.1) {n : Nat}
    (hn : (catResult img name).2.length < n) (buf : Nat → Byte) :
    ¬ Prog.Stuck (userHost img s.currentPid) (cat n buf) ⟨s, []⟩ ∧
      ∀ r w, Prog.Exec (userHost img s.currentPid) (cat n buf) ⟨s, []⟩ r w →
        r = some (catResult img name).1 ∧ w.output = (catResult img name).2 := by
  obtain ⟨old, h⟩ := running_started hx
  have hcat := wp_cat hw h (isStdout_standardFds old) (vacantOf_standardFds old) hargs h₀ h₁ hn buf
  exact ⟨hcat.not_stuck, fun _ _ he => hcat.exec he⟩

/-- An image with the directory, an executable `prog` of 28 bytes and a file `notes` of three lines. -/
def notesImage : Image := fun a =>
  if a = 0 then 3#8
  else if a = 4 ∨ a = 8 then 2#8
  else if a = 64 then 0x2e#8
  else if a = 96 then 1#8
  else if 128 ≤ a ∧ a < 132 then (str "prog").getD (a - 128) 0#8
  else if a = 160 then 2#8
  else if 192 ≤ a ∧ a < 197 then (str "notes").getD (a - 192) 0#8
  else if a = 224 then 2#8
  else if a = 228 then 1#8
  else if a = 4096 then 28#8
  else if a = 8192 then 9#8
  else if a = 8196 then 1#8
  else if 12288 ≤ a ∧ a < 12292 then magicNumber (a - 12288)
  else if 16384 ≤ a then (str "ab\ncd\nxab").getD (a - 16384) 0#8
  else 0#8

theorem notesImage_wellFormed : notesImage.WellFormed 2 := by
  have hcount : notesImage.dentryCount.toNat = 3 := by decide +kernel
  have hcases : ∀ j, notesImage.IsFile j → notesImage.inodeOf j < 2 := by
    rintro j ⟨hj, ht⟩
    rw [hcount] at hj
    obtain rfl | rfl | rfl : j = 0 ∨ j = 1 ∨ j = 2 := by omega
    · exact absurd ht (by decide +kernel)
    · decide +kernel
    · decide +kernel
  have hlen : ∀ i < 2, inodeLength notesImage i ≤ 28 ∧ dataBlockNumber notesImage i 0 < 2 := by decide +kernel
  have hinodes : notesImage.inodeCount = 2 := by decide +kernel
  refine ⟨⟨fun j hj => hinodes ▸ hcases j hj, fun j hj => ?_⟩, by rw [hinodes]; decide, fun j hj k hk => ?_⟩
  · have := (hlen _ (hcases j hj)).1
    omega
  · have h := hlen _ (hcases j hj)
    obtain rfl : k = 0 := by omega
    exact h.2

/-- The program is started, with these arguments. -/
theorem notesImage_starts (command : CString) (args : List Byte)
    (hs : (execute notesImage boot (some command) emptyFrame).toOption.any fun r => r matches .starts _ _)
    (hargs : Holds (newArgs (Parse.command emptyFrame command) fun _ => 0#8) args) :
    ∃ s target, execute notesImage boot (some command) emptyFrame = .ok (.starts s target) ∧ Holds s.curPcb.args args := by
  cases hx : execute notesImage boot (some command) emptyFrame with
  | error f =>
    rw [hx] at hs
    cases hs
  | ok r =>
    rw [hx] at hs
    rcases execute_eq_ok hx with ⟨v, s', rfl, -, -⟩ | ⟨c, n, page, target, hc, -, -, -, rfl⟩
    · cases hs
    · obtain rfl := Option.some.inj hc
      refine ⟨_, target, rfl, ?_⟩
      rw [State.curPcb]
      simp only [started, Function.update_self]
      exact hargs

def progNotes : CString := ⟨str "prog notes", by decide⟩

def notesName : CString := ⟨str "notes", by decide⟩

/-- The file `notes`. -/
theorem cat_ok_notes : ∃ s target, execute notesImage boot (some progNotes) emptyFrame = .ok (.starts s target) ∧
    ¬ Prog.Stuck (userHost notesImage s.currentPid) (cat 10 fun _ => 0#8) ⟨s, []⟩ ∧
      ∀ r w, Prog.Exec (userHost notesImage s.currentPid) (cat 10 fun _ => 0#8) ⟨s, []⟩ r w →
        r = some 0 ∧ w.output = str "ab\ncd\nxab" := by
  obtain ⟨s, target, hx, hargs⟩ := notesImage_starts progNotes notesName.1 (by decide +kernel)
    ⟨by decide, notesName.2, by decide +kernel, by decide +kernel⟩
  have hres : catResult notesImage notesName = (0, str "ab\ncd\nxab") := by decide +kernel
  have hcat := cat_ok notesImage_wellFormed hx hargs (by decide) (by decide) (n := 10) (by rw [hres]; decide) fun _ => 0#8
  rw [hres] at hcat
  exact ⟨s, target, hx, hcat⟩

/-! ## `ls` -/

theorem wp_ls {d : Dentry} (h : Running p fds [] w) (ho : IsStdout (fds STDOUT)) (hv : vacantOf fds = some 2)
    (hd : readDentryByName img dot = some d) (ht : d.fileType = 1) {n : Nat} (hn : (lsOutput img).length < n)
    (buf : Nat → Byte) :
    (ls n buf).Wp (userHost img p) (fun r w' => r = some 0 ∧ w'.output = lsOutput img) w := by
  have htable : typeTable d.fileType = some directoryTable := by
    rw [ht]
    rfl
  refine Prog.wp_bind'.mpr ((wp_open h (by decide) (by decide) hd hv htable).mono fun v w' hr => ?_)
  obtain ⟨rfl, h'⟩ := hr
  have he : (directorySource img d.inodeNumber).entry 0 = ⟨directoryTable, d.inodeNumber, 0, .IN_USE⟩ :=
    directorySource_entry _
  rw [← he] at h'
  rw [if_neg (by decide)]
  have hwrites := @directorySource_writes img d.inodeNumber (· ++ [0x0a#8]) (by simp)
  refine (directorySource img d.inodeNumber).wp_loop hwrites (fun k buf out w hk h => ?_) (Nat.zero_le _) h' hn
  exact wp_lsRound (directorySource_gives (by decide) (by decide) k fds out w buf.byte hk h) (ho.update (by decide) _)

/-- **`ls` on the kernel.** In whatever interleaving, it writes the names in the directory and returns 0. -/
theorem ls_ok {s₀ s : State} {command : Option CString} {k : ExecuteFrame} {target : Nat}
    (hx : execute img s₀ command k = .ok (.starts s target)) {d : Dentry} (hd : readDentryByName img dot = some d)
    (ht : d.fileType = 1) {n : Nat} (hn : (lsOutput img).length < n) (buf : Nat → Byte) :
    ¬ Prog.Stuck (userHost img s.currentPid) (ls n buf) ⟨s, []⟩ ∧
      ∀ r w, Prog.Exec (userHost img s.currentPid) (ls n buf) ⟨s, []⟩ r w → r = some 0 ∧ w.output = lsOutput img := by
  obtain ⟨old, h⟩ := running_started hx
  have hls := wp_ls h (isStdout_standardFds old) (vacantOf_standardFds old) hd ht hn buf
  exact ⟨hls.not_stuck, fun _ _ he => hls.exec he⟩

theorem ls_ok_notes : ∃ s target, execute notesImage boot (some progNotes) emptyFrame = .ok (.starts s target) ∧
    ¬ Prog.Stuck (userHost notesImage s.currentPid) (ls 20 fun _ => 0#8) ⟨s, []⟩ ∧
      ∀ r w, Prog.Exec (userHost notesImage s.currentPid) (ls 20 fun _ => 0#8) ⟨s, []⟩ r w →
        r = some 0 ∧ w.output = str ".\nprog\nnotes\n" := by
  obtain ⟨s, target, hx, -⟩ := notesImage_starts progNotes notesName.1 (by decide +kernel)
    ⟨by decide, notesName.2, by decide +kernel, by decide +kernel⟩
  have hout : lsOutput notesImage = str ".\nprog\nnotes\n" := by decide +kernel
  obtain ⟨d, hd, ht⟩ : ∃ d, readDentryByName notesImage dot = some d ∧ d.fileType = 1 :=
    ⟨dentryAt notesImage 0, by decide +kernel, by decide +kernel⟩
  have hls := ls_ok hx hd ht (n := 20) (by rw [hout]; decide) fun _ => 0#8
  rw [hout] at hls
  exact ⟨s, target, hx, hls⟩

end

end LimeOS
