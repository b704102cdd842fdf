import Mathlib.Data.List.Forall2
import LimeOS.Impl.Reader
import LimeOS.Proof.Keyboard

/-!
# From the keyboard to a reader

A log keeps the lines that Enter commits and what the calls of `terminal_read`
return (`ReadLog`). A call clears the flag and then the first byte of the buffer:
a line committed between the two loses its first byte and is read. While no Enter
commits a line there, every call returns the whole of a line committed since it
began, and no line is returned twice (`reads_whole_lines`).
-/

namespace LimeOS

/-! ## What a key does to the mailbox -/

theorem keyOp_eq_enter {s : State} {c : Byte} : keyOp s c = .enter ↔ c = PRESS_ENTER := by
  refine ⟨fun h => ?_, fun h => if_pos h⟩
  by_contra hc
  simp only [keyOp, if_neg hc] at h
  repeat' split at h
  all_goals cases h

/-- Only Enter, and only with the first byte zero, writes a line. -/
theorem Input.press_commandBuf {k : Input} {op : KeyOp} (h : ¬ (op = .enter ∧ (k.commandBuf k.terminalNum).byte 0 = 0#8)) :
    (k.press op).commandBuf = k.commandBuf := by
  cases op with
  | type b =>
    rw [Input.press]
    split <;> rfl
  | enter =>
    have h₀ : (k.commandBuf k.terminalNum).byte 0 ≠ 0#8 := fun h₀ => h ⟨rfl, h₀⟩
    simp only [Input.press, Input.commit, Input.push, Input.setIndex, h₀, if_false]
  | backspace =>
    rw [Input.press]
    split <;> rfl
  | clear => rfl
  | switch newTty => rfl
  | other => rfl

/-- The loop finds a newline, and stores the one it finds. -/
theorem commitLine_found (charBuf : Nat → Byte) {d n : Nat} {i : Nat} (m : Mem) (hd : d < n)
    (hc : charBuf (i + d) = 0x0a#8) :
    (commitLine charBuf n i m).2 = true ∧ ∃ j ≤ d, (commitLine charBuf n i m).1.byte (i + j) = 0x0a#8 := by
  induction n generalizing d i m with
  | zero => omega
  | succ n ih =>
    rw [commitLine]
    by_cases h : charBuf i = 0x0a#8
    · rw [if_pos h]
      refine ⟨rfl, 0, Nat.zero_le _, ?_⟩
      simp [h]
    · rw [if_neg h]
      have hne : d ≠ 0 := by
        rintro rfl
        exact h hc
      obtain ⟨h₁, j, hj, h₂⟩ := ih (d := d - 1) (i := i + 1) (m.store i (charBuf i)) (by omega)
        (by rwa [show i + 1 + (d - 1) = i + d by omega])
      exact ⟨h₁, j + 1, by omega, by rwa [show i + (j + 1) = i + 1 + j by omega]⟩

theorem KeyFrame.tEnterFlag {s s' : State} (h : KeyFrame s s') : s'.tEnterFlag = s.tEnterFlag := by rw [h]

theorem terminalSwitch_tEnterFlag (s : State) (newTty : Nat) : (terminalSwitch s newTty).tEnterFlag = s.tEnterFlag := by
  simp only [terminalSwitch]
  rw [updateCursor_frame]

/-- The newline that Enter stores is after the line, within the buffer. -/
theorem commitLine_enter {s : State} (hi : -1 ≤ s.bufIndex s.terminalNum ∧ s.bufIndex s.terminalNum ≤ 126) (m : Mem) :
    let r := commitLine (s.charBuf.store (s.bufIndex s.terminalNum + 1).toNat 0x0a#8).byte CHARACTER_BUFFER_SIZE 0 m
    r.2 = true ∧ ∃ i ≤ 127, r.1.byte i = 0x0a#8 := by
  have hlt : (s.bufIndex s.terminalNum + 1).toNat < CHARACTER_BUFFER_SIZE := by
    show _ < 128
    omega
  obtain ⟨h₁, j, hj, h₂⟩ := commitLine_found
    (s.charBuf.store (s.bufIndex s.terminalNum + 1).toNat 0x0a#8).byte (i := 0) m hlt
    (by rw [Nat.zero_add, Mem.store_byte_self])
  rw [Nat.zero_add] at h₂
  exact ⟨h₁, j, by omega, h₂⟩

/-- Enter sets the flag when it writes the line. -/
theorem enterPressed_flag {s : State} (hi : -1 ≤ s.bufIndex s.terminalNum ∧ s.bufIndex s.terminalNum ≤ 126) :
    (enterPressed s).tEnterFlag = if (s.commandBuf s.terminalNum).byte 0 = 0#8
      then Function.update s.tEnterFlag s.terminalNum true else s.tEnterFlag := by
  have hf := (commitLine_enter hi (s.commandBuf s.terminalNum)).1
  simp only [enterPressed, pushChar, hf, if_true]
  split
  · rfl
  · rfl

/-- Nothing else of the handler sets it. -/
theorem keyboardHandler_tEnterFlag {s : State}
    (hi : -1 ≤ s.bufIndex s.terminalNum ∧ s.bufIndex s.terminalNum ≤ 126) (c : Byte) :
    (keyboardHandler s c).tEnterFlag = if c = PRESS_ENTER ∧ (s.commandBuf s.terminalNum).byte 0 = 0#8
      then Function.update s.tEnterFlag s.terminalNum true else s.tEnterFlag := by
  by_cases hc : c = PRESS_ENTER
  · have hd : keyboardOutputDealer s c = enterPressed s := if_pos hc
    rw [(keyboardHandler_tail_frame s c).tEnterFlag, hd, enterPressed_flag hi]
    simp only [hc, true_and]
  · rw [if_neg fun h => hc h.1]
    rcases keyboardHandler_frame s c with ⟨hc', -⟩ | ⟨-, ⟨n, -, hf⟩ | hf⟩
    · exact absurd hc' hc
    · rw [hf.tEnterFlag, terminalSwitch_tEnterFlag]
    · exact hf.tEnterFlag

/-- A key commits the line, or leaves the flags and the buffers. -/
theorem keyboardHandler_mailbox {s : State} {lines : Nat → List Byte} (h : Typed s.input lines) (he : s.enterFlag = false)
    (c : Byte) :
    ((c = PRESS_ENTER ∧ (s.commandBuf s.terminalNum).byte 0 = 0#8) ∧
      (keyboardHandler s c).tEnterFlag = Function.update s.tEnterFlag s.terminalNum true ∧
      HoldsLine ((keyboardHandler s c).commandBuf s.terminalNum) (lines s.terminalNum)) ∨
    (¬ (c = PRESS_ENTER ∧ (s.commandBuf s.terminalNum).byte 0 = 0#8) ∧
      (keyboardHandler s c).tEnterFlag = s.tEnterFlag ∧ (keyboardHandler s c).commandBuf = s.commandBuf) := by
  have hi : (keyboardHandler s c).commandBuf = (s.input.press (keyOp s c)).commandBuf :=
    congrArg Input.commandBuf (keyboardHandler_input c he).1
  have hidx := h.index _ h.lt
  have hlen := h.length _ h.lt
  have hmax : LINE_MAX = 127 := rfl
  have hflag := keyboardHandler_tEnterFlag (s := s) (by simp only [State.input] at hidx hlen; omega) c
  by_cases hb : c = PRESS_ENTER ∧ (s.commandBuf s.terminalNum).byte 0 = 0#8
  · refine .inl ⟨hb, ?_, ?_⟩
    · rw [hflag, if_pos hb]
    · rw [hi, keyOp_eq_enter.mpr hb.1]
      exact h.holdsLine hb.2
  · refine .inr ⟨hb, ?_, ?_⟩
    · rw [hflag, if_neg hb]
    · rw [hi]
      exact Input.press_commandBuf fun hc => hb ⟨keyOp_eq_enter.mp hc.1, hc.2⟩

/-! ## A call without a key in between -/

/-- The copying loop, two statements for each byte. -/
theorem copyLine_reader {s : State} {t : Nat} : ∀ {n i : Nat} {buf : Mem} {r : Nat × Mem},
    i + n = CHARACTER_BUFFER_SIZE → copyLine (s.commandBuf t).byte n i buf = some r →
    i ≤ r.1 ∧ run (readerStep t) ⟨s, .copy i, buf⟩ (List.replicate (2 * (r.1 - i)) .next) = some ⟨s, .idle, r.2⟩
  | 0, _, _, _, _, h => by cases h
  | n + 1, i, buf, r, hn, h => by
    rw [copyLine] at h
    have hi : i < CHARACTER_BUFFER_SIZE := by omega
    have hcopy : readerStep t ⟨s, .copy i, buf⟩ .next =
        some ⟨s, .test i, buf.store i ((s.commandBuf t).byte i)⟩ := if_pos hi
    split at h
    · rename_i hb
      obtain rfl := Option.some.inj h
      refine ⟨by simp, ?_⟩
      rw [show 2 * (i + 1 - i) = 2 by omega, List.replicate_succ, run_cons hcopy, List.replicate_one]
      simp only [run, readerStep, readerNext, if_pos hb, Option.bind_some]
    · rename_i hb
      obtain ⟨hle, ih⟩ := copyLine_reader (by omega) h
      refine ⟨by omega, ?_⟩
      have htest : readerStep t ⟨s, .test i, buf.store i ((s.commandBuf t).byte i)⟩ .next =
          some ⟨s, .copy (i + 1), buf.store i ((s.commandBuf t).byte i)⟩ := by
        simp only [readerStep, readerNext, if_neg hb]
      rw [show 2 * (r.1 - i) = 2 * (r.1 - (i + 1)) + 1 + 1 by omega, List.replicate_succ, List.replicate_succ,
        run_cons hcopy, run_cons htest, ih]

/-- `terminal_read` in one piece is the reader's statements up to the wait and, once the line is there, those after it. -/
theorem terminalRead_reader {s s' : State} {f line : Nat → Byte} {v : Int} {buf : Mem}
    (h : terminalRead s (some (.fresh f)) line = .ok (v, some buf, s')) (b : Mem) :
    run (readerStep (getTty s)) ⟨s, .idle, b⟩ [.call f, .next, .next] =
        some ⟨terminalReadBegin s (getTty s), .poll, .fresh f⟩ ∧
      run (readerStep (getTty s)) ⟨lineCommitted (terminalReadBegin s (getTty s)) (getTty s) line, .poll, .fresh f⟩
        (.next :: List.replicate (2 * v.toNat) .next) = some ⟨s', .idle, buf⟩ := by
  refine ⟨rfl, ?_⟩
  simp only [terminalRead] at h
  cases hc : copyLine line CHARACTER_BUFFER_SIZE 0 (.fresh f) with
  | none =>
    rw [hc] at h
    cases h
  | some r =>
    rw [hc] at h
    cases h
    have hl : ((lineCommitted (terminalReadBegin s (getTty s)) (getTty s) line).commandBuf (getTty s)).byte = line := by
      simp only [lineCommitted, Function.update_self]
    obtain ⟨-, hr⟩ := copyLine_reader (Nat.zero_add _) (hl.symm ▸ hc)
    have hpoll : readerStep (getTty s)
        ⟨lineCommitted (terminalReadBegin s (getTty s)) (getTty s) line, .poll, .fresh f⟩ .next =
        some ⟨lineCommitted (terminalReadBegin s (getTty s)) (getTty s) line, .copy 0, .fresh f⟩ := by
      simp only [readerStep, readerNext, lineCommitted, Function.update_self, if_true]
    rw [run_cons hpoll]
    exact hr

/-! ## The log -/

/-- A call of `terminal_read` that has returned `value`. -/
structure ReadCall where
  /-- The lines committed before it. -/
  began : Nat
  /-- The lines committed when it returned. -/
  ended : Nat
  value : Nat
  buf : Mem

structure ReadLog where
  /-- The line typed since Enter. -/
  line : List Byte
  /-- The lines committed, with their newlines. -/
  commits : List (List Byte)
  /-- The lines committed before the call under way. -/
  began : Nat
  /-- The calls that have returned, the latest first. -/
  calls : List ReadCall

section

variable (t : Nat)

/-- Enter finds the first byte zero and writes the line. -/
def Commits (q : Reader) (c : Byte) : Prop := c = PRESS_ENTER ∧ (q.kernel.commandBuf t).byte 0 = 0#8

instance (q : Reader) (c : Byte) : Decidable (Commits t q c) := inferInstanceAs (Decidable (_ ∧ _))

def readLog (q : Reader) (e : ReaderEvent) (h : ReadLog) : ReadLog :=
  match e with
  | .key c =>
    { h with
      line := (keyOp q.kernel c).edit h.line
      commits := if Commits t q c then h.commits ++ [h.line ++ [0x0a#8]] else h.commits }
  | .call _ => { h with began := h.commits.length }
  | .next =>
    match q.pc with
    | .test i =>
      if (q.kernel.commandBuf t).byte i = 0x0a#8 then
        { h with calls := ⟨h.began, h.commits.length, i + 1, q.buf⟩ :: h.calls }
      else h
    | _ => h

/-- No line is committed between a call's two resets. -/
def CommitApart (q : Reader) : ReaderEvent → Prop
  | .key c => q.pc = .clearByte → ¬ Commits t q c
  | _ => True

instance (q : Reader) : ∀ e, Decidable (CommitApart t q e)
  | .key c => inferInstanceAs (Decidable (q.pc = .clearByte → ¬ Commits t q c))
  | .call _ => .isTrue trivial
  | .next => .isTrue trivial

end

/-- A call stored the bytes of the line `j` and no others, and that line was committed during the call. -/
structure Delivered (commits : List (List Byte)) (c : ReadCall) (j : Nat) : Prop where
  began : c.began ≤ j
  ended : j < c.ended
  stored : c.buf.stored = (List.range c.value).reverse
  line : ∃ l, commits[j]? = some (l ++ [0x0a#8]) ∧ (List.range c.value).map c.buf.byte = l ++ [0x0a#8] ∧
    0x0a#8 ∉ l ∧ 0#8 ∉ l

/-- Each call has a line of its own. -/
def HandsOver (h : ReadLog) : Prop := ∃ js : List Nat, js.Nodup ∧ List.Forall₂ (Delivered h.commits) h.calls js

namespace Delivered

variable {commits : List (List Byte)}

theorem lt_length {c : ReadCall} {j : Nat} (h : Delivered commits c j) : j < commits.length := by
  obtain ⟨l, hl, -⟩ := h.line
  exact (List.getElem?_eq_some_iff.mp hl).1

theorem append {c : ReadCall} {j : Nat} (h : Delivered commits c j) (l : List (List Byte)) :
    Delivered (commits ++ l) c j := by
  obtain ⟨l', hl, h'⟩ := h.line
  refine ⟨h.began, h.ended, h.stored, l', ?_, h'⟩
  rw [List.getElem?_append_left h.lt_length, hl]

theorem forall_lt {calls : List ReadCall} {js : List Nat} (h : List.Forall₂ (Delivered commits) calls js) :
    ∀ j ∈ js, j < commits.length := by
  induction h with
  | nil => simp
  | cons hd _ ih => exact List.forall_mem_cons.mpr ⟨hd.lt_length, ih⟩

end Delivered

/-! ## The invariant -/

/-- `command_buf[t]` holds a line committed since the call began. -/
structure Holding (m : Mem) (h : ReadLog) (l : List Byte) : Prop where
  holds : HoldsLine m l
  length : l.length ≤ LINE_MAX
  text : 0#8 ∉ l
  since : ∃ j, h.began ≤ j ∧ h.commits[j]? = some (l ++ [0x0a#8])

/-- The first `n` bytes of the line are in the reader's buffer. -/
structure Stored (buf : Mem) (l : List Byte) (n : Nat) : Prop where
  stored : buf.stored = (List.range n).reverse
  bytes : ∀ j < n, (l ++ [0x0a#8])[j]? = some (buf.byte j)

/-- Where the call under way is, by the flag and the buffer of its terminal. -/
def Phase (flag : Bool) (m buf : Mem) (h : ReadLog) : ReadPc → Prop
  | .idle => True
  | .clearFlag => buf.stored = []
  | .clearByte => buf.stored = [] ∧ flag = false
  | .poll => buf.stored = [] ∧ (flag = false ∧ m.byte 0 = 0#8 ∨ flag = true ∧ ∃ l, Holding m h l)
  | .copy i => ∃ l, Holding m h l ∧ i ≤ l.length ∧ Stored buf l i
  | .test i => ∃ l, Holding m h l ∧ i ≤ l.length ∧ Stored buf l (i + 1)

structure Reading (t : Nat) (p : Reader × ReadLog) : Prop where
  terminal : p.1.kernel.terminalNum = t
  typed : Typed p.1.kernel.input (Function.update (fun _ => []) t p.2.line)
  enter : p.1.kernel.enterFlag = false
  text : 0#8 ∉ p.2.line
  began : p.2.began ≤ p.2.commits.length
  delivered : ∃ js : List Nat, js.Nodup ∧ List.Forall₂ (Delivered p.2.commits) p.2.calls js ∧
    (p.1.pc ≠ .idle → ∀ j ∈ js, j < p.2.began)
  phase : Phase (p.1.kernel.tEnterFlag t) (p.1.kernel.commandBuf t) p.1.buf p.2 p.1.pc

namespace Holding

variable {m : Mem} {h : ReadLog} {l : List Byte}

theorem byte (hh : Holding m h l) {i : Nat} (hi : i ≤ l.length) : (l ++ [0x0a#8])[i]? = some (m.byte i) := by
  rw [← hh.holds.2, List.getElem?_map, List.getElem?_range (by omega)]
  rfl

/-- The newline is at the end of the line and nowhere before. -/
theorem byte_eq_newline (hh : Holding m h l) {i : Nat} (hi : i ≤ l.length) : m.byte i = 0x0a#8 ↔ i = l.length := by
  have hb := hh.byte hi
  constructor
  · intro hn
    by_contra hne
    rw [List.getElem?_append_left (by omega), hn] at hb
    exact hh.holds.1 (List.mem_of_getElem? hb)
  · rintro rfl
    simpa using hb.symm

theorem byte_zero_ne (hh : Holding m h l) : m.byte 0 ≠ 0#8 := by
  have hb := hh.byte (Nat.zero_le _)
  intro h₀
  rw [h₀] at hb
  rcases List.mem_append.mp (List.mem_of_getElem? hb) with hm | hm
  · exact hh.text hm
  · exact absurd (List.mem_singleton.mp hm) (by decide)

end Holding

theorem Stored.succ {buf : Mem} {l : List Byte} {n : Nat} {b : Byte} (h : Stored buf l n)
    (hb : (l ++ [0x0a#8])[n]? = some b) : Stored (buf.store n b) l (n + 1) := by
  refine ⟨?_, fun j hj => ?_⟩
  · rw [Mem.store_stored, h.stored, List.range_succ, List.reverse_append]
    rfl
  · by_cases hjn : j = n
    · subst hjn
      rw [hb, Mem.store_byte_self]
    · rw [Mem.store_byte_of_ne _ _ hjn]
      exact h.bytes j (by omega)

/-- The whole line is in the buffer. -/
theorem Stored.whole {buf : Mem} {l : List Byte} (h : Stored buf l (l.length + 1)) :
    (List.range (l.length + 1)).map buf.byte = l ++ [0x0a#8] := by
  refine List.ext_getElem (by simp) fun j h₁ h₂ => ?_
  have hb := h.bytes j (by simpa using h₁)
  rw [List.getElem?_eq_getElem h₂, Option.some.injEq] at hb
  rw [List.getElem_map, List.getElem_range, hb]

/-! ### A key -/

theorem KeyOp.zero_notMem_edit {op : KeyOp} {line : List Byte} (h : 0#8 ∉ line) (hb : ∀ b, op = .type b → b ≠ 0#8) :
    0#8 ∉ op.edit line := by
  cases op with
  | type b =>
    rw [KeyOp.edit]
    split
    · rw [List.mem_append, List.mem_singleton, not_or]
      exact ⟨h, (hb b rfl).symm⟩
    · exact h
  | enter => exact List.not_mem_nil
  | backspace => exact fun hm => h (List.dropLast_subset _ hm)
  | clear => exact List.not_mem_nil
  | switch newTty => exact h
  | other => exact h

/-- While one terminal is displayed, the others have no line for its keys to disturb. -/
theorem Typed.one {k : Input} {t : Nat} {line : List Byte} (ht : k.terminalNum = t)
    (h : Typed k (Function.update (fun _ => []) t line)) (op : KeyOp) : k.Undisturbed op := by
  refine .of_empty ?_ (fun u hu hne => ?_) op
  · rw [Input.index, h.index _ h.lt]
    omega
  · rw [h.index u hu, Function.update_of_ne (by rwa [ht] at hne)]
    rfl

theorem Typed.press_one {k : Input} {t : Nat} {line : List Byte} (ht : k.terminalNum = t)
    (h : Typed k (Function.update (fun _ => []) t line)) {op : KeyOp} (hb : ∀ b, op = .type b → b ≠ 0x0a#8)
    (hs : ∀ u, op = .switch u → u < 3) :
    Typed (k.press op) (Function.update (fun _ => []) t (op.edit line)) := by
  have hp := h.press (h.one ht op) hb hs
  rwa [ht, Function.update_idem, Function.update_self] at hp

/-- The line that Enter commits waits for the call that polls. -/
theorem Phase.commit {m m' buf : Mem} {h h' : ReadLog} {pc : ReadPc} {flag : Bool} (hp : Phase flag m buf h pc)
    (hpc : pc ≠ .clearByte) (h₀ : m.byte 0 = 0#8) {l : List Byte} (hl : Holding m' h' l) : Phase true m' buf h' pc := by
  cases pc with
  | idle => trivial
  | clearFlag => exact hp
  | clearByte => exact absurd rfl hpc
  | poll => exact ⟨hp.1, .inr ⟨rfl, l, hl⟩⟩
  | copy i =>
    obtain ⟨_, hh, -⟩ := hp
    exact absurd h₀ hh.byte_zero_ne
  | test i =>
    obtain ⟨_, hh, -⟩ := hp
    exact absurd h₀ hh.byte_zero_ne

/-- The log grows by what is typed. -/
theorem Phase.typed {m buf : Mem} {h : ReadLog} {pc : ReadPc} {flag : Bool} (hp : Phase flag m buf h pc) (line : List Byte) :
    Phase flag m buf { h with line := line } pc := by
  have hh : ∀ l, Holding m h l → Holding m { h with line := line } l := fun l ⟨h₁, h₂, h₃, h₄⟩ => ⟨h₁, h₂, h₃, h₄⟩
  cases pc with
  | idle => trivial
  | clearFlag => exact hp
  | clearByte => exact hp
  | poll => exact ⟨hp.1, hp.2.imp_right fun ⟨hf, l, hl⟩ => ⟨hf, l, hh l hl⟩⟩
  | copy i =>
    obtain ⟨l, hl, h'⟩ := hp
    exact ⟨l, hh l hl, h'⟩
  | test i =>
    obtain ⟨l, hl, h'⟩ := hp
    exact ⟨l, hh l hl, h'⟩

namespace Reading

variable {t : Nat} {q q' : Reader} {h : ReadLog}

theorem key (hr : Reading t (q, h)) {c : Byte} (hok : CommitApart t q (.key c))
    (ht : (keyboardHandler q.kernel c).terminalNum = t) :
    Reading t ({ q with kernel := keyboardHandler q.kernel c }, readLog t q (.key c) h) := by
  obtain ⟨hterm, htyped, henter, htext, hbegan, ⟨js, hnd, hdel, hjs⟩, hphase⟩ := hr
  simp only at hterm htyped henter htext hbegan hdel hjs hphase
  obtain ⟨hi, he⟩ := keyboardHandler_input c henter
  have htyped' : Typed (keyboardHandler q.kernel c).input
      (Function.update (fun _ => []) t ((keyOp q.kernel c).edit h.line)) := by
    rw [hi]
    exact htyped.press_one hterm (fun _ hb => (keyOp_type_ne hb).1) (fun _ => keyOp_switch_lt)
  have htext' := KeyOp.zero_notMem_edit htext (fun _ hb => (keyOp_type (s := q.kernel) (c := c) hb).2)
  have hbox := keyboardHandler_mailbox htyped henter c
  rw [hterm, Function.update_self] at hbox
  have hlen := htyped.length t (hterm ▸ htyped.lt)
  rw [Function.update_self] at hlen
  rcases hbox with ⟨hc, hflag, hline⟩ | ⟨hc, hflag, hbuf⟩
  · have hlog : readLog t q (.key c) h = { h with
        line := (keyOp q.kernel c).edit h.line, commits := h.commits ++ [h.line ++ [0x0a#8]] } := by
      simp only [readLog, if_pos (show Commits t q c from hc)]
    rw [hlog]
    refine ⟨ht, htyped', he, htext', ?_, ⟨js, hnd, hdel.imp fun _ _ hd => hd.append _, hjs⟩, ?_⟩
    · simp only [List.length_append]
      omega
    · simp only [hflag, Function.update_self]
      refine hphase.commit (fun hpc => hok hpc hc) hc.2 (l := h.line) ⟨hline, hlen, htext, h.commits.length, hbegan, ?_⟩
      simp
  · have hlog : readLog t q (.key c) h = { h with line := (keyOp q.kernel c).edit h.line } := by
      simp only [readLog, if_neg (show ¬ Commits t q c from hc)]
    rw [hlog]
    refine ⟨ht, htyped', he, htext', hbegan, ⟨js, hnd, hdel, hjs⟩, ?_⟩
    simp only [hflag, hbuf]
    exact hphase.typed _

/-! ### The reader -/

theorem call (hr : Reading t (q, h)) (buf : Nat → Byte) :
    Reading t ({ q with pc := .clearFlag, buf := .fresh buf }, readLog t q (.call buf) h) := by
  obtain ⟨hterm, htyped, henter, htext, -, ⟨js, hnd, hdel, -⟩, -⟩ := hr
  exact ⟨hterm, htyped, henter, htext, Nat.le_refl _, ⟨js, hnd, hdel, fun _ => Delivered.forall_lt hdel⟩, rfl⟩

/-- A statement that leaves the log: the flag and the buffer may change, and the phase is the next one's. -/
theorem statement (hr : Reading t (q, h)) (hpc : q.pc ≠ .idle) {flags : Nat → Bool} {bufs : Nat → Mem} {pc : ReadPc}
    {buf : Mem} (hp : Phase (flags t) (bufs t) buf h pc) :
    Reading t (⟨{ q.kernel with tEnterFlag := flags, commandBuf := bufs }, pc, buf⟩, h) := by
  obtain ⟨hterm, ⟨h₁, h₂, h₃, h₄, h₅⟩, henter, htext, hbegan, ⟨js, hnd, hdel, hjs⟩, -⟩ := hr
  exact ⟨hterm, ⟨h₁, h₂, h₃, h₄, h₅⟩, henter, htext, hbegan, ⟨js, hnd, hdel, fun _ => hjs hpc⟩, hp⟩

/-- The call returns. -/
theorem returns (hr : Reading t (q, h)) {i : Nat} (hpc : q.pc = .test i) (hn : (q.kernel.commandBuf t).byte i = 0x0a#8) :
    Reading t ({ q with pc := .idle }, { h with calls := ⟨h.began, h.commits.length, i + 1, q.buf⟩ :: h.calls }) := by
  obtain ⟨hterm, htyped, henter, htext, hbegan, ⟨js, hnd, hdel, hjs⟩, hphase⟩ := hr
  simp only [hpc] at hphase
  obtain ⟨l, hh, hi, hst⟩ := hphase
  obtain rfl := (hh.byte_eq_newline hi).mp hn
  obtain ⟨j, hj, hcommit⟩ := hh.since
  have hlt : j < h.commits.length := (List.getElem?_eq_some_iff.mp hcommit).1
  -- the calls before it returned lines committed before it began
  have hnew : j ∉ js := fun hm => by
    have := hjs (by simp [hpc]) j hm
    simp only at this
    omega
  refine ⟨hterm, htyped, henter, htext, hbegan, ⟨j :: js, List.nodup_cons.mpr ⟨hnew, hnd⟩, ?_, fun hpc' => absurd rfl hpc'⟩,
    trivial⟩
  exact .cons ⟨hj, hlt, hst.stored, l, hcommit, hst.whole, hh.holds.1, hh.text⟩ hdel

theorem next (hr : Reading t (q, h)) (hs : readerNext t q = some q') : Reading t (q', readLog t q .next h) := by
  have hphase := hr.phase
  obtain ⟨s, pc, buf⟩ := q
  cases pc with
  | idle => cases hs
  | clearFlag =>
    obtain rfl := Option.some.inj hs
    exact hr.statement (by simp) ⟨hphase, Function.update_self _ _ _⟩
  | clearByte =>
    obtain rfl := Option.some.inj hs
    refine hr.statement (by simp) ⟨hphase.1, .inl ⟨hphase.2, ?_⟩⟩
    simp
  | poll =>
    obtain rfl := Option.some.inj hs
    obtain ⟨hst, hp⟩ := hphase
    refine hr.statement (by simp) ?_
    rcases hp with ⟨hf, h₀⟩ | ⟨hf, l, hl⟩
    · simp only at hf
      rw [if_neg (by simp [hf])]
      exact ⟨hst, .inl ⟨hf, h₀⟩⟩
    · simp only at hf
      rw [if_pos hf]
      exact ⟨l, hl, Nat.zero_le _, hst, by simp⟩
  | copy i =>
    simp only [readerNext] at hs
    split at hs
    · obtain rfl := Option.some.inj hs
      obtain ⟨l, hl, hi, hst⟩ := hphase
      exact hr.statement (by simp) ⟨l, hl, hi, hst.succ (hl.byte hi)⟩
    · cases hs
  | test i =>
    obtain rfl := Option.some.inj hs
    by_cases hn : (s.commandBuf t).byte i = 0x0a#8
    · simp only [readLog, if_pos hn]
      exact hr.returns rfl hn
    · simp only [readLog, if_neg hn]
      obtain ⟨l, hl, hi, hst⟩ := hphase
      have hne : i ≠ l.length := fun e => hn ((hl.byte_eq_newline hi).mpr e)
      exact hr.statement (by simp) ⟨l, hl, by omega, hst⟩

/-- Every statement of a call under way is defined: the copy stays in `command_buf[t]`. -/
theorem next_isSome (hr : Reading t (q, h)) (hpc : q.pc ≠ .idle) : (readerNext t q).isSome := by
  have hphase := hr.phase
  obtain ⟨s, pc, buf⟩ := q
  cases pc with
  | idle => exact absurd rfl hpc
  | copy i =>
    obtain ⟨l, hl, hi, -⟩ := hphase
    have hlen := hl.length
    simp only [readerNext]
    rw [if_pos (by simp only [CHARACTER_BUFFER_SIZE, LINE_MAX] at *; omega)]
    rfl
  | clearFlag => rfl
  | clearByte => rfl
  | poll => rfl
  | test i => rfl

theorem step (t : Nat) (p : Reader × ReadLog) (e : ReaderEvent) (p' : Reader × ReadLog) (hr : Reading t p)
    (hok : CommitApart t p.1 e) (hp : withHistory (readerStep t) (readLog t) p e = some p') : Reading t p' := by
  obtain ⟨hs, hl⟩ := withHistory_eq_some hp
  obtain ⟨q, h⟩ := p
  obtain ⟨q', h'⟩ := p'
  simp only at hs hl
  subst hl
  cases e with
  | key c =>
    simp only [readerStep] at hs
    split at hs
    · obtain rfl := Option.some.inj hs
      exact hr.key hok ‹_›
    · cases hs
  | call buf =>
    simp only [readerStep] at hs
    split at hs
    · obtain rfl := Option.some.inj hs
      exact hr.call buf
    · cases hs
  | next => exact hr.next hs

end Reading

/-- No call is under way, and nothing is typed, committed or returned. -/
def ReadLog.empty : ReadLog := ⟨[], [], 0, []⟩

theorem KeyboardIdle.reading {s : State} (hs : KeyboardIdle s) (buf : Mem) :
    Reading s.terminalNum (⟨s, .idle, buf⟩, ReadLog.empty) := by
  refine ⟨rfl, ?_, hs.enter, List.not_mem_nil, Nat.le_refl _, ⟨[], List.nodup_nil, .nil, fun h => absurd rfl h⟩, trivial⟩
  simp only [ReadLog.empty, Function.update_eq_self]
  exact ⟨hs.lt, by simp, by simpa [State.input] using hs.index, by simp, by simp⟩

/-- On the displayed terminal, for every order of keys and statements of `terminal_read`: as long as no Enter
commits a line between a call's two resets, every call returns a line that was committed during it, whole,
and a line of its own. -/
theorem reads_whole_lines (s : State) (hs : KeyboardIdle s) (buf : Mem) (es : List ReaderEvent)
    (hg : Guarded (readerStep s.terminalNum) (CommitApart s.terminalNum) ⟨s, .idle, buf⟩ es) :
    Always (withHistory (readerStep s.terminalNum) (readLog s.terminalNum)) (fun p => HandsOver p.2)
      (⟨s, .idle, buf⟩, ReadLog.empty) es := by
  refine Guarded.always (I := Reading s.terminalNum) (fun p h => ?_) (Reading.step s.terminalNum) (hs.reading buf)
    (hg.withHistory _)
  obtain ⟨js, hnd, hdel, -⟩ := h.delivered
  exact ⟨js, hnd, hdel⟩

/-- A reader waits, and `a` and Enter are typed. -/
def waitingRead : List ReaderEvent :=
  [.call fun _ => 0#8, .next, .next, .next, .key 0x1e#8, .key 0x1c#8, .next, .next, .next, .next, .next]

theorem reads_whole_lines_boot : KeyboardIdle boot ∧
    ((run (withHistory (readerStep 0) (readLog 0)) (⟨boot, .idle, .fresh fun _ => 0#8⟩, .empty) waitingRead).map
      fun p => p.2.calls.map ReadCall.value) = some [2] ∧
    Always (withHistory (readerStep 0) (readLog 0)) (fun p => HandsOver p.2)
      (⟨boot, .idle, .fresh fun _ => 0#8⟩, .empty) waitingRead :=
  ⟨boot_keyboardIdle, by decide +kernel, reads_whole_lines boot boot_keyboardIdle _ _ (by decide +kernel)⟩

theorem HandsOver.zero_notMem {h : ReadLog} (hh : HandsOver h) :
    ∀ c ∈ h.calls, 0#8 ∉ (List.range c.value).map c.buf.byte := by
  obtain ⟨js, -, hdel⟩ := hh
  generalize h.calls = calls at hdel
  induction hdel with
  | nil => simp
  | cons hd _ ih =>
    refine List.forall_mem_cons.mpr ⟨?_, ih⟩
    obtain ⟨l, -, hl, -, h₀⟩ := hd.line
    rw [hl, List.mem_append, List.mem_singleton, not_or]
    exact ⟨h₀, by decide⟩

/-- `a` and `b` are typed, and Enter is pressed between the two resets of the first call. -/
def tornRead : List ReaderEvent :=
  [.key 0x1e#8, .key 0x30#8, .call fun _ => 0#8, .next, .key 0x1c#8, .next] ++ List.replicate 7 .next

theorem tornRead_not_handsOver : KeyboardIdle boot ∧
    ¬ Always (withHistory (readerStep 0) (readLog 0)) (fun p => HandsOver p.2)
      (⟨boot, .idle, .fresh fun _ => 0#8⟩, .empty) tornRead := by
  refine ⟨boot_keyboardIdle, fun h => ?_⟩
  have hz : ((run (withHistory (readerStep 0) (readLog 0)) (⟨boot, .idle, .fresh fun _ => 0#8⟩, .empty) tornRead).any
      fun p => p.2.calls.any fun c => decide (0#8 ∈ (List.range c.value).map c.buf.byte)) = true := by
    decide +kernel
  obtain ⟨p, hp, hc⟩ := (Option.any_eq_true _ _).mp hz
  obtain ⟨c, hc, h₀⟩ := List.any_eq_true.mp hc
  exact (h.last hp).zero_notMem c hc (of_decide_eq_true h₀)

/-- In these runs no call copies past the end of its buffer. -/
theorem reads_defined (s : State) (hs : KeyboardIdle s) (buf : Mem) (es : List ReaderEvent)
    (hg : Guarded (readerStep s.terminalNum) (CommitApart s.terminalNum) ⟨s, .idle, buf⟩ es) :
    Always (withHistory (readerStep s.terminalNum) (readLog s.terminalNum))
      (fun p => p.1.pc ≠ .idle → (readerNext s.terminalNum p.1).isSome) (⟨s, .idle, buf⟩, ReadLog.empty) es :=
  Guarded.always (I := Reading s.terminalNum) (fun _ h hpc => h.next_isSome hpc) (Reading.step s.terminalNum)
    (hs.reading buf) (hg.withHistory _)

end LimeOS
