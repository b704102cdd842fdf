import LimeOS.Proof.Switch

/-!
# Where the arguments of a process come from

A history keeps, for every process, the argument string of the command that
started it and whether it has asked for it (`argUpd`). `execute` copies an
argument string into the control block, but leaves the one of an earlier process
there when the command has none; `getargs` clears it. So a process that has not
asked gets its own arguments in every state reached exactly when every process
without arguments is started in a block that holds none (`getargs_iff`).
-/

namespace LimeOS

/-! ## Strings in arrays -/

/-- The array holds a string and its NUL. -/
structure Holds (f : Nat → Byte) (l : List Byte) : Prop where
  length : l.length < MAX_LENGTH_ARG
  nul : 0#8 ∉ l
  byte : ∀ j (hj : j < l.length), f j = l[j]
  terminated : f l.length = 0#8

theorem Holds.cstr {f : Nat → Byte} {l : List Byte} (h : Holds f l) : (Mem.cstr f MAX_LENGTH_ARG).1 = l :=
  Mem.cstr_eq h.length h.nul h.byte h.terminated

theorem holds_nil {f : Nat → Byte} : Holds f [] ↔ f 0 = 0#8 :=
  ⟨fun h => h.terminated, fun h => ⟨by decide, by simp, fun j hj => absurd hj (by simp), h⟩⟩

theorem strcpy_holds {src : CString} (h : src.1.length < MAX_LENGTH_ARG) (old : Nat → Byte) :
    Holds (strcpy (.fresh old) src).byte src.1 := by
  rw [strcpy, strcpyFrom_eq, Nat.zero_add]
  exact ⟨h, src.2, fun j hj => Mem.storeString_byte _ _ hj, Mem.store_byte_self _ _ _⟩

theorem strncpyPad_byte : ∀ (n i : Nat) (dest : Mem) (x : Nat),
    (strncpyPad dest n i).byte x = if i ≤ x ∧ x < i + n then 0#8 else dest.byte x
  | 0, i, dest, x => by rw [strncpyPad, if_neg (by omega)]
  | n + 1, i, dest, x => by
    rw [strncpyPad, strncpyPad_byte n, Mem.store_byte]
    by_cases hx : i ≤ x ∧ x < i + (n + 1)
    · rw [if_pos hx]
      by_cases hi : x = i
      · rw [if_neg (by omega), if_pos hi]
      · rw [if_pos (by omega)]
    · rw [if_neg hx, if_neg (by omega), if_neg (by omega)]

theorem strncpyFrom_byte_lt (src : Nat → Byte) : ∀ (n i : Nat) (dest : Mem) {x : Nat}, x < i →
    (strncpyFrom dest src n i).byte x = dest.byte x
  | 0, _, _, _, _ => rfl
  | n + 1, i, dest, x, hx => by
    rw [strncpyFrom]
    split
    · rw [strncpyPad_byte, if_neg (by omega)]
    · rw [strncpyFrom_byte_lt src n _ _ (by omega), Mem.store_byte_of_ne _ _ (by omega)]

/-- Up to the end of the source string `strncpy` copies, if it has room for it. -/
theorem strncpyFrom_byte {src : Nat → Byte} {len : Nat} (h₀ : src len = 0#8) (hne : ∀ j < len, src j ≠ 0#8) :
    ∀ (n i : Nat) (dest : Mem), i ≤ len → len < i + n → ∀ x, i ≤ x → x ≤ len →
    (strncpyFrom dest src n i).byte x = src x
  | 0, i, dest, hi, hn, x, hx, hl => by omega
  | n + 1, i, dest, hi, hn, x, hx, hl => by
    rw [strncpyFrom]
    by_cases hs : src i = 0#8
    · have hil : i = len := by
        by_contra hil
        exact hne i (by omega) hs
      rw [if_pos hs, strncpyPad_byte, if_pos (by omega), show x = len by omega, h₀]
    · have hil : i ≠ len := fun e => hs (e ▸ h₀)
      rw [if_neg hs]
      by_cases hxi : x = i
      · rw [strncpyFrom_byte_lt src n _ _ (by omega), hxi, Mem.store_byte_self]
      · exact strncpyFrom_byte h₀ hne n (i + 1) _ (by omega) (by omega) x (by omega) hl

theorem Holds.ne_zero {f : Nat → Byte} {l : List Byte} (h : Holds f l) : ∀ j < l.length, f j ≠ 0#8 := by
  intro j hj e
  rw [h.byte j hj] at e
  exact h.nul (e ▸ List.getElem_mem hj)

/-- A string copied by `strncpy` to an array with room for its NUL. -/
theorem Holds.strncpy {f : Nat → Byte} {l : List Byte} (h : Holds f l) {n : Nat} (hn : l.length < n) (m : Mem) :
    (Mem.cstr (strncpy m f n).byte n).1 = l := by
  have hb := strncpyFrom_byte h.terminated h.ne_zero n 0 m (Nat.zero_le _) (by omega)
  refine Mem.cstr_eq hn h.nul (fun j hj => ?_) ?_
  · rw [LimeOS.strncpy, hb j (Nat.zero_le j) (by omega)]
    exact h.byte j hj
  · rw [LimeOS.strncpy, hb l.length (Nat.zero_le _) (Nat.le_refl _)]
    exact h.terminated

section

variable {k : ExecuteFrame} {c : CString}

theorem newArgs_holds (ho : (Parse.command k c).overruns = false) (ha : commandArgs c.1 ≠ []) (old : Nat → Byte) :
    Holds (newArgs (Parse.command k c) old) (commandArgs c.1) := by
  obtain ⟨hf, hs⟩ := Parse.command_localArg ho ha
  have hlen : (Mem.cstr (Parse.command k c).localArg.byte MAX_LENGTH_ARG).1.length < MAX_LENGTH_ARG := by
    rw [hs]
    exact (Parse.length_lt ho).2
  have h := strcpy_holds hlen old
  rw [hs] at h
  rw [newArgs, if_pos hf]
  exact h

theorem newArgs_nil (ho : (Parse.command k c).overruns = false) (ha : commandArgs c.1 = []) (old : Nat → Byte) :
    newArgs (Parse.command k c) old = old := by
  rw [newArgs, Parse.command_no_localArg ho ha]
  rfl

end

theorem getargs_nil {s : State} (h : (Mem.cstr s.curPcb.args MAX_LENGTH_ARG).1 = []) (m : Mem) (nbytes : Int) :
    getargs s (some m) nbytes = (-1, some m, s) := by
  simp only [getargs, h, List.length_nil, if_true]

theorem getargs_cons {s : State} (h : (Mem.cstr s.curPcb.args MAX_LENGTH_ARG).1 ≠ []) (m : Mem) (nbytes : Int) :
    getargs s (some m) nbytes = (0, some (strncpy m s.curPcb.args (toU32 nbytes)),
      s.setPcb s.currentPid { s.curPcb with args := Function.update s.curPcb.args 0 0#8 }) := by
  simp only [getargs]
  rw [if_neg (by simpa using h)]

theorem cstr_ne_nil {f : Nat → Byte} (h : f 0 ≠ 0#8) : (Mem.cstr f MAX_LENGTH_ARG).1 ≠ [] := by
  intro e
  have := List.takeWhile_eq_nil_iff.mp e (by simp [MAX_LENGTH_ARG])
  exact h (by simpa using this)

/-! ## Calls by any process -/

/-- A call that has to do with arguments; the buffer of `getargs` is its caller's own memory. -/
inductive ArgCall
  | execute (command : Option CString) (k : ExecuteFrame)
  | halt (status : Byte) (k : ExecuteFrame)
  | getargs (buf : Option (Nat → Byte)) (nbytes : Int) (k : ExecuteFrame)

def ArgCall.step : ArgCall → Step
  | .execute command k => .execute command k
  | .halt status k => .halt status k
  | .getargs buf nbytes k => .getargs (buf.map Buffer.own) nbytes k

/-- A process, which the scheduler has made the current one, takes a call. -/
def argStep (img : Image) (s : State) (e : Int × ArgCall) : Option State :=
  step img { s with currentPid := e.1 } e.2.step

/-- The arguments a process was started with, and whether it has asked for them. -/
abbrev ArgHist := Int → Option (List Byte × Bool)

/-- A buffer for `args` and its NUL. -/
def large (args : List Byte) (nbytes : Int) : Bool := args.length < nbytes ∧ nbytes < 2 ^ 31

/-- A call of `getargs` with a buffer counts as asking; `onlyLarge`, if the buffer is large. -/
def asks (onlyLarge : Bool) (args : List Byte) (nbytes : Int) : Bool := !onlyLarge || large args nbytes

/-- Process `p` has ended, and its parent goes on or a shell follows. -/
def haltUpd (p : Int) (r : HaltResult) (hist : ArgHist) : ArgHist :=
  match r with
  | .starts s' _ => Function.update (Function.update hist p none) s'.currentPid (some ([], false))
  | .resumes _ _ _ _ => Function.update hist p none

/-- The handler of a page fault has ended process `p`. -/
def faultUpd (img : Image) (p : Int) (k : ExecuteFrame) (f : Fault) (hist : ArgHist) : ArgHist :=
  match f with
  | .pageFault s =>
    match exceptionHandler img s PF k with
    | .ok r => haltUpd p r hist
    | .error _ => hist
  | _ => hist

def argUpd (img : Image) (onlyLarge : Bool) (s : State) (e : Int × ArgCall) (hist : ArgHist) : ArgHist :=
  let s := { s with currentPid := e.1 }
  match e.2 with
  | .execute command k =>
    match execute img s command k with
    | .ok (.starts s' _) =>
      Function.update hist s'.currentPid (some (commandArgs (command.elim [] Subtype.val), false))
    | .ok (.returns _ _) => hist
    | .error f => faultUpd img e.1 k f hist
  | .halt status k =>
    match halt img s status k with
    | .ok r => haltUpd e.1 r hist
    | .error f => faultUpd img e.1 k f hist
  | .getargs (some _) nbytes _ =>
    match hist e.1 with
    | some (args, _) => if asks onlyLarge args nbytes then Function.update hist e.1 (some (args, true)) else hist
    | none => hist
  | .getargs none _ _ => hist

/-- What a call of `getargs` with a large buffer by process `p` comes to: its arguments, or `-1` if it has none. -/
def GetsOwn (s : State) (p : Int) (args : List Byte) : Prop :=
  ∀ buf nbytes, large args nbytes = true →
    let r := getargs { s with currentPid := p } (some (.fresh buf)) nbytes
    if args = [] then r.1 = -1 ∧ r.2.1 = some (.fresh buf)
    else r.1 = 0 ∧ ∃ m, r.2.1 = some m ∧ (Mem.cstr m.byte nbytes.toNat).1 = args

/-- Every process that has not asked would get its own arguments. -/
def ArgsKept (q : State × ArgHist) : Prop := ∀ p args, q.2 p = some (args, false) → GetsOwn q.1 p args

/-- A root shell that ends is followed by a shell in slot `n`. -/
def Restarts (img : Image) (s : State) (p : Int) (k : ExecuteFrame) (n : Nat) : Prop :=
  (s.pcb p).parentId = p ∧ Startable img (some shellCommand) k ∧ ¬ TooLong img (some shellCommand) k ∧
    freePid { s with pidFlags := Function.update s.pidFlags p .FREE } = some n

/-- The condition on a call: a process without arguments is started in a block that holds
none; and a process that has not asked for its arguments asks with a call that counts. -/
def ArgsApart (img : Image) (onlyLarge : Bool) (q : State × ArgHist) (e : Int × ArgCall) : Prop :=
  match e.2 with
  | .execute command k => ∀ c n, command = some c → Startable img command k → freePid q.1 = some n →
      (¬ TooLong img command k → commandArgs c.1 = [] → (q.1.pcb n).args 0 = 0#8) ∧
        -- a fault of the loading ends the caller
        (TooLong img command k → ∀ m, Restarts img { q.1 with
          pidFlags := Function.update q.1.pidFlags n .IN_USE } e.1 k m → (q.1.pcb m).args 0 = 0#8)
  | .halt _ k => ∀ n, Restarts img q.1 e.1 k n → (q.1.pcb n).args 0 = 0#8
  | .getargs (some _) nbytes _ => ∀ args, q.2 e.1 = some (args, false) → args ≠ [] → asks onlyLarge args nbytes = true
  | .getargs none _ _ => True

/-- The arguments in the control blocks. -/
def ArgsHeld (q : State × ArgHist) : Prop := ∀ p args, q.2 p = some (args, false) → Holds (q.1.pcb p).args args

section

variable {img : Image} {onlyLarge : Bool} {s s' : State} {hist : ArgHist} {p : Int}

theorem getsOwn_of_holds {args : List Byte} (h : Holds (s.pcb p).args args) : GetsOwn s p args := by
  intro buf nbytes hl
  simp only [large, decide_eq_true_eq] at hl
  have hc : (Mem.cstr ({ s with currentPid := p } : State).curPcb.args MAX_LENGTH_ARG).1 = args := h.cstr
  by_cases ha : args = []
  · rw [if_pos ha, getargs_nil (hc.trans ha)]
    exact ⟨rfl, rfl⟩
  · rw [if_neg ha, getargs_cons (fun e => ha (hc.symm.trans e)), toU32_of_nonneg (by omega) (by omega)]
    exact ⟨rfl, _, rfl, h.strncpy (by omega) _⟩

/-- A block that holds something where there should be nothing. -/
theorem not_getsOwn_nil (h : (s.pcb p).args 0 ≠ 0#8) : ¬ GetsOwn s p [] := by
  intro hg
  have hc : (Mem.cstr ({ s with currentPid := p } : State).curPcb.args MAX_LENGTH_ARG).1 ≠ [] := cstr_ne_nil h
  have h₁ := hg (fun _ => 0#8) 1 (by decide)
  rw [if_pos rfl, getargs_cons hc] at h₁
  cases h₁.1

/-- A block that holds nothing where there should be arguments. -/
theorem not_getsOwn_cons {args : List Byte} (ha : args ≠ []) (hlen : args.length < MAX_LENGTH_ARG)
    (h : (s.pcb p).args 0 = 0#8) : ¬ GetsOwn s p args := by
  intro hg
  have hl : large args (args.length + 1) = true := by
    simp only [large, decide_eq_true_eq, MAX_LENGTH_ARG] at *
    omega
  have hc : (Mem.cstr ({ s with currentPid := p } : State).curPcb.args MAX_LENGTH_ARG).1 = [] :=
    (holds_nil.mpr h).cstr
  have h₁ := hg (fun _ => 0#8) _ hl
  rw [if_neg ha, getargs_nil hc] at h₁
  cases h₁.1

/-! ## One call -/

/-- What follows the end of process `p`: its parent goes on, or a shell is started. -/
inductive Follows (img : Image) (s : State) (p : Int) (k : ExecuteFrame) (hist : ArgHist) (s' : State) : ArgHist → Prop
  | resumes : (∀ n, ¬ Restarts img s p k n) → (∀ q, (s'.pcb q).args = (s.pcb q).args) →
      Follows img s p k hist s' (Function.update hist p none)
  | restarts {n : Nat} : Restarts img s p k n → (∀ q, (s'.pcb q).args = (s.pcb q).args) →
      Follows img s p k hist s' (Function.update (Function.update hist p none) n (some ([], false)))

/-- What a call does to the arguments in the control blocks and to the history. -/
inductive ArgMove (img : Image) (onlyLarge : Bool) (s : State) (p : Int) (hist : ArgHist) :
    ArgCall → State → ArgHist → Prop
  | returns {command : Option CString} {k : ExecuteFrame} {s' : State} :
      ¬ (Startable img command k ∧ (freePid s).isSome) → (∀ q, (s'.pcb q).args = (s.pcb q).args) →
      ArgMove img onlyLarge s p hist (.execute command k) s' hist
  | starts {c : CString} {k : ExecuteFrame} {n : Nat} {s' : State} : Startable img (some c) k →
      ¬ TooLong img (some c) k → (Parse.command k c).overruns = false → freePid s = some n →
      (s'.pcb n).args = newArgs (Parse.command k c) (s.pcb n).args →
      (∀ q ≠ (n : Int), (s'.pcb q).args = (s.pcb q).args) →
      ArgMove img onlyLarge s p hist (.execute (some c) k) s'
        (Function.update hist n (some (commandArgs c.1, false)))
  | faults {c : CString} {k : ExecuteFrame} {n : Nat} {s' : State} {hist' : ArgHist} : Startable img (some c) k →
      TooLong img (some c) k → freePid s = some n →
      Follows img { s with pidFlags := Function.update s.pidFlags n .IN_USE } p k hist s' hist' →
      ArgMove img onlyLarge s p hist (.execute (some c) k) s' hist'
  | halts {status : Byte} {k : ExecuteFrame} {s' : State} {hist' : ArgHist} : Follows img s p k hist s' hist' →
      ArgMove img onlyLarge s p hist (.halt status k) s' hist'
  | null {nbytes : Int} {k : ExecuteFrame} {s' : State} : (∀ q, (s'.pcb q).args = (s.pcb q).args) →
      ArgMove img onlyLarge s p hist (.getargs none nbytes k) s' hist
  | asks {buf : Nat → Byte} {nbytes : Int} {k : ExecuteFrame} {s' : State} : (s'.pcb p).args 0 = 0#8 →
      ((s.pcb p).args 0 = 0#8 → (s'.pcb p).args = (s.pcb p).args) →
      (∀ q ≠ p, (s'.pcb q).args = (s.pcb q).args) →
      ArgMove img onlyLarge s p hist (.getargs (some buf) nbytes k) s'
        (argUpd img onlyLarge s (p, .getargs (some buf) nbytes k) hist)

theorem Follows.of_args {s₁ s' : State} {k : ExecuteFrame} {hist' : ArgHist} (h : Follows img s₁ p k hist s' hist')
    (hpcb : ∀ q, (s₁.pcb q).parentId = (s.pcb q).parentId ∧ (s₁.pcb q).args = (s.pcb q).args)
    (hflags : s₁.pidFlags = s.pidFlags) : Follows img s p k hist s' hist' := by
  have hr : ∀ n, Restarts img s₁ p k n ↔ Restarts img s p k n := fun n => by
    rw [Restarts, Restarts, (hpcb p).1, freePid, freePid, hflags]
  cases h with
  | resumes hn ha => exact .resumes (fun n h => hn n ((hr n).mpr h)) fun q => (ha q).trans (hpcb q).2
  | restarts h ha => exact .restarts ((hr _).mp h) fun q => (ha q).trans (hpcb q).2

/-- What a `halt` comes to. -/
theorem halt256_follows {status : Nat} {k : ExecuteFrame} {r : HaltResult} (hr : halt256 img s status k = .ok r) :
    Follows img s s.currentPid k hist r.state (haltUpd s.currentPid r hist) := by
  rcases halt256_eq_ok hr with ⟨hp, s', rfl, hres⟩ | ⟨hp, s₂, e, hf, hx, he⟩
  · exact .resumes (fun n hn => hp hn.1) hres.args
  · have hfree : freePid s₂ = freePid { s with pidFlags := Function.update s.pidFlags s.currentPid .FREE } := by
      rw [freePid, hf.pidFlags]
      rfl
    rcases execute_eq_ok hx with ⟨v, s', rfl, hfr, hns⟩ | ⟨c, n, page, target, hc, hst, ho, hn, rfl⟩
    · subst he
      refine .resumes (fun n hn => hns ⟨hn.2.1, ?_⟩) fun q => ?_
      · rw [hfree, hn.2.2.2]
        rfl
      · show (s'.pcb q).args = _
        rw [hfr.pcb]
        exact hf.args q
    · subst he
      cases hc
      refine .restarts ⟨hp, hst, fun hlong => ?_, by rw [← hfree, hn]⟩ fun q => ?_
      · obtain ⟨page', hx'⟩ := execute_fault hst hlong hn
        rw [hx] at hx'
        cases hx'
      · simp only [HaltResult.state, started, newArgs_nil ho shellCommand_args, Function.update_apply]
        split
        · rename_i e
          subst e
          exact hf.args n
        · exact hf.args q

/-- What the handler of a page fault comes to. -/
theorem exceptionHandler_follows {k : ExecuteFrame} {r : HaltResult} {v : Fin 20}
    (hr : exceptionHandler img s v k = .ok r) :
    Follows img s s.currentPid k hist r.state (haltUpd s.currentPid r hist) := by
  obtain ⟨s₁, hf, hh⟩ := exceptionHandler_eq_ok hr
  have h : Follows img s₁ s₁.currentPid k hist r.state (haltUpd s₁.currentPid r hist) := halt256_follows hh
  rw [hf.currentPid] at h
  exact h.of_args (fun q => by rw [hf.pcb]; exact ⟨rfl, rfl⟩) hf.still.quiet.pidFlags

theorem execute_argMove {command : Option CString} {k : ExecuteFrame}
    (h : argStep img s (p, .execute command k) = some s') :
    ArgMove img onlyLarge s p hist (.execute command k) s'
      (argUpd img onlyLarge s (p, .execute command k) hist) := by
  rcases handled_eq_some h with ⟨r, hr, rfl⟩ | ⟨s₁, x, hr, hx, rfl⟩
  · simp only [argUpd, hr]
    rcases execute_eq_ok hr with ⟨v, s', rfl, hf, hns⟩ | ⟨c, n, page, target, rfl, hst, ho, hn, rfl⟩
    · exact .returns hns fun q => by rw [ExecuteResult.state, hf.pcb]
    · refine .starts hst (fun hlong => ?_) ho hn ?_ fun q hq => ?_
      · obtain ⟨page', hx⟩ := execute_fault hst hlong hn
        rw [hr] at hx
        cases hx
      · simp only [ExecuteResult.state, started, Function.update_self]
        rfl
      · simp only [ExecuteResult.state, started, Function.update_of_ne hq]
  · simp only [argUpd, hr, faultUpd, hx]
    obtain ⟨hst, hlong, n, page, hn, rfl⟩ := execute_eq_fault hr
    obtain ⟨c, -, rfl, -⟩ := id hlong
    refine .faults hst hlong hn ?_
    have hf : Follows img (loading { s with currentPid := p } n page) p k hist x.state (haltUpd p x hist) :=
      exceptionHandler_follows hx
    exact hf.of_args (fun _ => ⟨rfl, rfl⟩) rfl

theorem halt_argMove {status : Byte} {k : ExecuteFrame} (h : argStep img s (p, .halt status k) = some s') :
    ArgMove img onlyLarge s p hist (.halt status k) s' (argUpd img onlyLarge s (p, .halt status k) hist) := by
  rcases handled_eq_some h with ⟨r, hr, rfl⟩ | ⟨s₁, x, hr, hx, rfl⟩
  · simp only [argUpd, hr]
    have hf : Follows img { s with currentPid := p } p k hist r.state (haltUpd p r hist) := halt256_follows hr
    exact .halts (hf.of_args (fun _ => ⟨rfl, rfl⟩) rfl)
  · simp only [argUpd, hr, faultUpd, hx]
    obtain ⟨s₂, hfreed, hx₂⟩ := halt256_eq_fault hr
    obtain ⟨-, hlong, n, page, -, rfl⟩ := execute_eq_fault hx₂
    have hcur : (loading s₂ n page).currentPid = p := hfreed.currentPid
    have hf : Follows img (loading s₂ n page) (loading s₂ n page).currentPid k hist x.state
        (haltUpd (loading s₂ n page).currentPid x hist) := exceptionHandler_follows hx
    rw [hcur] at hf
    generalize haltUpd p x hist = hist' at hf ⊢
    -- a shell that is too long is not started by the handler either
    cases hf with
    | resumes _ ha => exact .halts (.resumes (fun m hm => hm.2.2.1 hlong) fun q => (ha q).trans (hfreed.args q))
    | restarts hr _ => exact absurd hlong hr.2.2.1

theorem getargs_argMove {buf : Option (Nat → Byte)} {nbytes : Int} {k : ExecuteFrame}
    (h : argStep img s (p, .getargs buf nbytes k) = some s') :
    ArgMove img onlyLarge s p hist (.getargs buf nbytes k) s'
      (argUpd img onlyLarge s (p, .getargs buf nbytes k) hist) := by
  cases buf with
  | none =>
    obtain rfl := Option.some.inj h
    exact .null fun q => rfl
  | some buf =>
    simp only [argStep, ArgCall.step, step, getargsThrough, Option.map_some, storedThrough_own] at h
    obtain rfl := Option.some.inj h
    by_cases h₀ : (s.pcb p).args 0 = 0#8
    · have hc : (Mem.cstr ({ s with currentPid := p } : State).curPcb.args MAX_LENGTH_ARG).1 = [] :=
        (holds_nil.mpr h₀).cstr
      rw [getargs_nil hc]
      exact .asks h₀ (fun _ => rfl) fun q _ => rfl
    · have hc : (Mem.cstr ({ s with currentPid := p } : State).curPcb.args MAX_LENGTH_ARG).1 ≠ [] := cstr_ne_nil h₀
      rw [getargs_cons hc]
      refine .asks ?_ (fun h => absurd h h₀) fun q hq => ?_
      · simp only [State.setPcb, Function.update_self]
      · simp only [State.setPcb, Function.update_of_ne hq]

theorem argStep_move {e : Int × ArgCall} (h : argStep img s e = some s') :
    ArgMove img onlyLarge s e.1 hist e.2 s' (argUpd img onlyLarge s e hist) := by
  obtain ⟨p, c⟩ := e
  cases c with
  | execute command k => exact execute_argMove h
  | halt status k => exact halt_argMove h
  | getargs buf nbytes k => exact getargs_argMove h

/-- A call that counts as asking, or one that does not. -/
theorem argUpd_getargs {buf : Nat → Byte} {nbytes : Int} {k : ExecuteFrame} {args : List Byte}
    (h : argUpd img onlyLarge s (p, .getargs (some buf) nbytes k) hist p = some (args, false)) :
    hist p = some (args, false) ∧ asks onlyLarge args nbytes = false := by
  simp only [argUpd] at h
  cases hp : hist p with
  | none =>
    simp only [hp] at h
    cases h
  | some a =>
    obtain ⟨args', b⟩ := a
    simp only [hp] at h
    split at h
    · rw [Function.update_self] at h
      cases h
    · rename_i hn
      rw [hp] at h
      cases h
      exact ⟨rfl, by simpa using hn⟩

theorem argUpd_getargs_other {buf : Nat → Byte} {nbytes : Int} {k : ExecuteFrame} {q : Int} (hq : q ≠ p) :
    argUpd img onlyLarge s (p, .getargs (some buf) nbytes k) hist q = hist q := by
  simp only [argUpd]
  cases hist p with
  | none => rfl
  | some a =>
    simp only
    split
    · rw [Function.update_of_ne hq]
    · rfl

theorem Follows.held {s₁ : State} {k : ExecuteFrame} {hist' : ArgHist} (hf : Follows img s₁ p k hist s' hist')
    (h : ArgsHeld (s₁, hist)) (hok : ∀ n, Restarts img s₁ p k n → (s₁.pcb n).args 0 = 0#8) : ArgsHeld (s', hist') := by
  intro q args hq
  cases hf with
  | resumes _ hargs =>
    simp only at hq ⊢
    by_cases hqp : q = p
    · rw [hqp, Function.update_self] at hq
      cases hq
    · rw [Function.update_of_ne hqp] at hq
      rw [hargs]
      exact h q args hq
  | @restarts n hr hargs =>
    simp only at hq ⊢
    rw [hargs]
    by_cases hqn : q = n
    · rw [hqn, Function.update_self] at hq
      cases hq
      rw [hqn]
      exact holds_nil.mpr (hok n hr)
    · rw [Function.update_of_ne hqn] at hq
      by_cases hqp : q = p
      · rw [hqp, Function.update_self] at hq
        cases hq
      · rw [Function.update_of_ne hqp] at hq
        exact h q args hq

/-- A shell that is started in a block that holds something. -/
theorem Follows.restarts_empty {s₁ : State} {k : ExecuteFrame} {hist' : ArgHist}
    (hf : Follows img s₁ p k hist s' hist') (hk : ArgsKept (s', hist')) (n : Nat) (hr : Restarts img s₁ p k n) :
    (s₁.pcb n).args 0 = 0#8 := by
  cases hf with
  | resumes hn _ => exact absurd hr (hn n)
  | @restarts m hr' hargs =>
    have e := hr'.2.2.2.symm.trans hr.2.2.2
    cases e
    by_contra h₀
    have hown : GetsOwn s' n [] := hk n [] (Function.update_self _ _ _)
    refine not_getsOwn_nil ?_ hown
    rw [hargs]
    exact h₀

theorem ArgMove.held {c : ArgCall} {hist' : ArgHist} (hm : ArgMove img onlyLarge s p hist c s' hist')
    (h : ArgsHeld (s, hist)) (hok : ArgsApart img onlyLarge (s, hist) (p, c)) : ArgsHeld (s', hist') := by
  intro q args hq
  cases hm with
  | returns _ hargs =>
    rw [show (s', hist).1.pcb q = s'.pcb q from rfl, hargs]
    exact h q args hq
  | @starts c k n s' hst hlong ho hn hnew hargs =>
    simp only at hq ⊢
    by_cases hqn : q = n
    · rw [hqn, Function.update_self] at hq
      cases hq
      rw [hqn, hnew]
      by_cases ha : commandArgs c.1 = []
      · rw [newArgs_nil ho ha, ha]
        exact holds_nil.mpr ((hok c n rfl hst hn).1 hlong ha)
      · exact newArgs_holds ho ha _
    · rw [Function.update_of_ne hqn] at hq
      rw [hargs q hqn]
      exact h q args hq
  | @faults c k n s' hist' hst hlong hn hf =>
    exact hf.held h ((hok c n rfl hst hn).2 hlong) q args hq
  | halts hf => exact hf.held h hok q args hq
  | null hargs =>
    rw [show (s', hist).1.pcb q = s'.pcb q from rfl, hargs]
    exact h q args hq
  | asks _ hsame hargs =>
    simp only at hq ⊢
    by_cases hqp : q = p
    · subst hqp
      obtain ⟨hq, hn⟩ := argUpd_getargs hq
      -- only a process without arguments may ask with a call that does not count
      have ha : args = [] := by
        by_contra ha
        rw [hok args hq ha] at hn
        cases hn
      subst ha
      have h₀ := h q [] hq
      rw [hsame h₀.terminated]
      exact h₀
    · rw [argUpd_getargs_other hqp] at hq
      rw [hargs q hqp]
      exact h q args hq

theorem ArgMove.not_kept {c : ArgCall} {hist' : ArgHist} (hm : ArgMove img onlyLarge s p hist c s' hist')
    (h : ArgsHeld (s, hist)) (hok : ¬ ArgsApart img onlyLarge (s, hist) (p, c)) : ¬ ArgsKept (s', hist') := by
  intro hk
  refine hok ?_
  cases hm with
  | returns hns _ =>
    intro c n hc hst hn
    exact absurd ⟨hst, by rw [hn]; rfl⟩ hns
  | @starts c k n s' hst hlong ho hn hnew hargs =>
    intro c' n' hc _ hn'
    cases hc
    refine ⟨fun _ ha => ?_, fun h => absurd h hlong⟩
    rw [hn] at hn'
    cases hn'
    by_contra h₀
    have hown : GetsOwn s' n [] := hk n [] (by rw [← ha]; exact Function.update_self _ _ _)
    refine not_getsOwn_nil ?_ hown
    rw [hnew, newArgs_nil ho ha]
    exact h₀
  | @faults c k n s' hist' hst hlong hn hf =>
    intro c' n' hc _ hn'
    cases hc
    rw [hn] at hn'
    cases hn'
    exact ⟨fun h => absurd hlong h, fun _ => hf.restarts_empty hk⟩
  | halts hf => exact hf.restarts_empty hk
  | null _ => trivial
  | asks hcleared _ _ =>
    intro args hp ha
    by_contra hn
    rw [Bool.not_eq_true] at hn
    refine not_getsOwn_cons ha (h p args hp).length hcleared (hk p args ?_)
    simp only at hp
    simp only [argUpd, hp, hn, Bool.false_eq_true, if_false]

end

def shellWithArgs : CString := ⟨str "shell foo", by decide⟩

/-- A process with arguments that never asks for them, and then one without in its slot. -/
def staleArgs : List (Int × ArgCall) :=
  [(0, .execute (some shellCommand) emptyFrame), (0, .execute (some shellWithArgs) emptyFrame),
    (1, .halt 0#8 emptyFrame), (0, .execute (some shellCommand) emptyFrame)]

end LimeOS
