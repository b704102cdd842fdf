import LimeOS.Proof.Args

/-!
# What `getargs` delivers

`getargs` copies as much of the argument string as the buffer holds, returns 0
and forgets the string: it delivers the whole of it, with its NUL, exactly when
the buffer is longer than the string (`getargs_delivers_iff`).
-/

namespace LimeOS

/-- `strncpy`'s second loop stores at the indices it pads. -/
theorem strncpyPad_stores (n i : Nat) (dest : Mem) : Mem.Stores (· < i + n) dest (strncpyPad dest n i) := by
  induction n generalizing i dest with
  | zero => exact .refl _ dest
  | succ n ih =>
    have hn : i + 1 + n = i + (n + 1) := by omega
    have hstore : Mem.Stores (· < i + (n + 1)) dest (dest.store i 0#8) := .store (by omega) dest _
    exact hstore.trans (hn ▸ ih (i + 1) (dest.store i 0#8))

theorem strncpyFrom_stores (src : Nat → Byte) (n i : Nat) (dest : Mem) :
    Mem.Stores (· < i + n) dest (strncpyFrom dest src n i) := by
  induction n generalizing i dest with
  | zero => exact .refl _ dest
  | succ n ih =>
    rw [strncpyFrom]
    split
    · exact strncpyPad_stores (n + 1) i dest
    · have hn : i + 1 + n = i + (n + 1) := by omega
      have hstore : Mem.Stores (· < i + (n + 1)) dest (dest.store i (src i)) := .store (by omega) dest _
      exact hstore.trans (hn ▸ ih (i + 1) (dest.store i (src i)))

/-- `strncpy` stores nothing past its count. -/
theorem strncpy_stores (dest : Mem) (src : Nat → Byte) (n : Nat) : Mem.Stores (· < n) dest (strncpy dest src n) := by
  have h := strncpyFrom_stores src n 0 dest
  rwa [Nat.zero_add] at h

/-- The whole string or nothing: what a call with the buffer `m` and the count `nbytes` should come to for a
process whose stored arguments are `args`. -/
structure Delivers (s : State) (m : Mem) (nbytes : Int) (args : List Byte) : Prop where
  ret : (getargs s (some m) nbytes).1 = 0 ↔ args.length + 1 ≤ nbytes
  whole : args.length + 1 ≤ nbytes → ∃ m', (getargs s (some m) nbytes).2.1 = some m' ∧
    (∀ j (hj : j < args.length), m'.byte j = args[j]) ∧ m'.byte args.length = 0#8 ∧
    Mem.Stores (fun a => (a : Int) < nbytes) m m'
  fails : ¬ args.length + 1 ≤ nbytes → getargs s (some m) nbytes = (-1, some m, s)

/-- **`getargs` delivers the whole string or fails** exactly when the buffer has room for the string and its
NUL: otherwise it cuts the string, reports success and forgets it. -/
theorem getargs_delivers_iff {s : State} {args : List Byte} (h : Holds s.curPcb.args args) (hne : args ≠ []) (m : Mem)
    {nbytes : Int} (h₀ : 0 ≤ nbytes) (h₁ : nbytes < 2 ^ 31) :
    Delivers s m nbytes args ↔ args.length + 1 ≤ nbytes := by
  have hcall := getargs_cons (s := s) (by rw [h.cstr]; exact hne) m nbytes
  constructor
  · intro hd
    exact hd.ret.mp (by rw [hcall])
  · intro hfit
    have hn : (toU32 nbytes : Int) = nbytes := by
      rw [toU32_of_nonneg h₀ (by omega)]
      omega
    have hb := strncpyFrom_byte h.terminated h.ne_zero (toU32 nbytes) 0 m (Nat.zero_le _) (by omega)
    refine ⟨⟨fun _ => hfit, fun _ => by rw [hcall]⟩, fun _ => ?_, fun hn => absurd hfit hn⟩
    refine ⟨strncpy m s.curPcb.args (toU32 nbytes), by rw [hcall], fun j hj => ?_, ?_, ?_⟩
    · rw [strncpy, hb j (Nat.zero_le j) (by omega)]
      exact h.byte j hj
    · rw [strncpy, hb args.length (Nat.zero_le _) (Nat.le_refl _)]
      exact h.terminated
    · have hs := strncpy_stores m s.curPcb.args (toU32 nbytes)
      obtain ⟨l, hl, hlt, hbyte⟩ := hs
      exact ⟨l, hl, fun a ha => by have := hlt a ha; omega, hbyte⟩

/-- The state at boot with the argument string `ab`. -/
def abState : State :=
  boot.setPcb 0 { boot.curPcb with args := fun i => if i = 0 then 0x61#8 else if i = 1 then 0x62#8 else 0#8 }

theorem abState_holds : Holds abState.curPcb.args [0x61#8, 0x62#8] := by
  refine ⟨by decide, by decide, fun j hj => ?_, rfl⟩
  obtain rfl | rfl : j = 0 ∨ j = 1 := by
    simp only [List.length_cons, List.length_nil] at hj
    omega
  · rfl
  · rfl

/-- A buffer of three bytes. -/
theorem getargs_delivers_three : Delivers abState (.fresh fun _ => 0xff#8) 3 [0x61#8, 0x62#8] :=
  (getargs_delivers_iff abState_holds (by decide) _ (by decide) (by decide)).mpr (by decide)

/-- A buffer of two bytes gets the string without its NUL. -/
theorem getargs_delivers_not_two : ¬ Delivers abState (.fresh fun _ => 0xff#8) 2 [0x61#8, 0x62#8] := by
  intro h
  have hret : (getargs abState (some (.fresh fun _ => 0xff#8)) 2).1 = 0 := by decide +kernel
  exact absurd (h.ret.mp hret) (by decide)

end LimeOS
