import Mathlib.Logic.Function.Basic

/-!
# Programs that call a host

A program is a tree: it ends, or makes a call and goes on with the result. What
it computes between its calls is Lean's. A host answers the calls, and changes on
its own between them (`Host.idle`). What holds of every run of a program on a host
is a predicate of the tree (`Prog.Wp`), which also says that no call faults; it is
proved by a rule for each part of a program, and says what it should of the runs
(`Wp.exec`, `Wp.not_stuck`).
-/

namespace LimeOS

/-- Programs that make calls `C`, with results of the types `R`. -/
inductive Prog (C : Type) (R : C → Type) (α : Type)
  | ret (a : α)
  | call (c : C) (k : R c → Prog C R α)

namespace Prog

variable {C : Type} {R : C → Type} {α β σ : Type}

def bind : Prog C R α → (α → Prog C R β) → Prog C R β
  | ret a, f => f a
  | call c k, f => call c fun r => (k r).bind f

instance : Monad (Prog C R) where
  pure := ret
  bind := bind

/-- A call, for its result. -/
def ask (c : C) : Prog C R (R c) := call c ret

/-- `while (1)`, given up after `n` rounds: a round goes on with the next variables or ends the loop. -/
def loop (body : σ → Prog C R (σ ⊕ α)) : Nat → σ → Prog C R (Option α)
  | 0, _ => ret none
  | n + 1, s => (body s).bind fun
    | .inl s' => loop body n s'
    | .inr a => ret (some a)

end Prog

/-- What answers the calls: its own changes, and the results that a call can have with the state after
it, none for a call that faults. -/
structure Host (C : Type) (R : C → Type) (W : Type) where
  idle : W → W → Prop
  answer : W → (c : C) → Option (R c × W) → Prop

namespace Prog

variable {C : Type} {R : C → Type} {α β σ W : Type} (h : Host C R W)

/-- The program ends with `a`, in `w'`. -/
inductive Exec : Prog C R α → W → α → W → Prop
  | ret (a : α) (w : W) : Exec (.ret a) w a w
  | call {c : C} {k : R c → Prog C R α} {w w₁ w' : W} {r : R c × W} {a : α} : h.idle w w₁ →
      h.answer w₁ c (some r) → Exec (k r.1) r.2 a w' → Exec (.call c k) w a w'

/-- The program can come to a call that faults. -/
inductive Stuck : Prog C R α → W → Prop
  | call {c : C} {k : R c → Prog C R α} {w w₁ : W} : h.idle w w₁ → h.answer w₁ c none → Stuck (.call c k) w
  | later {c : C} {k : R c → Prog C R α} {w w₁ : W} {r : R c × W} : h.idle w w₁ →
      h.answer w₁ c (some r) → Stuck (k r.1) r.2 → Stuck (.call c k) w

/-- Whatever the host does, the program makes no call that faults, and `Q` holds where it ends. -/
def Wp : Prog C R α → (α → W → Prop) → W → Prop
  | ret a, Q, w => Q a w
  | call c k, Q, w => ∀ w₁ o, h.idle w w₁ → h.answer w₁ c o → ∃ r, o = some r ∧ (k r.1).Wp Q r.2

variable {h} {p : Prog C R α} {Q Q' : α → W → Prop} {w : W}

theorem Wp.exec {a : α} {w' : W} (hp : p.Wp h Q w) (he : Exec h p w a w') : Q a w' := by
  induction he with
  | ret a w => exact hp
  | call hi ha _ ih =>
    obtain ⟨r, hr, hk⟩ := hp _ _ hi ha
    obtain rfl := Option.some.inj hr
    exact ih hk

theorem Wp.not_stuck (hp : p.Wp h Q w) : ¬ Stuck h p w := by
  intro hs
  induction hs with
  | call hi ha =>
    obtain ⟨r, hr, -⟩ := hp _ _ hi ha
    cases hr
  | later hi ha _ ih =>
    obtain ⟨r, hr, hk⟩ := hp _ _ hi ha
    obtain rfl := Option.some.inj hr
    exact ih hk

theorem Wp.mono (hp : p.Wp h Q w) (hQ : ∀ a w, Q a w → Q' a w) : p.Wp h Q' w := by
  induction p generalizing w with
  | ret a => exact hQ a w hp
  | call c k ih =>
    intro w₁ o hi ha
    obtain ⟨r, hr, hk⟩ := hp w₁ o hi ha
    exact ⟨r, hr, ih r.1 hk⟩

@[simp] theorem wp_ret (a : α) : (ret a : Prog C R α).Wp h Q w ↔ Q a w := Iff.rfl

@[simp] theorem wp_pure (a : α) : (pure a : Prog C R α).Wp h Q w ↔ Q a w := Iff.rfl

@[simp] theorem wp_bind {f : α → Prog C R β} {Q : β → W → Prop} :
    (p.bind f).Wp h Q w ↔ p.Wp h (fun a w => (f a).Wp h Q w) w := by
  induction p generalizing w with
  | ret a => exact Iff.rfl
  | call c k ih =>
    constructor
    · intro hp w₁ o hi ha
      obtain ⟨r, hr, hk⟩ := hp w₁ o hi ha
      exact ⟨r, hr, (ih r.1).mp hk⟩
    · intro hp w₁ o hi ha
      obtain ⟨r, hr, hk⟩ := hp w₁ o hi ha
      exact ⟨r, hr, (ih r.1).mpr hk⟩

@[simp] theorem wp_bind' {f : α → Prog C R β} {Q : β → W → Prop} :
    (p >>= f).Wp h Q w ↔ p.Wp h (fun a w => (f a).Wp h Q w) w := wp_bind

theorem wp_ask {c : C} {Q : R c → W → Prop} :
    (ask c).Wp h Q w ↔ ∀ w₁ o, h.idle w w₁ → h.answer w₁ c o → ∃ r, o = some r ∧ Q r.1 r.2 := Iff.rfl

section

variable {body : σ → Prog C R (σ ⊕ α)}

/-- A loop that keeps `I`, with less and less to go, comes to its end. -/
theorem wp_loop {I : Nat → σ → W → Prop} (hbody : ∀ k s w, I k s w → (body s).Wp h
      (fun r w' => r.elim (fun s' => ∃ k' < k, I k' s' w') (Q · w')) w) :
    ∀ {n k : Nat} {s : σ} {w : W}, I k s w → k < n → (loop body n s).Wp h (fun r w' => ∃ a, r = some a ∧ Q a w') w
  | 0, _, _, _, _, hn => absurd hn (Nat.not_lt_zero _)
  | n + 1, k, s, w, hI, hn => by
    refine wp_bind.mpr ((hbody k s w hI).mono fun r w' hr => ?_)
    cases r with
    | inl s' =>
      obtain ⟨k', hk, hI'⟩ := hr
      exact wp_loop hbody hI' (Nat.lt_of_lt_of_le hk (Nat.le_of_lt_succ hn))
    | inr a => exact ⟨a, rfl, hr⟩

/-- What a loop keeps, where it ends or is given up. -/
theorem wp_loop_partial {I : σ → W → Prop} {P : W → Prop} (hIP : ∀ s w, I s w → P w) (hbody : ∀ s w, I s w → (body s).Wp h
      (fun r w' => r.elim (I · w') (Q · w')) w) :
    ∀ {n : Nat} {s : σ} {w : W}, I s w → (loop body n s).Wp h (fun r w' => r.elim (P w') (Q · w')) w
  | 0, s, w, hI => hIP s w hI
  | n + 1, s, w, hI => by
    refine wp_bind.mpr ((hbody s w hI).mono fun r w' hr => ?_)
    cases r with
    | inl s' => exact wp_loop_partial hIP hbody hr
    | inr a => exact hr

end

end Prog

end LimeOS
