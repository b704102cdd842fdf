/-!
# Loops that end when they end

`while` with a bound on the tests that it makes: none where the bound is
reached, and where a body is not defined. A loop with an invariant and a variant
comes to its end within the variant (`whileLoop_total`); what holds whenever it
ends needs the invariant alone (`whileLoop_inv`).
-/

namespace LimeOS

variable {σ : Type}

/-- `while (c) body`, given up after `n` tests. -/
def whileLoop (c : σ → Bool) (body : σ → Option σ) : Nat → σ → Option σ
  | 0, _ => none
  | n + 1, s => if c s then (body s).bind (whileLoop c body n) else some s

section

variable {c : σ → Bool} {body : σ → Option σ} {n : Nat} {s s' : σ}

theorem whileLoop_done (h : c s = false) : whileLoop c body (n + 1) s = some s := by
  rw [whileLoop, h]
  rfl

theorem whileLoop_next (h : c s = true) (hb : body s = some s') :
    whileLoop c body (n + 1) s = whileLoop c body n s' := by
  rw [whileLoop, if_pos h, hb, Option.bind_some]

/-- What the loop keeps holds where it ends. -/
theorem whileLoop_inv {I : σ → Prop} (hstep : ∀ s s', I s → c s = true → body s = some s' → I s') (h : I s)
    (hr : whileLoop c body n s = some s') : I s' ∧ c s' = false := by
  induction n generalizing s with
  | zero => cases hr
  | succ n ih =>
    rw [whileLoop] at hr
    split at hr
    · rename_i hc
      obtain ⟨s₁, h₁, hr⟩ := Option.bind_eq_some_iff.mp hr
      exact ih (hstep s s₁ h hc h₁) hr
    · rename_i hc
      obtain rfl := Option.some.inj hr
      exact ⟨h, Bool.eq_false_iff.mpr hc⟩

/-- A loop that keeps `I` and takes from the variant `v` ends. -/
theorem whileLoop_total {I : σ → Prop} (v : σ → Nat)
    (hstep : ∀ s, I s → c s = true → ∃ s', body s = some s' ∧ I s' ∧ v s' < v s) (h : I s) (hn : v s < n) :
    ∃ s', whileLoop c body n s = some s' ∧ I s' ∧ c s' = false := by
  induction n generalizing s with
  | zero => omega
  | succ n ih =>
    cases hc : c s with
    | false => exact ⟨s, whileLoop_done hc, h, hc⟩
    | true =>
      obtain ⟨s₁, h₁, hI, hv⟩ := hstep s h hc
      rw [whileLoop_next hc h₁]
      exact ih hI (by omega)

end

end LimeOS
