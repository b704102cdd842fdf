import Mathlib.Logic.Function.Basic

/-!
# Runs of a step function

A system is a partial step function on states, by events: `none` where the
code's next state is not defined. A run takes a list of events. What holds of
every state reached follows from what one step keeps (`run_inv`); where the
steps keep it only under a condition on the state before them, from the
condition along the run (`Guarded`), which is then exact if a step that breaks
it breaks the property (`always_iff_guarded`). A history value, computed along
the run and not kept by the system, is a second component of the state
(`withHistory`).
-/

namespace LimeOS

/-- What a call that may fail came to, when it did not. -/
theorem toOption_map_eq_some {α β φ : Type} {x : Except φ α} {f : α → β} {b : β} :
    x.toOption.map f = some b ↔ ∃ a, x = .ok a ∧ f a = b := by
  cases x <;> simp [Except.toOption]

theorem map_eq_ok {α β φ : Type} {x : Except φ α} {f : α → β} {b : β} :
    x.map f = .ok b ↔ ∃ a, x = .ok a ∧ f a = b := by
  cases x <;> simp [Except.map]

theorem map_eq_error {α β φ : Type} {x : Except φ α} {f : α → β} {e : φ} : x.map f = .error e ↔ x = .error e := by
  cases x <;> simp [Except.map]

variable {σ ε γ : Type}

/-- The state after a list of events. -/
def run (step : σ → ε → Option σ) : σ → List ε → Option σ
  | s, [] => some s
  | s, e :: es => (step s e).bind fun s' => run step s' es

section

variable {step : σ → ε → Option σ} {s s' : σ} {e : ε} {es : List ε}

theorem run_cons (h : step s e = some s') : run step s (e :: es) = run step s' es := by
  rw [run, h, Option.bind_some]

/-- A run of at least one event takes its first step. -/
theorem run_cons_eq_some {s₂ : σ} (h : run step s (e :: es) = some s₂) :
    ∃ s₁, step s e = some s₁ ∧ run step s₁ es = some s₂ :=
  Option.bind_eq_some_iff.mp h

theorem run_append (es es' : List ε) (s : σ) :
    run step s (es ++ es') = (run step s es).bind fun s' => run step s' es' := by
  induction es generalizing s with
  | nil => rfl
  | cons e es ih =>
    rw [List.cons_append, run, run, Option.bind_assoc]
    congr 1
    funext s₁
    exact ih s₁

theorem run_replicate_one (h : step s e = some s') : run step s (List.replicate 1 e) = some s' := by
  rw [List.replicate_one, run_cons h]
  rfl

/-- Two runs of one event are a run of it. -/
theorem run_replicate_add {s₂ : σ} {n k : Nat} (h₁ : run step s (List.replicate n e) = some s')
    (h₂ : run step s' (List.replicate k e) = some s₂) : run step s (List.replicate (n + k) e) = some s₂ := by
  rw [← List.replicate_append_replicate, run_append, h₁]
  exact h₂

/-- The invariant rule. -/
theorem run_inv {I : σ → Prop} (hstep : ∀ s e s', I s → step s e = some s' → I s') :
    ∀ {es : List ε} {s s' : σ}, I s → run step s es = some s' → I s'
  | [], s, s', h, hr => by
    cases hr
    exact h
  | e :: es, s, s', h, hr => by
    obtain ⟨s₁, h₁, hr⟩ := run_cons_eq_some hr
    exact run_inv hstep (hstep s e s₁ h h₁) hr

end

/-- Every step taken from `s` along the events meets `ok` in the state before it. -/
def Guarded (step : σ → ε → Option σ) (ok : σ → ε → Prop) : σ → List ε → Prop
  | _, [] => True
  | s, e :: es => ∀ s', step s e = some s' → ok s e ∧ Guarded step ok s' es

instance Guarded.decidable {step : σ → ε → Option σ} {ok : σ → ε → Prop} [∀ s e, Decidable (ok s e)] :
    ∀ (s : σ) (es : List ε), Decidable (Guarded step ok s es)
  | _, [] => .isTrue trivial
  | s, e :: es =>
    match h : step s e with
    | none => .isTrue fun s' h' => absurd (h.symm.trans h') (Option.some_ne_none s').symm
    | some s' =>
      have : Decidable (Guarded step ok s' es) := Guarded.decidable s' es
      decidable_of_iff (ok s e ∧ Guarded step ok s' es)
        ⟨fun hg _ h' => Option.some.inj (h.symm.trans h') ▸ hg, fun hg => hg s' h⟩

/-- `P` holds of every state reached from `s` along the events, `s` included. -/
def Always (step : σ → ε → Option σ) (P : σ → Prop) : σ → List ε → Prop
  | s, [] => P s
  | s, e :: es => P s ∧ ∀ s', step s e = some s' → Always step P s' es

section

variable {step : σ → ε → Option σ} {ok : σ → ε → Prop} {I P : σ → Prop}

theorem Always.head {s : σ} : ∀ {es : List ε}, Always step P s es → P s
  | [], h => h
  | _ :: _, h => h.1

/-- The invariant rule for steps that meet a condition. -/
theorem Guarded.always (hIP : ∀ s, I s → P s)
    (hstep : ∀ s e s', I s → ok s e → step s e = some s' → I s') :
    ∀ {es : List ε} {s : σ}, I s → Guarded step ok s es → Always step P s es
  | [], s, h, _ => hIP s h
  | _ :: _, s, h, hg => ⟨hIP s h, fun s' hs => by
      obtain ⟨hok, hg⟩ := hg s' hs
      exact Guarded.always hIP hstep (hstep s _ s' h hok hs) hg⟩

/-- The invariant rule for steps that need no condition. -/
theorem always_inv (hIP : ∀ s, I s → P s) (hstep : ∀ s e s', I s → step s e = some s' → I s')
    {es : List ε} {s : σ} (h : I s) : Always step P s es := by
  induction es generalizing s with
  | nil => exact hIP s h
  | cons e es ih => exact ⟨hIP s h, fun s' hs => ih (hstep s e s' h hs)⟩

/-- The state at the end of a run along which `P` always holds. -/
theorem Always.last : ∀ {es : List ε} {s s' : σ}, Always step P s es → run step s es = some s' → P s'
  | [], _, _, h, hr => by
    cases hr
    exact h
  | e :: es, s, s', h, hr => by
    obtain ⟨s₁, h₁, hr⟩ := run_cons_eq_some hr
    exact Always.last (h.2 s₁ h₁) hr

/-- A condition that the events meet in every state. -/
theorem guarded_of_forall : ∀ {es : List ε} {s : σ}, (∀ e ∈ es, ∀ s, ok s e) → Guarded step ok s es
  | [], _, _ => trivial
  | e :: _, s, h => fun _ _ =>
    ⟨h e List.mem_cons_self s, guarded_of_forall fun e' he' => h e' (List.mem_cons_of_mem _ he')⟩

theorem guarded_append : ∀ {es es' : List ε} {s : σ}, Guarded step ok s es →
    (∀ s', run step s es = some s' → Guarded step ok s' es') → Guarded step ok s (es ++ es')
  | [], _, s, _, h' => h' s rfl
  | _ :: _, _, _, h, h' => fun s' hs =>
    ⟨(h s' hs).1, guarded_append (h s' hs).2 fun s₂ hr => h' s₂ (by rw [run_cons hs, hr])⟩

/-- The condition is exact when every step from the invariant that misses it
leads to a state without `P`. -/
theorem always_iff_guarded (hIP : ∀ s, I s → P s)
    (hstep : ∀ s e s', I s → ok s e → step s e = some s' → I s')
    (hbad : ∀ s e s', I s → ¬ ok s e → step s e = some s' → ¬ P s')
    {es : List ε} {s : σ} (h : I s) : Always step P s es ↔ Guarded step ok s es := by
  refine ⟨fun ha => ?_, Guarded.always hIP hstep h⟩
  induction es generalizing s with
  | nil => trivial
  | cons e es ih =>
    intro s' hs
    have hok : ok s e := by
      by_contra hn
      exact hbad s e s' h hn hs (ha.2 s' hs).head
    exact ⟨hok, ih (hstep s e s' h hok hs) (ha.2 s' hs)⟩

end

/-! ## Two systems in step -/

/-- Systems whose steps come to related states do so along every run, where a condition is met on the second. -/
theorem run_rel {τ : Type} {R : σ → τ → Prop} {step : σ → ε → Option σ} {step' : τ → ε → Option τ}
    {ok : τ → ε → Prop}
    (hstep : ∀ s t e, R s t → (∀ t', step' t e = some t' → ok t e) → Option.Rel R (step s e) (step' t e)) :
    ∀ {es : List ε} {s : σ} {t : τ}, R s t → Guarded step' ok t es → Option.Rel R (run step s es) (run step' t es)
  | [], _, _, h, _ => .some h
  | e :: es, s, t, h, hg => by
    have h' := hstep s t e h fun t' ht => (hg t' ht).1
    rw [run, run]
    cases hs : step s e with
    | none =>
      cases ht : step' t e with
      | none => exact .none
      | some t' =>
        rw [hs, ht] at h'
        cases h'
    | some s' =>
      cases ht : step' t e with
      | none =>
        rw [hs, ht] at h'
        cases h'
      | some t' =>
        rw [hs, ht] at h'
        cases h' with
        | some hr => exact run_rel hstep hr (hg t' ht).2

/-! ## History values -/

/-- The system with a history value, updated by `upd` from the state before the step. -/
def withHistory (step : σ → ε → Option σ) (upd : σ → ε → γ → γ) : σ × γ → ε → Option (σ × γ) :=
  fun p e => (step p.1 e).map fun s' => (s', upd p.1 e p.2)

section

variable {step : σ → ε → Option σ} {upd : σ → ε → γ → γ}

theorem withHistory_eq_some {p p' : σ × γ} {e : ε} (h : withHistory step upd p e = some p') :
    step p.1 e = some p'.1 ∧ p'.2 = upd p.1 e p.2 := by
  obtain ⟨s', hs, rfl⟩ := Option.map_eq_some_iff.mp h
  exact ⟨hs, rfl⟩

theorem withHistory_of_step {s s' : σ} {e : ε} (g : γ) (h : step s e = some s') :
    withHistory step upd (s, g) e = some (s', upd s e g) := by
  simp [withHistory, h]

/-- A condition on the system's state alone. -/
theorem Guarded.withHistory {ok : σ → ε → Prop} : ∀ {es : List ε} {s : σ} (g : γ), Guarded step ok s es →
    Guarded (withHistory step upd) (fun p e => ok p.1 e) (s, g) es
  | [], _, _, _ => trivial
  | _ :: _, _, _, h => fun p hp => by
    obtain ⟨hs, hg⟩ := withHistory_eq_some hp
    exact ⟨(h p.1 hs).1, Guarded.withHistory p.2 (h p.1 hs).2⟩

end

end LimeOS
