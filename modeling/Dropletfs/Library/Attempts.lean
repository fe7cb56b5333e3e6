import Mathlib.Data.Nat.Notation

/-!
# Repeating a call until its reply is decisive

A caller issues a call, looks at the reply, and issues the call again as long as the
reply is one it retries on and it has retries left. Every attempt may change the state,
whatever it replies. The rules below speak about the state and the reply of such a
sequence without mentioning how many attempts it took.
-/

namespace Attempts

variable {σ ρ : Type*}

/-- Issue attempt number `next`, and go on while replies are retriable and retries are left. -/
def run (retriable : ρ → Bool) (call : ℕ → σ → ρ × σ) : (left next : ℕ) → σ → ρ × σ
  | 0, next, state => call next state
  | left + 1, next, state =>
    let outcome := call next state
    if retriable outcome.1 then run retriable call left (next + 1) outcome.2 else outcome

/-- The state in which an attempt is made, when every earlier one was made. -/
def stateBefore (call : ℕ → σ → ρ × σ) (state : σ) : ℕ → σ
  | 0 => state
  | n + 1 => (call n (stateBefore call state n)).2

/-- The outcome of an attempt, when every earlier one was made. -/
def outcomeOf (call : ℕ → σ → ρ × σ) (state : σ) (n : ℕ) : ρ × σ := call n (stateBefore call state n)

/-- The outcome is that of one attempt, made in a state that the earlier attempts preserve. -/
theorem run_eq_last (retriable : ρ → Bool) (call : ℕ → σ → ρ × σ) (P : σ → Prop)
    (hcall : ∀ i s, P s → retriable (call i s).1 = true → P (call i s).2)
    (left next : ℕ) (state : σ) (hstate : P state) :
    ∃ i s, P s ∧ run retriable call left next state = call i s := by
  induction left generalizing next state with
  | zero => exact ⟨next, state, hstate, rfl⟩
  | succ left ih =>
    by_cases hretry : retriable (call next state).1 = true
    · obtain ⟨i, s, hs, heq⟩ := ih (next + 1) (call next state).2 (hcall next state hstate hretry)
      exact ⟨i, s, hs, by simp only [run, hretry, if_true, heq]⟩
    · exact ⟨next, state, hstate, by simp only [run, hretry, Bool.false_eq_true, if_false]⟩

/-- What every attempt preserves holds after the last one. -/
theorem run_preserves (retriable : ρ → Bool) (call : ℕ → σ → ρ × σ) (P : σ → Prop)
    (hcall : ∀ i s, P s → P (call i s).2) (left next : ℕ) (state : σ) (hstate : P state) :
    P (run retriable call left next state).2 := by
  obtain ⟨i, s, hs, heq⟩ :=
    run_eq_last retriable call P (fun i s h _ => hcall i s h) left next state hstate
  rw [heq]
  exact hcall i s hs

/-- Two ways to make the attempts, whose outcomes are related and as retriable in the one as in the other, have
related outcomes. -/
theorem run_rel {τ π : Type*} {retriable : ρ → Bool} {retriable' : π → Bool} {call : ℕ → σ → ρ × σ}
    {call' : ℕ → τ → π × τ} (S : σ → τ → Prop) (O : ρ × σ → π × τ → Prop)
    (hcall : ∀ i s t, S s t → O (call i s) (call' i t))
    (hagree : ∀ x y, O x y → retriable x.1 = retriable' y.1)
    (hagain : ∀ x y, O x y → retriable x.1 = true → S x.2 y.2)
    (left next : ℕ) {s : σ} {t : τ} (h : S s t) :
    O (run retriable call left next s) (run retriable' call' left next t) := by
  induction left generalizing next s t with
  | zero => exact hcall next s t h
  | succ left ih =>
    have hfirst := hcall next s t h
    by_cases hretry : retriable (call next s).1 = true
    · have hretry' : retriable' (call' next t).1 = true := (hagree _ _ hfirst).symm.trans hretry
      simpa only [run, hretry, hretry', if_true] using ih (next + 1) (hagain _ _ hfirst hretry)
    · have hretry' : ¬ retriable' (call' next t).1 = true := fun h => hretry ((hagree _ _ hfirst).trans h)
      simpa only [run, hretry, hretry', Bool.false_eq_true, if_false] using hfirst

section Repeatable

variable {retriable : ρ → Bool} {call : ℕ → σ → ρ × σ} {change : σ → σ}

/-- A further attempt at a change that is made once when it is made twice. -/
theorem attempt_once (hagain : ∀ s, change (change s) = change s)
    (hcall : ∀ i s, (call i s).2 = s ∨ (call i s).2 = change s) {state s : σ} (hs : s = state ∨ s = change state)
    (i : ℕ) : (call i s).2 = state ∨ (call i s).2 = change state := by
  rcases hs with rfl | rfl
  · exact hcall i s
  · rcases hcall i (change state) with hkept | hchanged
    · exact Or.inr hkept
    · exact Or.inr (hchanged.trans (hagain state))

/-- When every attempt makes such a change or leaves the state alone, the state after all of them is the one before
them or the changed one. -/
theorem run_once (hagain : ∀ s, change (change s) = change s)
    (hcall : ∀ i s, (call i s).2 = s ∨ (call i s).2 = change s) (left next : ℕ) (state : σ) :
    (run retriable call left next state).2 = state ∨ (run retriable call left next state).2 = change state :=
  run_preserves retriable call (fun s => s = state ∨ s = change state)
    (fun i _ hs => attempt_once hagain hcall hs i) left next state (Or.inl rfl)

/-- When moreover every attempt with a good reply makes the change, a good outcome means that it is made. -/
theorem run_made (good : ρ → Prop) (hagain : ∀ s, change (change s) = change s)
    (hcall : ∀ i s, (call i s).2 = s ∨ (call i s).2 = change s)
    (hmade : ∀ i s, good (call i s).1 → (call i s).2 = change s) (left next : ℕ) (state : σ)
    (hgood : good (run retriable call left next state).1) :
    (run retriable call left next state).2 = change state := by
  obtain ⟨i, s, hs, hlast⟩ := run_eq_last retriable call (fun s => s = state ∨ s = change state)
    (fun i _ hs _ => attempt_once hagain hcall hs i) left next state (Or.inl rfl)
  rw [hlast] at hgood ⊢
  rw [hmade i s hgood]
  rcases hs with rfl | rfl
  · rfl
  · exact hagain state

end Repeatable

/-- A first reply that is not retriable is the outcome. -/
theorem run_of_decisive (retriable : ρ → Bool) (call : ℕ → σ → ρ × σ) (left next : ℕ) (state : σ)
    (h : retriable (call next state).1 = false) :
    run retriable call left next state = call next state := by
  cases left with
  | zero => rfl
  | succ left => simp only [run, h, Bool.false_eq_true, if_false]

/-- Counting the attempts from one on is counting those of the calls after the first. -/
theorem run_shift (retriable : ρ → Bool) (call : ℕ → σ → ρ × σ) (left next : ℕ) (state : σ) :
    run retriable call left (next + 1) state = run retriable (fun i => call (i + 1)) left next state := by
  induction left generalizing next state with
  | zero => rfl
  | succ left ih =>
    simp only [run]
    split
    · exact ih (next + 1) _
    · rfl

end Attempts
