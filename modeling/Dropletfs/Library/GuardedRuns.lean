import Dropletfs.Library.Exec

/-!
# Runs whose steps meet a guard

A system takes a step for each input it is given; an input on which it waits or leaves
defined behaviour leads nowhere. A guard is a condition on the state before a step and its
input. What holds at the start and is preserved by every guarded step holds of every state
a guarded run reaches.
-/

namespace GuardedRuns

variable {σ ι : Type}

/-- The states reached from a start by steps that all meet the guard. -/
inductive Reaches (next : σ → ι → Exec σ) (guard : σ → ι → Prop) (init : σ → Prop) : σ → Prop
  | start {s : σ} : init s → Reaches next guard init s
  | step {s s' : σ} {i : ι} : Reaches next guard init s → guard s i → next s i = .done s' →
      Reaches next guard init s'

/-- No guard at all. -/
def unguarded : σ → ι → Prop := fun _ _ => True

variable {next : σ → ι → Exec σ} {guard guard' : σ → ι → Prop} {init : σ → Prop}

/-- What holds at the start and is preserved by the guarded steps holds of every reached state. The
state before a step may be taken to be reached itself. -/
theorem Reaches.invariant (I : σ → Prop) (hinit : ∀ s, init s → I s)
    (hstep : ∀ s i s', Reaches next guard init s → I s → guard s i → next s i = .done s' → I s')
    {s : σ} (h : Reaches next guard init s) : I s := by
  induction h with
  | start hs => exact hinit _ hs
  | step hreach hguard hnext ih => exact hstep _ _ _ hreach ih hguard hnext

/-- A weaker guard reaches at least as much. -/
theorem Reaches.mono (hguard : ∀ s i, guard s i → guard' s i) {s : σ} (h : Reaches next guard init s) :
    Reaches next guard' init s := by
  induction h with
  | start hs => exact .start hs
  | step _ hg hnext ih => exact .step ih (hguard _ _ hg) hnext

/-- More starts reach at least as much. -/
theorem Reaches.mono_init {init' : σ → Prop} (hinit : ∀ s, init s → init' s) {s : σ}
    (h : Reaches next guard init s) : Reaches next guard init' s := by
  induction h with
  | start hs => exact .start (hinit _ hs)
  | step _ hg hnext ih => exact .step ih hg hnext

/-- What is reached from the state after a step is reached from the state before it. -/
theorem Reaches.from_step {s s' t : σ} {i : ι} (h : Reaches next guard (fun t => t = s') t) (hguard : guard s i)
    (hnext : next s i = .done s') : Reaches next guard (fun t => t = s) t := by
  induction h with
  | start hs => exact hs ▸ .step (.start rfl) hguard hnext
  | step _ hg hnext' ih => exact .step ih hg hnext'

/-- The steps for these inputs, each of which has to pass a test. -/
def run (next : σ → ι → Exec σ) (test : σ → ι → Bool) : List ι → σ → Exec σ
  | [], s => .done s
  | i :: inputs, s => if test s i then next s i >>= run next test inputs else .blocked

/-- A test that is enough for the guard makes a guarded run. -/
theorem Reaches.run {test : σ → ι → Bool} (htest : ∀ s i, test s i = true → guard s i) {inputs : List ι} {s s' : σ}
    (h : Reaches next guard init s) (hrun : run next test inputs s = .done s') : Reaches next guard init s' := by
  induction inputs generalizing s with
  | nil =>
    obtain rfl := Exec.done.inj hrun
    exact h
  | cons i inputs ih =>
    simp only [GuardedRuns.run] at hrun
    split at hrun
    · rename_i hpasses
      obtain ⟨s₁, hnext, hrest⟩ := Exec.bind_eq_done.mp hrun
      exact ih (.step h (htest s i hpasses) hnext) hrest
    · cases hrun

section Recorded

variable {α : Type}

/-- The system with a record beside its state, which each step brings up to date from the state before it,
the input, and the state after it. -/
def recorded (next : σ → ι → Exec σ) (note : σ → ι → σ → α → α) : σ × α → ι → Exec (σ × α) := fun t i => do
  let s ← next t.1 i
  return (s, note t.1 i s t.2)

/-- A step with a record is a step. -/
theorem recorded_eq_done {note : σ → ι → σ → α → α} {t t' : σ × α} {i : ι} :
    recorded next note t i = .done t' ↔ next t.1 i = .done t'.1 ∧ t'.2 = note t.1 i t'.1 t.2 := by
  unfold recorded
  rw [Exec.bind_eq_done]
  constructor
  · rintro ⟨s, hnext, hdone⟩
    obtain rfl := Exec.done.inj hdone
    exact ⟨hnext, rfl⟩
  · rintro ⟨hnext, hnote⟩
    exact ⟨t'.1, hnext, congrArg Exec.done (Prod.ext rfl hnote.symm)⟩

/-- Without its record, a reached state is reached. -/
theorem Reaches.unrecorded {note : σ → ι → σ → α → α} {guard : σ × α → ι → Prop} {start : α} {t : σ × α}
    (h : Reaches (recorded next note) guard (fun t => init t.1 ∧ t.2 = start) t) :
    Reaches next unguarded init t.1 := by
  induction h with
  | start ht => exact .start ht.1
  | step _ _ hnext ih => exact .step ih trivial (recorded_eq_done.mp hnext).1

end Recorded

end GuardedRuns
