import Dropletfs.Library.Attempts
import Dropletfs.Library.GuardedRuns

/-!
# Parties whose calls interleave

A program issues calls and goes on with their answers. Several parties, each with its own
program, work on a shared state: in one step one of them issues its next call. A contract
says what a party may call and what it gets, in terms of a view of the calls it has made.
When the steps keep an invariant that grants the contract, every party ends as its program
would end alone. With a log beside the view, what a party has to show at its end may speak
of all the calls it made, in their order, and of the answers it got.
-/

namespace Parties

/-- A program: finished, stuck in undefined behaviour, or about to call. -/
inductive Prog (C A α : Type) where
  | done (a : α)
  | stuck
  | call (c : C) (k : A → Prog C A α)

variable {C A α β : Type}

namespace Prog

/-- Go on with the result of a program. -/
def bind : Prog C A α → (α → Prog C A β) → Prog C A β
  | done a, next => next a
  | stuck, _ => stuck
  | call c k, next => call c fun a => (k a).bind next

instance : Monad (Prog C A) where
  pure := done
  bind := bind

/-- A single call. -/
def request (c : C) : Prog C A A := call c done

/-- A local computation, which does not wait for anything. -/
def ofExec : Exec α → Prog C A α
  | .done a => done a
  | .blocked => stuck
  | .undefined => stuck

/-- Issue a call again while the answer is one to retry on and retries are left. -/
def retry (retriable : A → Bool) (c : C) : ℕ → Prog C A A
  | 0 => request c
  | left + 1 => call c fun a => if retriable a then retry retriable c left else done a

end Prog

/-- What a party may call, what it then gets, and how this changes its view of what it has done. -/
structure Contract (C A γ : Type) where
  track : γ → C → A → γ
  may : γ → C → Prop
  gets : γ → C → A → Prop

namespace Prog

variable {γ : Type} {K : Contract C A γ} {mid : γ → α → Prop} {post post' : γ → β → Prop}

/-- A program that calls what it may and ends as required, as long as it gets what the contract says. -/
def Meets (K : Contract C A γ) (post : γ → α → Prop) : γ → Prog C A α → Prop
  | g, done a => post g a
  | _, stuck => True
  | g, call c k => K.may g c ∧ ∀ a, K.gets g c a → (k a).Meets K post (K.track g c a)

/-- A weaker requirement. -/
theorem Meets.mono {p : Prog C A β} {g : γ} (h : p.Meets K post g) (himp : ∀ g b, post g b → post' g b) :
    p.Meets K post' g := by
  induction p generalizing g with
  | done b => exact himp g b h
  | stuck => trivial
  | call c k ih => exact ⟨h.1, fun a ha => ih a (h.2 a ha)⟩

/-- One program after another. -/
theorem Meets.bind {p : Prog C A α} {next : α → Prog C A β} {g : γ} (h : p.Meets K mid g)
    (hnext : ∀ g a, mid g a → (next a).Meets K post g) : (p >>= next).Meets K post g := by
  induction p generalizing g with
  | done a => exact hnext g a h
  | stuck => trivial
  | call c k ih => exact ⟨h.1, fun a ha => ih a (h.2 a ha)⟩

/-- A local computation. -/
theorem Meets.ofExec {x : Exec β} {g : γ} (h : ∀ b, x = .done b → post g b) : (ofExec x).Meets K post g := by
  cases x with
  | done b => exact h b rfl
  | blocked => trivial
  | undefined => trivial

end Prog

/-- The contract with a log beside the view: the calls made so far, with their answers. -/
def Contract.logged {γ : Type} (K : Contract C A γ) : Contract C A (γ × List (C × A)) where
  track g c a := (K.track g.1 c a, g.2 ++ [(c, a)])
  may g := K.may g.1
  gets g := K.gets g.1

/-- A call is made again after each answer to retry on: the calls made, and the last answer. -/
inductive Tried (retriable : A → Bool) (c : C) : List (C × A) → A → Prop
  | last {a : A} : Tried retriable c [(c, a)] a
  | again {a b : A} {made : List (C × A)} : retriable a = true → Tried retriable c made b →
      Tried retriable c ((c, a) :: made) b

/-- The last attempt is one of those made. -/
theorem Tried.last_mem {retriable : A → Bool} {c : C} {made : List (C × A)} {a : A} (h : Tried retriable c made a) :
    (c, a) ∈ made := by
  induction h with
  | last => exact List.mem_singleton_self _
  | again _ _ ih => exact List.mem_cons_of_mem _ ih

/-- Every attempt makes the call, and gets the last answer or one to retry on. -/
theorem Tried.of_mem {retriable : A → Bool} {c : C} {made : List (C × A)} {a : A} (h : Tried retriable c made a)
    {attempt : C × A} (hmem : attempt ∈ made) :
    attempt.1 = c ∧ (attempt.2 = a ∨ retriable attempt.2 = true) := by
  induction h with
  | last =>
    obtain rfl := List.mem_singleton.mp hmem
    exact ⟨rfl, .inl rfl⟩
  | again hagain _ ih =>
    rcases List.mem_cons.mp hmem with rfl | hmem
    · exact ⟨rfl, .inr hagain⟩
    · exact ih hmem

namespace Prog

section Makes

variable {γ : Type} {K : Contract C A γ} {Q : γ → List (C × A) → α → Prop} {R R' : γ → List (C × A) → β → Prop}

/-- From a view on, the program keeps to the contract, and the calls it makes, their answers and its result are as
required. -/
def Makes (K : Contract C A γ) (Q : γ → List (C × A) → α → Prop) (g : γ) (p : Prog C A α) : Prop :=
  ∀ past, p.Meets K.logged (fun g a => ∃ made, g.2 = past ++ made ∧ Q g.1 made a) (g, past)

/-- A weaker requirement. -/
theorem Makes.mono {p : Prog C A β} {g : γ} (h : p.Makes K R g) (himp : ∀ g made b, R g made b → R' g made b) :
    p.Makes K R' g := by
  intro past
  refine (h past).mono fun g' b hb => ?_
  obtain ⟨made, hpast, hR⟩ := hb
  exact ⟨made, hpast, himp _ _ _ hR⟩

/-- Nothing is called. -/
theorem Makes.done {b : β} {g : γ} (h : R g [] b) : (done b : Prog C A β).Makes K R g :=
  fun past => ⟨[], (List.append_nil past).symm, h⟩

/-- One program after another makes the calls of the one and then those of the other. -/
theorem Makes.bind {p : Prog C A α} {next : α → Prog C A β} {g : γ} (h : p.Makes K Q g)
    (hnext : ∀ g made a, Q g made a → (next a).Makes K (fun g more b => R g (made ++ more) b) g) :
    (p >>= next).Makes K R g := by
  intro past
  refine (h past).bind fun g' a ha => ?_
  obtain ⟨made, hpast, hQ⟩ := ha
  have hrest := hnext g'.1 made a hQ (past ++ made)
  rw [← hpast] at hrest
  refine hrest.mono fun g'' b hb => ?_
  obtain ⟨more, hmore, hR⟩ := hb
  exact ⟨made ++ more, by rw [hmore, hpast, List.append_assoc], hR⟩

/-- A single call. -/
theorem Makes.request {Q : γ → List (C × A) → A → Prop} {c : C} {g : γ} (hmay : K.may g c)
    (h : ∀ a, K.gets g c a → Q (K.track g c a) [(c, a)] a) : (request c).Makes K Q g :=
  fun _ => ⟨hmay, fun a ha => ⟨[(c, a)], rfl, h a ha⟩⟩

/-- A local computation. -/
theorem Makes.ofExec {x : Exec β} {g : γ} (h : ∀ b, x = .done b → R g [] b) :
    (ofExec x : Prog C A β).Makes K R g :=
  fun past => Meets.ofExec fun b hb => ⟨[], (List.append_nil past).symm, h b hb⟩

/-- A call that is repeated, under an invariant of the failing attempts. -/
theorem Makes.retry {retriable : A → Bool} {c : C} {Q : γ → List (C × A) → A → Prop} (I : γ → Prop)
    (hmay : ∀ g, I g → K.may g c)
    (hretry : ∀ g a, I g → K.gets g c a → retriable a = true → I (K.track g c a))
    (h : ∀ g a made, I g → K.gets g c a → Tried retriable c made a → Q (K.track g c a) made a)
    (left : ℕ) {g : γ} (hg : I g) : (retry retriable c left).Makes K Q g := by
  induction left generalizing g Q with
  | zero => exact .request (hmay g hg) fun a ha => h g a _ hg ha .last
  | succ left ih =>
    intro past
    refine ⟨hmay g hg, fun a ha => ?_⟩
    simp only
    split
    · rename_i hagain
      have hrest : (Prog.retry retriable c left).Makes K (fun g made b => Q g ((c, a) :: made) b) (K.track g c a) :=
        ih (Q := fun g made b => Q g ((c, a) :: made) b)
          (fun g b made hg hb htried => h g b _ hg hb (.again hagain htried)) (hretry g a hg ha hagain)
      refine (hrest (past ++ [(c, a)])).mono fun g' b hb => ?_
      obtain ⟨made, hpast, hQ⟩ := hb
      exact ⟨(c, a) :: made, by rw [hpast, List.append_assoc, List.singleton_append], hQ⟩
    · exact ⟨[(c, a)], rfl, h g a _ hg ha .last⟩

end Makes

section Runs

variable {σ R : Type} {perform : σ → C → R → A × σ}

/-- The program runs alone, from a state to a result and a state, each of its calls being answered with some reply
of the outside. -/
inductive Runs (perform : σ → C → R → A × σ) : Prog C A α → σ → α → σ → Prop
  | done {a : α} {s : σ} : Runs perform (done a) s a s
  | call {c : C} {k : A → Prog C A α} {s s' : σ} {a : α} (r : R) :
      Runs perform (k (perform s c r).1) (perform s c r).2 a s' → Runs perform (call c k) s a s'

/-- One program after another. -/
theorem Runs.bind {p : Prog C A α} {next : α → Prog C A β} {s s₁ s₂ : σ} {a : α} {b : β}
    (h : p.Runs perform s a s₁) (hnext : (next a).Runs perform s₁ b s₂) : (p >>= next).Runs perform s b s₂ := by
  induction h with
  | done => exact hnext
  | call r _ ih => exact .call r (ih hnext)

/-- A single call. -/
theorem Runs.request (s : σ) (c : C) (r : R) : (request c).Runs perform s (perform s c r).1 (perform s c r).2 :=
  .call r .done

/-- A local computation that returns. -/
theorem Runs.ofExec {x : Exec α} {a : α} (s : σ) (h : x = .done a) : (ofExec x : Prog C A α).Runs perform s a s := by
  rw [h]
  exact .done

/-- A call that is repeated, with a reply for each attempt. -/
theorem Runs.retry (retriable : A → Bool) (c : C) (reply : ℕ → R) (left next : ℕ) (s : σ) :
    (retry retriable c left).Runs perform s
      (Attempts.run retriable (fun i s => perform s c (reply i)) left next s).1
      (Attempts.run retriable (fun i s => perform s c (reply i)) left next s).2 := by
  induction left generalizing next s with
  | zero => exact .request s c (reply next)
  | succ left ih =>
    refine .call (reply next) ?_
    simp only [Attempts.run]
    split
    · exact ih (next + 1) _
    · exact .done

end Runs

end Prog

section System

variable {ι σ R γ : Type} [DecidableEq ι]

/-- The shared state, and the view and the program of each party. -/
structure State (ι σ γ C A α : Type) where
  shared : σ
  view : ι → γ
  prog : ι → Prog C A α

/-- The party has got the answer to its call and goes on. -/
def State.answered (K : Contract C A γ) (s : State ι σ γ C A α) (i : ι) (c : C) (k : A → Prog C A α)
    (reply : A × σ) : State ι σ γ C A α where
  shared := reply.2
  view := Function.update s.view i (K.track (s.view i) c reply.1)
  prog := Function.update s.prog i (k reply.1)

/-- The party issues its next call, which is answered from the shared state and a reply of the outside. -/
def step (perform : σ → C → R → A × σ) (K : Contract C A γ) (s : State ι σ γ C A α) :
    ι × R → Exec (State ι σ γ C A α)
  | (i, r) =>
    match s.prog i with
    | .call c k => .done (s.answered K i c k (perform s.shared c r))
    | _ => .blocked

variable {perform : σ → C → R → A × σ} {K : Contract C A γ}

/-- The program of the party that got an answer. -/
@[simp] theorem State.answered_prog_self (s : State ι σ γ C A α) (i : ι) (c : C) (k : A → Prog C A α)
    (reply : A × σ) : (s.answered K i c k reply).prog i = k reply.1 :=
  Function.update_self ..

/-- The view of the party that got an answer. -/
@[simp] theorem State.answered_view_self (s : State ι σ γ C A α) (i : ι) (c : C) (k : A → Prog C A α)
    (reply : A × σ) : (s.answered K i c k reply).view i = K.track (s.view i) c reply.1 :=
  Function.update_self ..

/-- The other programs wait. -/
theorem State.answered_prog_of_ne {s : State ι σ γ C A α} {i j : ι} (h : j ≠ i) (c : C) (k : A → Prog C A α)
    (reply : A × σ) : (s.answered K i c k reply).prog j = s.prog j :=
  Function.update_of_ne h ..

/-- The other views stay. -/
theorem State.answered_view_of_ne {s : State ι σ γ C A α} {i j : ι} (h : j ≠ i) (c : C) (k : A → Prog C A α)
    (reply : A × σ) : (s.answered K i c k reply).view j = s.view j :=
  Function.update_of_ne h ..

/-- A step is that of a call of the party. -/
theorem step_eq_done {s s' : State ι σ γ C A α} {i : ι} {r : R} (h : step perform K s (i, r) = .done s') :
    ∃ c k, s.prog i = .call c k ∧ s' = s.answered K i c k (perform s.shared c r) := by
  simp only [step] at h
  split at h
  · rename_i c k hprog
    exact ⟨c, k, hprog, (Exec.done.inj h).symm⟩
  · cases h

/-- An invariant that grants the contract, and that the steps keep as long as the parties keep to theirs, holds
of every state reached, and every party ends as required. -/
theorem reached_meets {guard : State ι σ γ C A α → ι × R → Prop} {init : State ι σ γ C A α → Prop}
    (J : State ι σ γ C A α → Prop) (post : ι → γ → α → Prop)
    (hinit : ∀ s, init s → J s ∧ ∀ i, (s.prog i).Meets K (post i) (s.view i))
    (hgets : ∀ s i r c k, J s → guard s (i, r) → s.prog i = .call c k → K.may (s.view i) c →
      K.gets (s.view i) c (perform s.shared c r).1)
    (hkeeps : ∀ s i r c k, J s → guard s (i, r) → s.prog i = .call c k → K.may (s.view i) c →
      (k (perform s.shared c r).1).Meets K (post i) (K.track (s.view i) c (perform s.shared c r).1) →
      J (s.answered K i c k (perform s.shared c r)))
    {s : State ι σ γ C A α} (h : GuardedRuns.Reaches (step perform K) guard init s) :
    J s ∧ ∀ i, (s.prog i).Meets K (post i) (s.view i) := by
  refine GuardedRuns.Reaches.invariant (fun s => J s ∧ ∀ i, (s.prog i).Meets K (post i) (s.view i)) hinit ?_ h
  rintro s ⟨i, r⟩ s' - ⟨hJ, hmeets⟩ hguard hnext
  obtain ⟨c, k, hprog, rfl⟩ := step_eq_done hnext
  have hown := hmeets i
  rw [hprog] at hown
  have hgoes := hown.2 _ (hgets s i r c k hJ hguard hprog hown.1)
  refine ⟨hkeeps s i r c k hJ hguard hprog hown.1 hgoes, fun j => ?_⟩
  by_cases hj : j = i
  · subst hj
    rw [State.answered_prog_self, State.answered_view_self]
    exact hgoes
  · rw [State.answered_prog_of_ne hj, State.answered_view_of_ne hj]
    exact hmeets j

/-- A program that runs alone is run by the steps of its party, the others waiting. -/
theorem reaches_alone {s : State ι σ γ C A α} {i : ι} {a : α} {shared : σ}
    (h : (s.prog i).Runs perform s.shared a shared) :
    ∃ s', GuardedRuns.Reaches (step perform K) (fun _ next => next.1 = i) (fun t => t = s) s' ∧
      s'.prog i = .done a ∧ s'.shared = shared := by
  generalize hprog : s.prog i = p at h
  generalize hshared : s.shared = before at h
  induction h generalizing s with
  | done => exact ⟨s, .start rfl, hprog, hshared⟩
  | @call c k _ _ _ r _ ih =>
    have hstep : step perform K s (i, r) = .done (s.answered K i c k (perform s.shared c r)) := by
      simp only [step, hprog]
    obtain ⟨s', hreached, hdone, hend⟩ := @ih (s.answered K i c k (perform s.shared c r))
      (by rw [State.answered_prog_self, hshared]) (by rw [← hshared]; rfl)
    exact ⟨s', hreached.from_step rfl hstep, hdone, hend⟩

end System

end Parties
