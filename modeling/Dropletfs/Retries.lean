import Dropletfs.Timeout

/-!
# The retry loops, reply by reply

Each wrapper is a loop of its own with a counter of its tries. Here the loops are run on the
sequence of replies alone: how many calls a wrapper makes, and which reply it returns. A
wrapper stops at the first reply it takes as final and after its last retry otherwise, and the
wrappers that work on the store make exactly the attempts counted here. The delays between
the attempts are left out.
-/

namespace Dropletfs

/-- The eleven wrappers of `timeout.c`. -/
inductive Wrapper where
  | getattr
  | setattr
  | mknod
  | mkdir
  | unlink
  | rmdir
  | fcopy
  | chdir
  | opendir
  | namei
  | headAll
  deriving DecidableEq, Repr

/-- The condition under which a wrapper goes back to its label `retry`. -/
def Wrapper.goesBack (wrapper : Wrapper) (rc : Status) (tries : ℕ) (maxRetry : ℤ) : Bool :=
  match wrapper with
  | .getattr => (rc ≠ .success ∧ rc ≠ .eisdir) ∧ (rc ≠ .enoent ∧ tries < maxRetry)
  | .setattr => rc ≠ .success ∧ rc ≠ .eisdir ∧ tries < maxRetry
  | .mknod => rc ≠ .success ∧ tries < maxRetry
  | .mkdir => rc ≠ .success ∧ (rc ≠ .enoent ∧ tries < maxRetry)
  | .unlink => rc ≠ .success ∧ (rc ≠ .enoent ∧ tries < maxRetry)
  | .rmdir => rc ≠ .success ∧ (rc ≠ .enoent ∧ tries < maxRetry)
  | .fcopy => rc ≠ .success ∧ (rc ≠ .enoent ∧ tries < maxRetry)
  | .chdir => rc ≠ .success ∧ (rc ≠ .einval ∧ tries < maxRetry)
  | .opendir => rc ≠ .success ∧ (rc ≠ .enoent ∧ tries < maxRetry)
  | .namei => rc ≠ .success ∧ (rc ≠ .enoent ∧ tries < maxRetry)
  | .headAll => rc ≠ .success ∧ (rc ≠ .enoent ∧ tries < maxRetry)

/-- The replies that a wrapper takes as final. -/
def Wrapper.final : Wrapper → List Status
  | .getattr => [.success, .eisdir, .enoent]
  | .setattr => [.success, .eisdir]
  | .mknod => [.success]
  | .chdir => [.success, .einval]
  | _ => [.success, .enoent]

/-- A wrapper goes back on every other reply, as long as it has a retry left. -/
theorem Wrapper.goesBack_iff (wrapper : Wrapper) (rc : Status) (tries : ℕ) (maxRetry : ℤ) :
    wrapper.goesBack rc tries maxRetry = true ↔ rc ∉ wrapper.final ∧ tries < maxRetry := by
  cases wrapper <;>
    simp only [goesBack, final, decide_eq_true_eq, List.mem_cons, List.not_mem_nil, or_false, not_or, and_assoc,
      ne_eq]

/-- Success is final for every wrapper. -/
theorem Wrapper.success_mem_final (wrapper : Wrapper) : Status.success ∈ wrapper.final := by
  cases wrapper <;> exact List.mem_cons_self

/-- What a wrapper did: the number of its calls, and the status it returns. -/
structure Retried where
  calls : ℕ
  rc : Status
  deriving DecidableEq, Repr

/-- A wrapper from its label `retry` on: the reply to one call, and back to the label or out. -/
def Wrapper.retry (wrapper : Wrapper) (maxRetry : ℤ) (reply : ℕ → Status) (tries : ℕ) : Retried :=
  let rc := reply tries
  if wrapper.goesBack rc tries maxRetry then wrapper.retry maxRetry reply (tries + 1) else ⟨tries + 1, rc⟩
termination_by (maxRetry - tries).toNat
decreasing_by
  rename_i hback
  have hleft := ((wrapper.goesBack_iff _ _ _).mp hback).2
  omega

/-- A wrapper: it starts with no tries made. -/
def Wrapper.timeout (wrapper : Wrapper) (maxRetry : ℤ) (reply : ℕ → Status) : Retried :=
  wrapper.retry maxRetry reply 0

/-- What the loop does after some tries: it makes calls up to the first whose reply is final, or up to its
last retry. -/
theorem Wrapper.retry_spec (wrapper : Wrapper) (maxRetry : ℤ) (reply : ℕ → Status) (tries : ℕ) :
    ∃ n, wrapper.retry maxRetry reply tries = ⟨n + 1, reply n⟩ ∧ tries ≤ n ∧ n ≤ max tries maxRetry.toNat ∧
      (∀ i, tries ≤ i → i < n → reply i ∉ wrapper.final) ∧ (reply n ∈ wrapper.final ∨ maxRetry.toNat ≤ n) := by
  induction tries using Wrapper.retry.induct wrapper maxRetry reply with
  | case1 tries rc hback ih =>
    obtain ⟨n, hretry, htries, hmax, hearlier, hlast⟩ := ih
    obtain ⟨hrc, hleft⟩ := (wrapper.goesBack_iff _ _ _).mp hback
    refine ⟨n, ?_, by omega, by omega, fun i hfrom hi => ?_, hlast⟩
    · rw [Wrapper.retry, if_pos hback, hretry]
    · by_cases hi' : i = tries
      · rw [hi']
        exact hrc
      · exact hearlier i (by omega) hi
  | case2 tries rc hback =>
    refine ⟨tries, ?_, le_rfl, le_max_left .., fun i hfrom hi => by omega, ?_⟩
    · rw [Wrapper.retry, if_neg hback]
    · rw [wrapper.goesBack_iff, not_and_or, not_not] at hback
      rcases hback with hfinal | hleft
      · exact .inl hfinal
      · exact .inr (by omega)

/-- What a caller relies on: the calls are bounded, the reply to the last is returned, the earlier ones
were failures to retry on, and the last is final unless it is the last there may be. -/
structure Retried.Decisive (run : Retried) (final : List Status) (limit : ℕ) (reply : ℕ → Status) : Prop where
  called : 0 < run.calls
  bounded : run.calls ≤ limit + 1
  returned : run.rc = reply (run.calls - 1)
  earlier : ∀ i < run.calls - 1, reply i ≠ .success ∧ reply i ∉ final
  last : run.rc = .success ∨ run.rc ∈ final ∨ run.calls = limit + 1

/-- Every wrapper returns the decisive reply, whatever the limit and the replies are. -/
theorem timeout_decisive (wrapper : Wrapper) (maxRetry : ℤ) (reply : ℕ → Status) :
    (wrapper.timeout maxRetry reply).Decisive wrapper.final (max 0 maxRetry).toNat reply := by
  have hlimit : (max 0 maxRetry).toNat = maxRetry.toNat := by omega
  obtain ⟨n, hretry, -, hmax, hearlier, hlast⟩ := wrapper.retry_spec maxRetry reply 0
  rw [Wrapper.timeout, hretry, hlimit]
  constructor
  case called => exact Nat.succ_pos n
  case bounded => exact Nat.succ_le_succ (hmax.trans_eq (Nat.max_eq_right (Nat.zero_le _)))
  case returned => rfl
  case earlier =>
    intro i hi
    have hnot := hearlier i (Nat.zero_le i) hi
    exact ⟨fun hsuccess => hnot (hsuccess ▸ wrapper.success_mem_final), hnot⟩
  case last =>
    rcases hlast with hfinal | hleft
    · exact .inr (.inl hfinal)
    · have hn : n = maxRetry.toNat := le_antisymm (hmax.trans_eq (Nat.max_eq_right (Nat.zero_le _))) hleft
      exact .inr (.inr (congrArg Nat.succ hn))

/-- The replies on which the wrapper of the store goes on. -/
def Wrapper.retriable : Wrapper → Status → Bool
  | .getattr => Status.retriableGetattr
  | .setattr => Status.retriableSetattr
  | .mknod => Status.retriableMknod
  | .chdir => Status.retriableChdir
  | _ => Status.retriable

/-- They are those that are not final. -/
theorem Wrapper.retriable_iff (wrapper : Wrapper) (rc : Status) :
    wrapper.retriable rc = true ↔ rc ∉ wrapper.final := by
  cases wrapper <;>
    simp only [retriable, final, Status.retriable, Status.retriableGetattr, Status.retriableSetattr,
      Status.retriableMknod, Status.retriableChdir, decide_eq_true_eq, List.mem_cons, List.not_mem_nil, or_false,
      not_or, ne_eq]

section Store

variable {σ ρ : Type} (wrapper : Wrapper) (maxRetry : ℤ) (status : ρ → Status) (call : ℕ → σ → ρ × σ)

/-- The attempts on a store are those of the loop on the statuses of its replies. -/
theorem Wrapper.run_eq_retry (retriable : ρ → Bool)
    (hretriable : ∀ reply, retriable reply = true ↔ status reply ∉ wrapper.final) (s : σ) (tries : ℕ) :
    Attempts.run retriable call (maxRetry.toNat - tries) tries (Attempts.stateBefore call s tries) =
      Attempts.outcomeOf call s
        ((wrapper.retry maxRetry (fun i => status (Attempts.outcomeOf call s i).1) tries).calls - 1) := by
  induction tries using Wrapper.retry.induct wrapper maxRetry
    (fun i => status (Attempts.outcomeOf call s i).1) with
  | case1 tries rc hback ih =>
    obtain ⟨hrc, hleft⟩ := (wrapper.goesBack_iff _ _ _).mp hback
    have hretry : retriable (call tries (Attempts.stateBefore call s tries)).1 = true := (hretriable _).mpr hrc
    obtain ⟨left, hsucc⟩ : ∃ left, maxRetry.toNat - tries = left + 1 := ⟨maxRetry.toNat - tries - 1, by omega⟩
    have hrest : left = maxRetry.toNat - (tries + 1) := by omega
    rw [Wrapper.retry, if_pos hback, ← ih, hsucc, hrest]
    simp only [Attempts.run, hretry, if_true]
    rfl
  | case2 tries rc hback =>
    rw [Wrapper.retry, if_neg hback]
    rw [wrapper.goesBack_iff, not_and_or, not_not] at hback
    rcases hback with hfinal | hleft
    · refine Attempts.run_of_decisive retriable call _ _ _ (Bool.eq_false_iff.mpr fun hretry => ?_)
      exact (hretriable _).mp hretry hfinal
    · have hnone : maxRetry.toNat - tries = 0 := by omega
      rw [hnone]
      rfl

/-- A wrapper around a call that only reads returns what the last call of the loop returned. -/
theorem readTimeout_eq_timeout {α : Type} (call : ℕ → Status × α) :
    readTimeout maxRetry wrapper.retriable call =
      call ((wrapper.timeout maxRetry fun i => (call i).1).calls - 1) :=
  congrArg Prod.fst (wrapper.run_eq_retry maxRetry Prod.fst (fun i (_ : Unit) => (call i, ()))
    (fun reply => wrapper.retriable reply.1) (fun reply => wrapper.retriable_iff reply.1) () 0)

/-- A wrapper around a call that changes the store returns the reply to the last call of the loop, which was
made in the store that the earlier ones left. -/
theorem writeTimeout_eq_timeout (call : ℕ → Remote → Status × Remote) (r : Remote) :
    writeTimeout maxRetry wrapper.retriable call r =
      Attempts.outcomeOf call r ((wrapper.timeout maxRetry fun i => (Attempts.outcomeOf call r i).1).calls - 1) :=
  wrapper.run_eq_retry maxRetry id call wrapper.retriable wrapper.retriable_iff r 0

end Store

end Dropletfs
