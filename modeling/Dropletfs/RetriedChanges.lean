import Dropletfs.Timeout

/-!
# Changes that are retried

A reply that is lost is retried on although the call was carried out, so a wrapper may carry
out the same call several times. When a call that is carried out twice leaves what it leaves once,
the store is in the end as it was, or as one call leaves it, whatever is lost, and after a
success it is the latter. The calls as they are modelled here are of that kind.
-/

namespace Dropletfs

/-- The calls that change the store. -/
inductive StoreChange where
  | mknod (path : CStr)
  | setattr (path : CStr) (dict : Dict)
  | mkdir (path : CStr)
  | unlink (path : CStr)
  | rmdir (path : CStr)
  | fcopy (old new : CStr)

namespace StoreChange

/-- One attempt. -/
def call (reply : Reply) : StoreChange → Remote → Status × Remote
  | mknod path => dplMknod reply path
  | setattr path dict => dplSetattr reply path dict
  | mkdir path => dplMkdir reply path
  | unlink path => dplUnlink reply path
  | rmdir path => dplRmdir reply path
  | fcopy old new => dplFcopy reply old new

/-- The call with its wrapper. -/
def retried (maxRetry : ℤ) (replies : ℕ → Reply) : StoreChange → Remote → Status × Remote
  | mknod path => dfsMknodTimeout maxRetry replies path
  | setattr path dict => dfsSetattrTimeout maxRetry replies path dict
  | mkdir path => dfsMkdirTimeout maxRetry replies path
  | unlink path => dfsUnlinkTimeout maxRetry replies path
  | rmdir path => dfsRmdirTimeout maxRetry replies path
  | fcopy old new => dfsFcopyTimeout maxRetry replies old new

/-- The replies that the wrapper retries on. -/
def retriable : StoreChange → Status → Bool
  | mknod _ => Status.retriableMknod
  | setattr _ _ => Status.retriableSetattr
  | _ => Status.retriable

/-- What the call does to the store when it is carried out. -/
def apply (change : StoreChange) (r : Remote) : Remote := (change.call .granted r).2

/-- A service that takes the calls: what an attempt replies and leaves. -/
abbrev Service (σ : Type*) := Reply → StoreChange → σ → Status × σ

/-- What a wrapper relies on when it issues a call again: an attempt carries the call out or leaves the store alone, it
has carried it out when it reports a success, and a call that is carried out twice is carried out once. -/
structure Service.Repeatable {σ : Type*} (service : Service σ) (apply : StoreChange → σ → σ) : Prop where
  kept_or_made : ∀ reply change r, (service reply change r).2 = r ∨ (service reply change r).2 = apply change r
  made : ∀ reply change r, (service reply change r).1 = .success → (service reply change r).2 = apply change r
  again : ∀ change r, apply change (apply change r) = apply change r

/-- The call with its wrapper, on any service. -/
def Service.retried {σ : Type*} (service : Service σ) (maxRetry : ℤ) (replies : ℕ → Reply) (change : StoreChange) :
    σ → Status × σ :=
  Attempts.run change.retriable (fun i => service (replies i) change) maxRetry.toNat 0

/-- An object that is stored twice is stored once. -/
theorem insert_again (r : Remote) (path : CStr) (obj : Obj) :
    (r.insert path obj : Remote).insert path obj = r.insert path obj := AList.insert_insert r

/-- A path that is removed twice is removed once. -/
theorem erase_again (r : Remote) (path : CStr) : (r.erase path : Remote).erase path = r.erase path := by
  apply AList.ext
  exact List.kerase_of_notMem_keys fun hmem => (AList.mem_erase.mp hmem).1 rfl

/-- An attempt carries the call out or leaves the store alone. -/
theorem call_snd (change : StoreChange) (reply : Reply) (r : Remote) :
    (change.call reply r).2 = if reply.applied then change.apply r else r := by
  cases change with
  | mknod path => rfl
  | setattr path dict =>
    simp only [apply, call, dplSetattr]
    cases r.lookup path with
    | none => exact (ite_self r).symm
    | some obj => rfl
  | mkdir path =>
    simp only [apply, call, dplMkdir, Reply.granted, true_and]
    by_cases happlied : reply.applied = true
    · simp only [happlied, true_and, if_true]
    · simp only [happlied]
      rfl
  | unlink path => rfl
  | rmdir path =>
    simp only [apply, call, dplRmdir]
    split
    · rfl
    · exact (ite_self r).symm
  | fcopy old new =>
    simp only [apply, call, dplFcopy]
    cases r.lookup old with
    | none => exact (ite_self r).symm
    | some obj => rfl

/-- A call that reports success was carried out. -/
theorem applied_of_success (change : StoreChange) (reply : Reply) (r : Remote)
    (h : (change.call reply r).1 = .success) : reply.applied = true := by
  refine reply.applied_of_success ?_
  cases change with
  | mknod path => exact h
  | setattr path dict =>
    simp only [call, dplSetattr] at h
    split at h
    · exact ((Status.onExisting_eq_success _ _).mp h).1
    · exact h
  | mkdir path => exact h
  | unlink path => exact ((Status.onExisting_eq_success _ _).mp h).1
  | rmdir path =>
    simp only [call, dplRmdir] at h
    split at h
    · exact ((Status.onExisting_eq_success _ _).mp h).1
    · split at h
      · cases h
      · contradiction
  | fcopy old new =>
    simp only [call, dplFcopy] at h
    split at h
    · exact ((Status.onExisting_eq_success _ _).mp h).1
    · exact h

/-- A call that is carried out twice is carried out once. -/
theorem apply_again (change : StoreChange) (r : Remote) : change.apply (change.apply r) = change.apply r := by
  cases change with
  | mknod path => exact insert_again r path _
  | setattr path dict =>
    simp only [apply, call, dplSetattr]
    cases hobj : r.lookup path with
    | none => simp only [hobj]
    | some obj =>
      simp only [Reply.granted, if_true, AList.lookup_insert]
      exact insert_again r path _
  | mkdir path =>
    simp only [apply, call, dplMkdir, Reply.granted, true_and]
    cases hobj : r.lookup path with
    | none => simp only [Option.isNone_none, if_true, AList.lookup_insert, Option.isNone_some, Bool.false_eq_true,
        if_false]
    | some obj => simp only [Option.isNone_some, Bool.false_eq_true, if_false, hobj]
  | unlink path => exact erase_again r path
  | rmdir path =>
    simp only [apply, call, dplRmdir, Reply.granted]
    by_cases hdir : (r.lookup path).map Obj.ftype = some .dir
    · simp only [hdir, if_true, AList.lookup_erase, Option.map_none, reduceCtorEq, if_false]
    · simp only [hdir, if_false]
  | fcopy old new =>
    simp only [apply, call, dplFcopy]
    cases hobj : r.lookup old with
    | none => simp only [hobj]
    | some obj =>
      simp only [Reply.granted, if_true]
      have hsource : (r.insert new obj : Remote).lookup old = some obj := by
        by_cases hself : old = new
        · rw [hself, AList.lookup_insert]
        · rw [AList.lookup_insert_ne hself, hobj]
      rw [hsource]
      exact insert_again r new obj

/-- The calls of this store can be repeated. -/
theorem call_repeatable : Service.Repeatable call apply where
  kept_or_made reply change r := by
    rw [call_snd]
    split
    · exact .inr rfl
    · exact .inl rfl
  made reply change r hsuccess := by rw [call_snd, if_pos (change.applied_of_success _ _ hsuccess)]
  again := apply_again

/-- Each wrapper repeats its call. -/
theorem retried_eq (change : StoreChange) (maxRetry : ℤ) (replies : ℕ → Reply) :
    Service.retried call maxRetry replies change = change.retried maxRetry replies := by
  cases change <;> rfl

section Service

variable {σ : Type*} {service : Service σ} {apply : StoreChange → σ → σ}

/-- The attempts of a wrapper make its change once or not at all, and have made it after a success. -/
theorem Service.Repeatable.retried (h : service.Repeatable apply) (maxRetry : ℤ) (replies : ℕ → Reply)
    (change : StoreChange) (r : σ) :
    ((service.retried maxRetry replies change r).2 = r ∨
        (service.retried maxRetry replies change r).2 = apply change r) ∧
      ((service.retried maxRetry replies change r).1 = .success →
        (service.retried maxRetry replies change r).2 = apply change r) := by
  have hcall : ∀ i s, (service (replies i) change s).2 = s ∨ (service (replies i) change s).2 = apply change s :=
    fun i s => h.kept_or_made (replies i) change s
  refine ⟨Attempts.run_once (h.again change) hcall _ _ r, fun hsuccess => ?_⟩
  exact Attempts.run_made (· = Status.success) (h.again change) hcall (fun i s => h.made (replies i) change s) _ _ r
    hsuccess

/-- On a service whose calls can be repeated, the attempts of a wrapper make its change once or not at all, whichever
of them are carried out and whichever replies are lost, and a wrapper that returns success has made it. -/
theorem retried_once (service : Service σ) (apply : StoreChange → σ → σ) (h : service.Repeatable apply)
    (change : StoreChange) (maxRetry : ℤ) (replies : ℕ → Reply) (r : σ) :
    ((service.retried maxRetry replies change r).2 = r ∨
        (service.retried maxRetry replies change r).2 = apply change r) ∧
      ((service.retried maxRetry replies change r).1 = .success →
        (service.retried maxRetry replies change r).2 = apply change r) :=
  h.retried maxRetry replies change r

end Service

/-- A directory is made, the reply is lost, and the second attempt finds it there. -/
theorem retried_once_lost : ∃ replies : ℕ → Reply,
    (replies 0).status = .failure ∧ (replies 0).applied = true ∧ (replies 1).applied = true ∧
      (dfsMkdirTimeout 1 replies "/d".toList ∅).2 = (mkdir "/d".toList).apply ∅ := by
  refine ⟨fun i => if i = 0 then ⟨.failure, true, fun _ => rfl⟩ else .granted, rfl, rfl, rfl, ?_⟩
  exact (retried_once call apply call_repeatable (mkdir "/d".toList) 1 _ ∅).2 rfl

/-- The wrappers make their changes to this store once or not at all, and have made them after a success. -/
theorem stored_once (change : StoreChange) (maxRetry : ℤ) (replies : ℕ → Reply) (r : Remote) :
    ((change.retried maxRetry replies r).2 = r ∨ (change.retried maxRetry replies r).2 = change.apply r) ∧
      ((change.retried maxRetry replies r).1 = .success →
        (change.retried maxRetry replies r).2 = change.apply r) := by
  rw [← retried_eq]
  exact call_repeatable.retried maxRetry replies change r

end StoreChange

end Dropletfs
