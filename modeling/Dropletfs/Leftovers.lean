import Dropletfs.Removal

/-!
# What an unlink leaves behind

`dfs_unlink` looks after the table and the cache only when the last attempt on the store
reports success. An attempt can remove the object and report a failure, and the attempts after
it find no object. An object that never was on the store is not found either.
-/

namespace Dropletfs

/-- The store has no object for the path, while the table has an entry or the cache a file for it. -/
def World.Stranded (env : Env) (w : World) (path : CStr) : Prop :=
  w.remote.lookup path = none ∧
    ((w.table path).isSome ∨ (w.fs.resolve (cacheName env.conf path)).isSome)

/-- While the object is there, an attempt is made when all those before it ended in a way that is retried. -/
def Issued (replies : ℕ → Reply) (i : ℕ) : Prop := ∀ j < i, (replies j).status.retriable = true

/-- One of the attempts removes the object and reports a failure. -/
def ReplyLost (retries : ℕ) (replies : ℕ → Reply) : Prop :=
  ∃ i ≤ retries, Issued replies i ∧ (replies i).applied = true ∧ (replies i).status ≠ .success

/-- One of the attempts reports that it has removed the object. -/
def Acknowledged (retries : ℕ) (replies : ℕ → Reply) : Prop :=
  ∃ i ≤ retries, Issued replies i ∧ (replies i).status = .success

section Attempts

variable {replies : ℕ → Reply} {retries : ℕ} {path : CStr} {r : Remote}

/-- The first attempt is made. -/
theorem issued_zero (replies : ℕ → Reply) : Issued replies 0 := fun j hj => absurd hj (Nat.not_lt_zero j)

/-- The attempts after the first are made when it is retried. -/
theorem issued_succ (replies : ℕ → Reply) (i : ℕ) :
    Issued replies (i + 1) ↔ (replies 0).status.retriable = true ∧ Issued (fun j => replies (j + 1)) i := by
  constructor
  · intro h
    exact ⟨h 0 (Nat.succ_pos i), fun j hj => h (j + 1) (Nat.succ_lt_succ hj)⟩
  · rintro ⟨hfirst, hlater⟩ j hj
    cases j with
    | zero => exact hfirst
    | succ j => exact hlater j (Nat.lt_of_succ_lt_succ hj)

/-- Something happens at an attempt that is made exactly when it happens at the first one, or at one of the others
that are made after the first is retried. -/
theorem exists_issued_succ (p : Reply → Prop) :
    (∃ i ≤ retries + 1, Issued replies i ∧ p (replies i)) ↔
      p (replies 0) ∨ (replies 0).status.retriable = true ∧
        ∃ i ≤ retries, Issued (fun j => replies (j + 1)) i ∧ p (replies (i + 1)) := by
  constructor
  · rintro ⟨i, hi, hissued, hp⟩
    cases i with
    | zero => exact .inl hp
    | succ i =>
      obtain ⟨hfirst, hlater⟩ := (issued_succ replies i).mp hissued
      exact .inr ⟨hfirst, i, Nat.le_of_succ_le_succ hi, hlater, hp⟩
  · rintro (hp | ⟨hfirst, i, hi, hlater, hp⟩)
    · exact ⟨0, Nat.zero_le _, issued_zero replies, hp⟩
    · exact ⟨i + 1, Nat.succ_le_succ hi, (issued_succ replies i).mpr ⟨hfirst, hlater⟩, hp⟩

/-- With no retries, only the first attempt matters. -/
theorem exists_issued_zero (p : Reply → Prop) :
    (∃ i ≤ 0, Issued replies i ∧ p (replies i)) ↔ p (replies 0) := by
  constructor
  · rintro ⟨i, hi, -, hp⟩
    obtain rfl := Nat.le_zero.mp hi
    exact hp
  · exact fun hp => ⟨0, le_rfl, issued_zero replies, hp⟩

/-- The attempts to unlink a path. -/
def unlinkAttempts (replies : ℕ → Reply) (path : CStr) (retries : ℕ) (r : Remote) : Status × Remote :=
  Attempts.run Status.retriable (fun i => dplUnlink (replies i) path) retries 0 r

/-- An object that is not there is not removed, whatever the replies. -/
theorem unlinkAttempts_absent (replies : ℕ → Reply) (retries : ℕ) (h : r.lookup path = none) :
    (unlinkAttempts replies path retries r).1 ≠ .success ∧
      (unlinkAttempts replies path retries r).2.lookup path = none := by
  have hcall : ∀ i (r' : Remote), r'.lookup path = none → (dplUnlink (replies i) path r').2.lookup path = none := by
    intro i r' hr'
    unfold dplUnlink
    simp only
    split
    · exact AList.lookup_erase ..
    · exact hr'
  obtain ⟨i, r', hr', heq⟩ := Attempts.run_eq_last Status.retriable (fun i => dplUnlink (replies i) path)
    (fun r' : Remote => r'.lookup path = none) (fun i r' hr' _ => hcall i r' hr') retries 0 r h
  rw [unlinkAttempts, heq]
  refine ⟨fun hsuccess => ?_, hcall i r' hr'⟩
  have hfound := ((Status.onExisting_eq_success _ _).mp hsuccess).2
  rw [hr'] at hfound
  cases hfound

/-- The ways the attempts to unlink an object that is there can end: a reply is lost, the removal is acknowledged,
or the object stays. -/
inductive UnlinkedOrNot (replies : ℕ → Reply) (path : CStr) (retries : ℕ) : Status × Remote → Prop
  | lost {status : Status} {r : Remote} : ReplyLost retries replies → status ≠ .success →
      r.lookup path = none → UnlinkedOrNot replies path retries (status, r)
  | acknowledged {r : Remote} : ¬ ReplyLost retries replies → Acknowledged retries replies →
      r.lookup path = none → UnlinkedOrNot replies path retries (.success, r)
  | refused {status : Status} {r : Remote} : ¬ ReplyLost retries replies → ¬ Acknowledged retries replies →
      status ≠ .success → (r.lookup path).isSome → UnlinkedOrNot replies path retries (status, r)

/-- An attempt on an object that is there, when the others do not matter. -/
theorem UnlinkedOrNot.first (h : (r.lookup path).isSome)
    (hlost : ReplyLost retries replies ↔ (replies 0).applied = true ∧ (replies 0).status ≠ .success)
    (hacknowledged : Acknowledged retries replies ↔ (replies 0).status = .success) :
    UnlinkedOrNot replies path retries (dplUnlink (replies 0) path r) := by
  have hunlink : dplUnlink (replies 0) path r =
      ((replies 0).status, if (replies 0).applied then r.erase path else r) := by
    simp only [dplUnlink, h, Status.onExisting, Bool.true_eq_false, and_false, if_false]
  rw [hunlink]
  by_cases hsuccess : (replies 0).status = .success
  · have happlied := (replies 0).applied_of_success hsuccess
    rw [hsuccess, if_pos happlied]
    exact .acknowledged (fun h => (hlost.mp h).2 hsuccess) (hacknowledged.mpr hsuccess) (AList.lookup_erase ..)
  · by_cases happlied : (replies 0).applied = true
    · rw [if_pos happlied]
      exact .lost (hlost.mpr ⟨happlied, hsuccess⟩) hsuccess (AList.lookup_erase ..)
    · rw [if_neg happlied]
      exact .refused (fun h => happlied (hlost.mp h).1) (fun h => hsuccess (hacknowledged.mp h)) hsuccess h

/-- The attempts to unlink an object that is there end in one of these ways. -/
theorem unlinkAttempts_present (replies : ℕ → Reply) (retries : ℕ) (h : (r.lookup path).isSome) :
    UnlinkedOrNot replies path retries (unlinkAttempts replies path retries r) := by
  induction retries generalizing replies r with
  | zero =>
    have hlost : ReplyLost 0 replies ↔ (replies 0).applied = true ∧ (replies 0).status ≠ .success :=
      exists_issued_zero fun reply => reply.applied = true ∧ reply.status ≠ .success
    have hacknowledged : Acknowledged 0 replies ↔ (replies 0).status = .success :=
      exists_issued_zero fun reply => reply.status = .success
    simp only [unlinkAttempts, Attempts.run]
    exact .first h hlost hacknowledged
  | succ retries ih =>
    have hlost : ReplyLost (retries + 1) replies ↔
        (replies 0).applied = true ∧ (replies 0).status ≠ .success ∨
          (replies 0).status.retriable = true ∧ ReplyLost retries fun i => replies (i + 1) :=
      exists_issued_succ fun reply => reply.applied = true ∧ reply.status ≠ .success
    have hacknowledged : Acknowledged (retries + 1) replies ↔ (replies 0).status = .success ∨
        (replies 0).status.retriable = true ∧ Acknowledged retries fun i => replies (i + 1) :=
      exists_issued_succ fun reply => reply.status = .success
    have hstatus : (dplUnlink (replies 0) path r).1 = (replies 0).status := by
      simp only [dplUnlink, h, Status.onExisting, Bool.true_eq_false, and_false, if_false]
    by_cases hretried : (replies 0).status.retriable = true
    · have hfailed : (replies 0).status ≠ .success := by
        intro hsuccess
        rw [hsuccess] at hretried
        cases hretried
      have hrun : unlinkAttempts replies path (retries + 1) r =
          unlinkAttempts (fun i => replies (i + 1)) path retries (dplUnlink (replies 0) path r).2 := by
        simp only [unlinkAttempts, Attempts.run, hstatus, hretried, if_true]
        exact Attempts.run_shift ..
      rw [hrun]
      by_cases happlied : (replies 0).applied = true
      · have hgone : (dplUnlink (replies 0) path r).2.lookup path = none := by
          simp only [dplUnlink, happlied, if_true, AList.lookup_erase]
        obtain ⟨hnot, hnone⟩ := unlinkAttempts_absent (fun i => replies (i + 1)) retries hgone
        exact .lost (hlost.mpr (.inl ⟨happlied, hfailed⟩)) hnot hnone
      · have hsame : (dplUnlink (replies 0) path r).2 = r := by
          simp only [dplUnlink, happlied, Bool.false_eq_true, if_false]
        rw [hsame]
        have hlater := ih (fun i => replies (i + 1)) h
        simp only [happlied, Bool.false_eq_true, false_and, hretried, true_and, false_or] at hlost
        simp only [hfailed, hretried, true_and, false_or] at hacknowledged
        generalize unlinkAttempts (fun i => replies (i + 1)) path retries r = result at hlater ⊢
        cases hlater with
        | lost hl hnot hnone => exact .lost (hlost.mpr hl) hnot hnone
        | acknowledged hl ha hnone =>
          exact .acknowledged (fun h => hl (hlost.mp h)) (hacknowledged.mpr ha) hnone
        | refused hl ha hnot hsome =>
          exact .refused (fun h => hl (hlost.mp h)) (fun h => ha (hacknowledged.mp h)) hnot hsome
    · have hrun : unlinkAttempts replies path (retries + 1) r = dplUnlink (replies 0) path r := by
        simp only [unlinkAttempts, Attempts.run, hstatus, hretried, Bool.false_eq_true, if_false]
      rw [hrun]
      simp only [hretried, Bool.false_eq_true, false_and, or_false] at hlost hacknowledged
      exact .first h hlost hacknowledged

end Attempts

/-- After a successful removal the table has no entry for the path, and the cache no file unless its removal
failed. -/
theorem dfsUnlink_cleared {env : Env} {w : World} {path : CStr} {replies : UnlinkReplies}
    (hstatus : (dfsUnlinkTimeout env.conf.maxRetry replies.unlink path w.remote).1 = .success) :
    (dfsUnlink env w path replies).2.table path = none ∧
      (dfsUnlink env w path replies).2.fs.resolve (cacheName env.conf path) =
        if replies.unlinkCache then none else w.fs.resolve (cacheName env.conf path) := by
  have hresolve : (w.unlinked env path replies).fs.resolve (cacheName env.conf path) =
      if replies.unlinkCache then none else w.fs.resolve (cacheName env.conf path) := by
    simp only [World.unlinked, LocalFs.unlink, LocalFs.resolve]
    split
    · exact Function.update_self ..
    · rfl
  have houtcome := dfsUnlink_outcome env w path replies
  generalize dfsUnlink env w path replies = result at houtcome ⊢
  cases houtcome with
  | failed hfailed => exact absurd hstatus hfailed
  | absent _ htable => exact ⟨htable, hresolve⟩
  | destroyed _ _ hquiet =>
    refine ⟨by rw [hquiet.table]; exact World.remove_table_self .., ?_⟩
    rw [hquiet.fs, ← hresolve, LocalFs.resolve, LocalFs.resolve, (World.remove_fs ..).1]

/-- A removal that fails leaves the table and the cache as they were. -/
theorem dfsUnlink_kept {env : Env} {w : World} {path : CStr} {replies : UnlinkReplies}
    (hstatus : (dfsUnlinkTimeout env.conf.maxRetry replies.unlink path w.remote).1 ≠ .success) :
    (dfsUnlink env w path replies).2.table = w.table ∧ (dfsUnlink env w path replies).2.fs = w.fs := by
  have houtcome := dfsUnlink_outcome env w path replies
  generalize dfsUnlink env w path replies = result at houtcome ⊢
  cases houtcome with
  | failed => exact ⟨rfl, rfl⟩
  | absent hsuccess => exact absurd hsuccess hstatus
  | destroyed hsuccess => exact absurd hsuccess hstatus

/-- `dfs_unlink` never strands a path exactly when there was neither an entry nor a cache file for it, or the object
was there, no reply was lost, and an acknowledged removal removes the cache file as well. -/
theorem unlink_consistent_iff (env : Env) (w : World) (path : CStr) (replies : UnlinkReplies) :
    ¬ (dfsUnlink env w path replies).2.Stranded env path ↔
      (w.table path = none ∧ w.fs.resolve (cacheName env.conf path) = none) ∨
      ((w.remote.lookup path).isSome ∧ ¬ ReplyLost env.conf.maxRetry.toNat replies.unlink ∧
        (Acknowledged env.conf.maxRetry.toNat replies.unlink →
          replies.unlinkCache = true ∨ w.fs.resolve (cacheName env.conf path) = none)) := by
  have hattempts : dfsUnlinkTimeout env.conf.maxRetry replies.unlink path w.remote =
    unlinkAttempts replies.unlink path env.conf.maxRetry.toNat w.remote := rfl
  -- what is left when the object is gone and the removal was not acknowledged
  have hleft : (unlinkAttempts replies.unlink path env.conf.maxRetry.toNat w.remote).1 ≠ .success →
      (unlinkAttempts replies.unlink path env.conf.maxRetry.toNat w.remote).2.lookup path = none →
      (¬ (dfsUnlink env w path replies).2.Stranded env path ↔
        w.table path = none ∧ w.fs.resolve (cacheName env.conf path) = none) := by
    intro hstatus hgone
    obtain ⟨htable, hfs⟩ := dfsUnlink_kept (hattempts ▸ hstatus)
    rw [World.Stranded, dfsUnlink_remote, hattempts, htable, hfs]
    simp only [hgone, true_and, not_or, Option.not_isSome_iff_eq_none]
  by_cases hobj : (w.remote.lookup path).isSome = true
  · have hran := unlinkAttempts_present replies.unlink env.conf.maxRetry.toNat hobj
    generalize hresult : unlinkAttempts replies.unlink path env.conf.maxRetry.toNat w.remote = result at hran hleft
    cases hran with
    | lost hlost hstatus hgone =>
      simp only [hleft hstatus hgone, hlost, not_true_eq_false, false_and, and_false, or_false]
    | acknowledged hlost hacknowledged hgone =>
      have hstatus : (dfsUnlinkTimeout env.conf.maxRetry replies.unlink path w.remote).1 = .success := by
        rw [hattempts, hresult]
      obtain ⟨htable, hresolve⟩ := dfsUnlink_cleared hstatus
      rw [World.Stranded, dfsUnlink_remote, hattempts, hresult, htable, hresolve]
      simp only [hgone, true_and, Option.isSome_none, Bool.false_eq_true, false_or, hobj, hlost,
        not_false_eq_true, hacknowledged, true_imp_iff]
      cases replies.unlinkCache <;> simp
    | refused hlost hacknowledged hstatus hsome =>
      rw [World.Stranded, dfsUnlink_remote, hattempts, hresult]
      obtain ⟨obj, hthere⟩ := Option.isSome_iff_exists.mp hsome
      simp only [hthere, reduceCtorEq, false_and, not_false_eq_true, hobj, hlost, hacknowledged, false_imp_iff,
        and_self, or_true]
  · have habsent : w.remote.lookup path = none := by simpa using hobj
    obtain ⟨hstatus, hgone⟩ := unlinkAttempts_absent replies.unlink env.conf.maxRetry.toNat habsent
    rw [hleft hstatus hgone]
    simp only [hobj, Bool.false_eq_true, false_and, or_false]

/-- Default settings, but files that match an expression are excluded. -/
def Env.excluding (rx : CStr → Bool) : Env :=
  { Env.plain with conf := { Env.plain.conf with regex := ⟨true, rx⟩ } }

/-- A file that is excluded is only in the table and in the cache. Unlinking it finds no object, and leaves both. -/
theorem unlink_strands_excluded :
    ∃ s : Session, s.Reached (.excluding fun _ => true) GuardedRuns.unguarded ∧
      (dfsUnlink (.excluding fun _ => true) s.world "/f".toList ⟨fun _ => .granted, true, .reg⟩).2.Stranded
        (.excluding fun _ => true) "/f".toList :=
  ⟨_, .step (i := .create "/f".toList 0o100644#32 (oWronly ||| oCreat) (.granted 3))
    (.start (Session.start_initial .empty ∅)) trivial rfl, rfl, .inl rfl⟩

end Dropletfs
