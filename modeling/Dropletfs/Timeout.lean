import Dropletfs.Remote
import Dropletfs.Library.Attempts

/-!
# The retry wrappers

Every library call goes through a wrapper that repeats it up to `max_retry` times, except
on the replies that wrapper takes as final. The service's replies to the successive
attempts are a sequence given as an input. The delays between attempts are left out.
-/

namespace Dropletfs

/-- The replies on which all but a few wrappers try again. -/
def Status.retriable (status : Status) : Bool := status ≠ .success ∧ status ≠ .enoent

/-- `dpl_getattr` is not repeated for a directory. -/
def Status.retriableGetattr (status : Status) : Bool :=
  status ≠ .success ∧ status ≠ .eisdir ∧ status ≠ .enoent

/-- `dpl_mknod` is repeated on every failure. -/
def Status.retriableMknod (status : Status) : Bool := status ≠ .success

/-- `dpl_setattr` is repeated on every failure, except for a directory. -/
def Status.retriableSetattr (status : Status) : Bool := status ≠ .success ∧ status ≠ .eisdir

/-- `dpl_chdir` is repeated on every failure other than an invalid argument. -/
def Status.retriableChdir (status : Status) : Bool := status ≠ .success ∧ status ≠ .einval

/-- A wrapper around a call that only reads. -/
def readTimeout {α : Type} (maxRetry : ℤ) (retriable : Status → Bool) (call : ℕ → Status × α) : Status × α :=
  (Attempts.run (fun reply => retriable reply.1) (fun i (_ : Unit) => (call i, ())) maxRetry.toNat 0 ()).1

/-- A wrapper around a call that changes the store. -/
def writeTimeout (maxRetry : ℤ) (retriable : Status → Bool) (call : ℕ → Remote → Status × Remote)
    (r : Remote) : Status × Remote :=
  Attempts.run retriable call maxRetry.toNat 0 r

/-- `dfs_namei_timeout`. -/
def dfsNameiTimeout (maxRetry : ℤ) (replies : ℕ → Status) (path : CStr) (r : Remote) :
    Status × Option Ftype :=
  readTimeout maxRetry Status.retriable fun i => dplNamei (replies i) path r

/-- `dfs_getattr_timeout`. -/
def dfsGetattrTimeout (maxRetry : ℤ) (replies : ℕ → Status) (path : CStr) (r : Remote) :
    Status × Option Dict :=
  readTimeout maxRetry Status.retriableGetattr fun i => dplGetattr (replies i) path r

/-- `dfs_head_all_timeout`. -/
def dfsHeadAllTimeout (maxRetry : ℤ) (replies : ℕ → Status) (path : CStr) (r : Remote) :
    Status × Option Obj :=
  readTimeout maxRetry Status.retriable fun i => dplHeadAll (replies i) path r

/-- `dfs_chdir_timeout`. -/
def dfsChdirTimeout (maxRetry : ℤ) (replies : ℕ → Status) (path : CStr) (r : Remote) : Status :=
  (readTimeout maxRetry Status.retriableChdir fun i => (dplChdir (replies i) path r, ())).1

/-- `dfs_opendir_timeout`. -/
def dfsOpendirTimeout (maxRetry : ℤ) (replies : ℕ → Status) : Status :=
  (readTimeout maxRetry Status.retriable fun i => (replies i, ())).1

/-- `dfs_mknod_timeout`. -/
def dfsMknodTimeout (maxRetry : ℤ) (replies : ℕ → Reply) (path : CStr) (r : Remote) : Status × Remote :=
  writeTimeout maxRetry Status.retriableMknod (fun i => dplMknod (replies i) path) r

/-- `dfs_setattr_timeout`. -/
def dfsSetattrTimeout (maxRetry : ℤ) (replies : ℕ → Reply) (path : CStr) (dict : Dict) (r : Remote) :
    Status × Remote :=
  writeTimeout maxRetry Status.retriableSetattr (fun i => dplSetattr (replies i) path dict) r

/-- `dfs_mkdir_timeout`. -/
def dfsMkdirTimeout (maxRetry : ℤ) (replies : ℕ → Reply) (path : CStr) (r : Remote) : Status × Remote :=
  writeTimeout maxRetry Status.retriable (fun i => dplMkdir (replies i) path) r

/-- `dfs_unlink_timeout`. -/
def dfsUnlinkTimeout (maxRetry : ℤ) (replies : ℕ → Reply) (path : CStr) (r : Remote) : Status × Remote :=
  writeTimeout maxRetry Status.retriable (fun i => dplUnlink (replies i) path) r

/-- `dfs_rmdir_timeout`. -/
def dfsRmdirTimeout (maxRetry : ℤ) (replies : ℕ → Reply) (path : CStr) (r : Remote) : Status × Remote :=
  writeTimeout maxRetry Status.retriable (fun i => dplRmdir (replies i) path) r

/-- `dfs_fcopy_timeout`. -/
def dfsFcopyTimeout (maxRetry : ℤ) (replies : ℕ → Reply) (old new : CStr) (r : Remote) : Status × Remote :=
  writeTimeout maxRetry Status.retriable (fun i => dplFcopy (replies i) old new) r

/-- The outcome of a reading wrapper is the outcome of one of its attempts. -/
theorem readTimeout_eq_attempt {α : Type} (maxRetry : ℤ) (retriable : Status → Bool)
    (call : ℕ → Status × α) : ∃ i, readTimeout maxRetry retriable call = call i := by
  obtain ⟨i, _, -, h⟩ := Attempts.run_eq_last (fun reply : Status × α => retriable reply.1)
    (fun i (_ : Unit) => (call i, ())) (fun _ => True) (fun _ _ _ _ => trivial) maxRetry.toNat 0 () trivial
  exact ⟨i, congrArg Prod.fst h⟩

/-- The outcome of a writing wrapper is the outcome of one of its attempts. -/
theorem writeTimeout_eq_attempt {maxRetry : ℤ} {r : Remote} (retriable : Status → Bool)
    (call : ℕ → Remote → Status × Remote) :
    ∃ i r', writeTimeout maxRetry retriable call r = call i r' := by
  obtain ⟨i, r', -, h⟩ := Attempts.run_eq_last retriable call (fun _ => True) (fun _ _ _ _ => trivial)
    maxRetry.toNat 0 r trivial
  exact ⟨i, r', h⟩

/-- What every attempt preserves holds of the store after a writing wrapper. -/
theorem writeTimeout_preserves (maxRetry : ℤ) (retriable : Status → Bool)
    (call : ℕ → Remote → Status × Remote) (P : Remote → Prop) (hcall : ∀ i r, P r → P (call i r).2)
    (r : Remote) (hr : P r) : P (writeTimeout maxRetry retriable call r).2 :=
  Attempts.run_preserves retriable call P hcall maxRetry.toNat 0 r hr

/-- An object that every attempt leaves alone is left alone by a writing wrapper. -/
theorem writeTimeout_lookup (maxRetry : ℤ) (retriable : Status → Bool) (call : ℕ → Remote → Status × Remote)
    (path : CStr) (r : Remote) (hcall : ∀ i r', r'.lookup path = r.lookup path →
      (call i r').2.lookup path = r'.lookup path) :
    (writeTimeout maxRetry retriable call r).2.lookup path = r.lookup path :=
  writeTimeout_preserves maxRetry retriable call (fun r' => r'.lookup path = r.lookup path)
    (fun i r' hr' => (hcall i r' hr').trans hr') r rfl

/-- A successful lookup found an object, or the root, and gives its type. -/
theorem dfsNameiTimeout_success (maxRetry : ℤ) (replies : ℕ → Status) (path : CStr) (r : Remote)
    (h : (dfsNameiTimeout maxRetry replies path r).1 = .success) :
    (dfsNameiTimeout maxRetry replies path r).2 = r.ftype path ∧ (r.ftype path).isSome = true := by
  unfold dfsNameiTimeout at h ⊢
  obtain ⟨i, hi⟩ := readTimeout_eq_attempt maxRetry Status.retriable fun i => dplNamei (replies i) path r
  rw [hi] at h ⊢
  exact ⟨by simp only [dplNamei] at h ⊢; rw [if_pos h],
    ((Status.onExisting_eq_success _ _).mp h).2⟩

/-- Copying leaves the objects under the other paths alone. -/
theorem dfsFcopyTimeout_lookup_ne (maxRetry : ℤ) (replies : ℕ → Reply) (old new path : CStr) (r : Remote)
    (h : path ≠ new) :
    (dfsFcopyTimeout maxRetry replies old new r).2.lookup path = r.lookup path :=
  writeTimeout_lookup maxRetry Status.retriable _ path r fun _ r' _ => dplFcopy_lookup_ne _ _ _ _ r' h

/-- Unlinking leaves the objects under the other paths alone. -/
theorem dfsUnlinkTimeout_lookup_ne (maxRetry : ℤ) (replies : ℕ → Reply) (path other : CStr) (r : Remote)
    (h : other ≠ path) :
    (dfsUnlinkTimeout maxRetry replies path r).2.lookup other = r.lookup other :=
  writeTimeout_lookup maxRetry Status.retriable _ other r fun _ r' _ => dplUnlink_lookup_ne _ _ _ r' h

end Dropletfs
