import Dropletfs.Access
import Dropletfs.EntryFrame
import Dropletfs.Links

/-!
# Failures that are reported

FUSE takes zero for a success, a positive value of a write for a number of bytes, and a negative
value for a failure. Each request maps the outcome of its calls to such a value by hand.
-/

namespace Dropletfs

/-- A request of one of the operations that forward to the store or write, with the replies to its calls. -/
inductive Forwarded where
  | mkdir (path : CStr) (replies : ℕ → Reply)
  | unlink (path : CStr) (replies : UnlinkReplies)
  | rmdir (path : CStr) (replies : RmdirReplies)
  | symlink (rootDir oldpath newpath : CStr) (replies : SymlinkReplies)
  | readlink (path : CStr) (bufsiz : ℕ) (getattr : ℕ → Status)
  | write (addr : ℕ) (data : Bytes) (offset : ℕ) (replies : WriteReplies)

/-- A value that FUSE takes for a failure, or zero where the calls on the store succeeded. -/
def Truthful (ret : ℤ) (succeeded : Prop) : Prop := ret < 0 ∨ ret = 0 ∧ succeeded

/-- The first bytes of the data, this many, are in the file of the handle from the offset on. -/
def World.Wrote (w w' : World) (addr : ℕ) (data : Bytes) (offset count : ℕ) : Prop :=
  ∃ pe file, w.heap addr = some pe ∧ 0 ≤ pe.fd ∧ w.fs.files pe.fd.toNat = some file ∧
    count ≤ data.length ∧ w'.fs = w.fs.setContent file.ino
      (Overlay.writeAt 0 (w.fs.inodes file.ino).content offset (data.take count))

/-- The request returns, and reports no success that it did not have. -/
def Reported (env : Env) (w : World) : Forwarded → Prop
  | .mkdir path replies =>
    Truthful (dfsMkdir env w path replies).1
      ((dfsMkdirTimeout env.conf.maxRetry replies path w.remote).1 = .success)
  | .unlink path replies =>
    Truthful (dfsUnlink env w path replies).1
      ((dfsUnlinkTimeout env.conf.maxRetry replies.unlink path w.remote).1 = .success)
  | .rmdir path replies =>
    Truthful (dfsRmdir env w path replies).1
      ((dfsRmdirTimeout env.conf.maxRetry replies.rmdir path w.remote).1 = .success)
  | .symlink rootDir oldpath newpath replies =>
    ∃ ret w', dfsSymlink env rootDir w oldpath newpath replies = .done (ret, w') ∧
      Truthful ret ((dfsMknodTimeout env.conf.maxRetry replies.mknod newpath w.remote).1 = .success ∧
        ∃ target, linkTarget rootDir oldpath = some target ∧
          (dfsSetattrTimeout env.conf.maxRetry replies.setattr newpath (symlinkMetadata target)
            (dfsMknodTimeout env.conf.maxRetry replies.mknod newpath w.remote).2).1 = .success)
  | .readlink path bufsiz getattr =>
    Truthful (dfsReadlink env w path bufsiz getattr).1 ((foundTarget env w path getattr).isSome = true)
  | .write addr data offset replies =>
    ∃ ret w', dfsWrite w addr data offset replies = .done (ret, w') ∧
      (ret < 0 ∨ ∃ count : ℕ, ret = count ∧ w.Wrote w' addr data offset count)

/-- The outcomes of the calls that each request reports. -/
def Reportable (env : Env) (w : World) : Forwarded → Prop
  | .mkdir path replies => (dfsMkdirTimeout env.conf.maxRetry replies path w.remote).1 ≠ .enoent
  | .unlink path replies => (dfsUnlinkTimeout env.conf.maxRetry replies.unlink path w.remote).1 = .success
  | .rmdir _ _ => True
  | .symlink rootDir oldpath newpath replies =>
    (dfsMknodTimeout env.conf.maxRetry replies.mknod newpath w.remote).1 = .success →
      (linkTarget rootDir oldpath).isSome = true
  | .readlink path _ getattr => (foundTarget env w path getattr).isSome = true
  | .write addr _ _ _ => ∃ pe, w.heap addr = some pe ∧ 0 ≤ pe.fd

/-- A value that is zero is truthful after a success only. -/
theorem truthful_zero (succeeded : Prop) : Truthful 0 succeeded ↔ succeeded := by
  simp only [Truthful, Int.lt_irrefl, false_or, true_and]

/-- A negative value always is. -/
theorem truthful_of_neg {ret : ℤ} (succeeded : Prop) (h : ret < 0) : Truthful ret succeeded := .inl h

section Requests

variable {env : Env} {w : World} {path : CStr}

/-- `dfs_mkdir` takes `DPL_ENOENT` for a success. -/
theorem mkdir_reported {replies : ℕ → Reply} :
    Reported env w (.mkdir path replies) ↔ Reportable env w (.mkdir path replies) := by
  simp only [Reported, Reportable, dfsMkdir]
  cases (dfsMkdirTimeout env.conf.maxRetry replies path w.remote).1 with
  | success => simp [Truthful]
  | enoent => simp [Truthful]
  | failure => simp [Truthful]
  | eisdir => simp [Truthful]
  | einval => simp [Truthful]
  | other code => simp [Truthful]

/-- `dfs_unlink` returns a positive value on failure. -/
theorem unlink_reported {replies : UnlinkReplies} :
    Reported env w (.unlink path replies) ↔ Reportable env w (.unlink path replies) := by
  have houtcome := dfsUnlink_outcome env w path replies
  simp only [Reported, Reportable]
  generalize dfsUnlink env w path replies = result at houtcome ⊢
  cases houtcome with
  | failed hfailed => simp [Truthful, hfailed]
  | absent hsuccess => simp [Truthful, hsuccess]
  | destroyed hsuccess => simp [Truthful, hsuccess]

/-- `dfs_rmdir` reports every failure. -/
theorem rmdir_reported {replies : RmdirReplies} :
    Reported env w (.rmdir path replies) ↔ Reportable env w (.rmdir path replies) := by
  simp only [Reported, Reportable, iff_true, dfsRmdir]
  have hneg : (-1 : ℤ) < 0 := by decide
  split
  · exact truthful_of_neg _ hneg
  · rename_i hsuccess
    have hsuccess' : (dfsRmdirTimeout env.conf.maxRetry replies.rmdir path w.remote).1 = .success := by
      simpa using hsuccess
    split
    · exact (truthful_zero _).mpr hsuccess'
    · exact (truthful_zero _).mpr hsuccess'

/-- `dfs_symlink` reports every failure, unless it reads a target beyond its end. -/
theorem symlink_reported {rootDir oldpath newpath : CStr} {replies : SymlinkReplies} :
    Reported env w (.symlink rootDir oldpath newpath replies) ↔
      Reportable env w (.symlink rootDir oldpath newpath replies) := by
  simp only [Reported, Reportable, dfsSymlink]
  by_cases hmknod : (dfsMknodTimeout env.conf.maxRetry replies.mknod newpath w.remote).1 = .success
  · simp only [hmknod, ne_eq, not_true_eq_false, if_false, true_imp_iff, true_and]
    cases htarget : linkTarget rootDir oldpath with
    | none => simp
    | some target =>
      simp only [Option.isSome_some, iff_true, World.log]
      split
      · exact ⟨-1, _, rfl, truthful_of_neg _ (by decide)⟩
      · split
        · exact ⟨-1, _, rfl, truthful_of_neg _ (by decide)⟩
        · split
          · exact ⟨-1, _, rfl, truthful_of_neg _ (by decide)⟩
          · by_cases hsetattr : (dfsSetattrTimeout env.conf.maxRetry replies.setattr newpath
                (symlinkMetadata target)
                (dfsMknodTimeout env.conf.maxRetry replies.mknod newpath w.remote).2).1 = .success
            · simp only [hsetattr, not_true_eq_false, if_false]
              exact ⟨0, _, rfl, (truthful_zero _).mpr ⟨target, rfl, hsetattr⟩⟩
            · simp only [hsetattr, not_false_eq_true, if_true]
              exact ⟨-1, _, rfl, truthful_of_neg _ (by decide)⟩
  · simp only [hmknod, ne_eq, not_false_eq_true, if_true, false_imp_iff, iff_true]
    exact ⟨_, _, rfl, truthful_of_neg _ (env.statusCode_neg _ hmknod)⟩

/-- `dfs_readlink` reports no failure. -/
theorem readlink_reported {bufsiz : ℕ} {getattr : ℕ → Status} :
    Reported env w (.readlink path bufsiz getattr) ↔ Reportable env w (.readlink path bufsiz getattr) := by
  have hzero : (dfsReadlink env w path bufsiz getattr).1 = 0 := by
    unfold dfsReadlink
    split
    · rfl
    · rfl
  simp only [Reported, Reportable, hzero, truthful_zero]

/-- A write that the kernel took in part stored that part. -/
theorem LocalFs.pwrite_taken {fs fs' : LocalFs} {fd offset count : ℕ} {data : Bytes} {reply : Option ℕ}
    (h : fs.pwrite fd data offset reply = some (count, fs')) :
    ∃ file, fs.files fd = some file ∧ count ≤ data.length ∧
      fs' = fs.setContent file.ino (Overlay.writeAt 0 (fs.inodes file.ino).content offset (data.take count)) := by
  unfold pwrite at h
  split at h
  · rename_i file most hfile
    simp only at h
    split at h
    · simp only [Option.some.injEq, Prod.mk.injEq] at h
      obtain ⟨rfl, rfl⟩ := h
      have htaken : data.take (data.take (min most maxTransfer)).length = data.take (min most maxTransfer) := by
        rw [List.length_take, ← List.take_take, List.take_length]
      exact ⟨file, hfile, List.length_take_le' .., by rw [htaken]⟩
    · cases h
  · cases h

/-- `dfs_write` reports every failure but that of a handle without a descriptor. -/
theorem write_reported {addr offset : ℕ} {data : Bytes} {replies : WriteReplies} :
    Reported env w (.write addr data offset replies) ↔ Reportable env w (.write addr data offset replies) := by
  simp only [Reported, Reportable]
  constructor
  · rintro ⟨ret, w', hwrite, hreported⟩
    unfold dfsWrite at hwrite
    split at hwrite
    · cases hwrite
    · rename_i pe hheap
      refine ⟨pe, hheap, ?_⟩
      by_contra hfd
      rw [if_pos (by omega)] at hwrite
      simp only [Exec.done.injEq, Prod.mk.injEq] at hwrite
      obtain ⟨rfl, rfl⟩ := hwrite
      rcases hreported with hneg | ⟨count, -, pe', file, hheap', hfd', -⟩
      · exact absurd hneg (by decide)
      · obtain rfl : pe' = pe := Option.some.inj (hheap'.symm.trans hheap)
        exact hfd hfd'
  · rintro ⟨pe, hheap, hfd⟩
    have hnonneg : ¬ pe.fd < 0 := by omega
    simp only [dfsWrite, hheap, hnonneg, if_false]
    cases hwrite : w.fs.pwrite pe.fd.toNat data offset replies.pwrite with
    | none =>
      have hneg : -(replies.errno : ℤ) < 0 := by
        have := replies.errno_pos
        omega
      exact ⟨_, _, rfl, .inl hneg⟩
    | some written =>
      obtain ⟨count, fs⟩ := written
      obtain ⟨file, hfile, hcount, hfs⟩ := LocalFs.pwrite_taken hwrite
      exact ⟨_, _, rfl, .inr ⟨count, rfl, pe, file, hheap, hfd, hfile, hcount, hfs⟩⟩

end Requests

/-- Each request reports its failures exactly in these cases. -/
theorem reported_iff (env : Env) (w : World) (request : Forwarded) :
    Reported env w request ↔ Reportable env w request := by
  cases request with
  | mkdir path replies => exact mkdir_reported
  | unlink path replies => exact unlink_reported
  | rmdir path replies => exact rmdir_reported
  | symlink rootDir oldpath newpath replies => exact symlink_reported
  | readlink path bufsiz getattr => exact readlink_reported
  | write addr data offset replies => exact write_reported

/-- Reading a link that is not there is a success, although nothing is put in the buffer. -/
theorem readlink_hides_failure :
    dfsReadlink .plain (.start .empty ∅) "/l".toList 4096 (fun _ => .enoent) = (0, none) ∧
      ¬ Reported .plain (.start .empty ∅) (.readlink "/l".toList 4096 fun _ => .enoent) := by
  have hnothing : foundTarget .plain (.start .empty ∅) "/l".toList (fun _ => .enoent) = none := rfl
  constructor
  · rw [dfsReadlink, hnothing]
  · rw [readlink_reported, Reportable, hnothing]
    decide

end Dropletfs
