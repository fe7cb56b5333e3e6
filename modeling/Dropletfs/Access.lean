import Dropletfs.Entry

/-!
# Reading and writing through a handle

Both calls use the descriptor of the entry the handle points to and an explicit offset.
-/

namespace Dropletfs

/-- `EBADFD`. -/
def ebadfd : ℤ := 77

/-- `EBADF`. -/
def ebadf : ℤ := 9

/-- Replies to the call of `dfs_read`. -/
structure ReadReplies where
  pread : Bool
  errno : ℕ
  errno_pos : 0 < errno

/-- `dfs_read`: the value returned, and what was put in the buffer. -/
def dfsRead (w : World) (addr size offset : ℕ) (replies : ReadReplies) : Exec (ℤ × Bytes) :=
  match w.heap addr with
  | none => .undefined
  | some pe =>
    if pe.fd < 0 then .done (-ebadfd, [])
    else
      match w.fs.pread pe.fd.toNat size offset replies.pread with
      | none => .done (-(replies.errno : ℤ), [])
      | some bytes => .done (bytes.length, bytes)

/-- Replies to the call of `dfs_write`. -/
structure WriteReplies where
  pwrite : Option ℕ
  errno : ℕ
  errno_pos : 0 < errno

/-- `dfs_write`: the value returned, which is positive for a descriptor that cannot be used. -/
def dfsWrite (w : World) (addr : ℕ) (data : Bytes) (offset : ℕ) (replies : WriteReplies) :
    Exec (ℤ × World) :=
  match w.heap addr with
  | none => .undefined
  | some pe =>
    if pe.fd < 0 then .done (ebadf, w)
    else
      match w.fs.pwrite pe.fd.toNat data offset replies.pwrite with
      | none => .done (-(replies.errno : ℤ), w)
      | some (count, fs) => .done (count, { w with fs := fs })

/-- A write changes the local files only. -/
theorem dfsWrite_frame {w w' : World} {addr : ℕ} {data : Bytes} {offset : ℕ} {replies : WriteReplies} {ret : ℤ}
    (h : dfsWrite w addr data offset replies = .done (ret, w')) : ∃ fs, w' = { w with fs := fs } := by
  unfold dfsWrite at h
  split at h
  · cases h
  · split at h
    · simp only [Exec.done.injEq, Prod.mk.injEq] at h
      exact ⟨w.fs, h.2.symm⟩
    · split at h
      · simp only [Exec.done.injEq, Prod.mk.injEq] at h
        exact ⟨w.fs, h.2.symm⟩
      · simp only [Exec.done.injEq, Prod.mk.injEq] at h
        exact ⟨_, h.2.symm⟩

end Dropletfs
