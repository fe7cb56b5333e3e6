import Dropletfs.Entry

/-!
# Making and removing objects

`dfs_mkdir` and `dfs_mknod` only forward to the store. `dfs_unlink` and `dfs_rmdir` also
look after the table: the one destroys the entry of the path and takes the path out of its
parent's list, the other takes the path out of the list of its own entry.
-/

namespace Dropletfs

/-- `dfs_mkdir`, for which `DPL_ENOENT` is no failure. -/
def dfsMkdir (env : Env) (w : World) (path : CStr) (replies : ℕ → Reply) : ℤ × World :=
  let (status, r) := dfsMkdirTimeout env.conf.maxRetry replies path w.remote
  let w := { w with remote := r }.log (.mkdir path)
  (if status ≠ .success ∧ status ≠ .enoent then -1 else 0, w)

/-- `dfs_mknod`. -/
def dfsMknod (env : Env) (w : World) (path : CStr) (replies : ℕ → Reply) : ℤ × World :=
  let (status, r) := dfsMknodTimeout env.conf.maxRetry replies path w.remote
  let w := { w with remote := r }.log (.mknod path)
  (if status ≠ .success then -1 else 0, w)

/-- Replies to the calls of `dfs_unlink`; `junkType` is what the uninitialised file type of the
parent's entry holds. -/
structure UnlinkReplies where
  unlink : ℕ → Reply
  unlinkCache : Bool
  junkType : Filetype

/-- Remove a path from the entry of a directory, if the table has one. -/
def World.removeDirentOf (w : World) (dir : Option CStr) (path : CStr) (junk : Filetype) : World :=
  match dir.bind w.table with
  | none => w
  | some addr => w.modify addr fun pe => pe.removeDirent path junk

/-- `dfs_unlink`. -/
def dfsUnlink (env : Env) (w : World) (path : CStr) (replies : UnlinkReplies) : ℤ × World :=
  let (status, r) := dfsUnlinkTimeout env.conf.maxRetry replies.unlink path w.remote
  let w := { w with remote := r }.log (.unlink path)
  if status ≠ .success then (1, w)
  else
    let w := { w with fs := w.fs.unlink (cacheName env.conf path) replies.unlinkCache }
    match w.table path with
    | none => (0, w)
    | some _ => (0, (w.remove path).removeDirentOf (parentName path) path replies.junkType)

/-- Replies to the calls of `dfs_rmdir`. -/
structure RmdirReplies where
  rmdir : ℕ → Reply
  junkType : Filetype

/-- `dfs_rmdir`, which removes the path from the entry of that same path. -/
def dfsRmdir (env : Env) (w : World) (path : CStr) (replies : RmdirReplies) : ℤ × World :=
  let (status, r) := dfsRmdirTimeout env.conf.maxRetry replies.rmdir path w.remote
  let w := { w with remote := r }.log (.rmdir path)
  if status ≠ .success then (-1, w)
  else
    match w.table path with
    | none => (0, w)
    | some _ => (0, w.removeDirentOf (some path) path replies.junkType)

end Dropletfs
