import Dropletfs.Entry

/-!
# Looking a path up

`dfs_getattr` answers from the root, from the cached file, from cached metadata, or from
the store, whose answer it caches. `dfs_opendir` only makes sure that the directory exists
and has an entry.
-/

namespace Dropletfs

/-- Replies to the calls of `dfs_getattr`, and the clock it reads. -/
structure GetattrReplies where
  alloc : Bool
  pathDup : Bool
  keyDup : Bool
  namei : ℕ → Status
  getattr : ℕ → Status
  now : ℤ
  mdLock : Bool
  mdUnlock : Bool
  setMetadata : MetadataReplies
  addDirent : Bool
  fstat : Option FileTimes

/-- Every call of a lookup succeeds. -/
def GetattrReplies.granted : GetattrReplies where
  alloc := true
  pathDup := true
  keyDup := true
  namei _ := .success
  getattr _ := .success
  now := 0
  mdLock := true
  mdUnlock := true
  setMetadata := ⟨true, .success⟩
  addDirent := true
  fstat := some ⟨0, 0, 0⟩

/-- What a lookup returns, the record it fills, and what it leaves. -/
structure Lookup where
  ret : ℤ
  st : Stat
  world : World

/-- `set_default_stat`. -/
def setDefaultStat (proc : Process) (now : ℤ) (st : Stat) (type : Ftype) : Stat :=
  let mode := match type with
    | .dir => st.mode ||| (sIfdir ||| sIrusr ||| sIxusr)
    | .reg => st.mode ||| (sIfreg ||| sIrusr ||| sIwusr)
    | .other => 0
  { st with
    mode := mode
    uid := proc.uid
    gid := proc.gid
    atime := now
    mtime := now
    ctime := now
    size := 0 }

/-- `set_filetype_from_stat`, whose tests use `|`. -/
def Pentry.setFiletypeFromStat (pe : Pentry) (st : Stat) : Pentry :=
  if st.mode ||| sIfreg ≠ 0 then { pe with filetype := some .reg }
  else if st.mode ||| sIfdir ≠ 0 then { pe with filetype := some .dir }
  else if st.mode ||| sIflnk ≠ 0 then { pe with filetype := some .symlink }
  else pe

/-- `hash_fill_dirent`: add the path to the entry of its parent directory, if the table has one. -/
def World.fillDirent (w : World) (path : CStr) (reply : Bool) : World :=
  match (parentName path).bind w.table with
  | none => w
  | some addr => w.modify addr fun pe => pe.addDirent path reply

/-- The `symlink` key adds the type bits of a symbolic link. -/
def symlinkBit (st : Stat) (dict : Dict) : Stat :=
  if (dict "symlink".toList).isSome then { st with mode := st.mode ||| sIflnk } else st

/-- `getattr_remote`. -/
def getattrRemote (w : World) (addr : ℕ) (pe : Pentry) (st : Stat) (replies : GetattrReplies) : Exec Lookup :=
  if replies.mdLock = false then .done ⟨-1, st, w⟩
  else if pe.mdLocked then .blocked
  else
    let st := match pe.metadata with
      | none => st
      | some dict => symlinkBit (fillStatFromMetadata st dict) dict
    if replies.mdUnlock = false then .done ⟨-1, st, w.put addr { pe with mdLocked := true }⟩
    else .done ⟨0, st, w⟩

/-- `getattr_local`. -/
def getattrLocal (w : World) (pe : Pentry) (st : Stat) (replies : GetattrReplies) : Exec Lookup :=
  if pe.fd < 0 then .done ⟨-1, st, w⟩
  else
    match w.fs.fstat pe.fd replies.fstat with
    | none => .done ⟨-1, st, w⟩
    | some st => .done ⟨0, st, w⟩

/-- `getattr_unset` once the attributes have been fetched and stored. -/
def getattrSettled (w : World) (addr : ℕ) (pe : Pentry) (path : CStr) (st : Stat) (replies : GetattrReplies) :
    Lookup :=
  ⟨0, st, (w.put addr (pe.setFiletypeFromStat st)).fillDirent path replies.addDirent⟩

/-- `getattr_unset`. -/
def getattrUnset (env : Env) (w : World) (addr : ℕ) (pe : Pentry) (path : CStr) (st : Stat)
    (replies : GetattrReplies) : Exec Lookup :=
  match dfsNameiTimeout env.conf.maxRetry replies.namei path w.remote with
  | (.success, some type) =>
    let (status, metadata) := dfsGetattrTimeout env.conf.maxRetry replies.getattr path w.remote
    if status ≠ .success ∧ status ≠ .eisdir then .done ⟨-1, st, w⟩
    else
      let st := setDefaultStat env.proc replies.now st type
      match metadata with
      | none => .done (getattrSettled w addr pe path st replies)
      | some dict =>
        let st := fillStatFromMetadata (symlinkBit st dict) dict
        if replies.mdLock = false then .done ⟨-1, st, w⟩
        else if pe.mdLocked then .blocked
        else
          let pe := (pe.setMetadata dict replies.setMetadata).2
          if replies.mdUnlock = false then .done ⟨-1, st, w.put addr { pe with mdLocked := true }⟩
          else .done (getattrSettled w addr { pe with ondisk := .remote } path st replies)
  | (status, _) => .done ⟨env.statusCode status, st, w⟩

/-- The table of functions by placeholder in `dfs_getattr`. -/
def getattrByPlaceholder (env : Env) (w : World) (addr : ℕ) (pe : Pentry) (path : CStr) (st : Stat)
    (replies : GetattrReplies) : Exec Lookup :=
  match pe.ondisk with
  | .remote => getattrRemote w addr pe st replies
  | .localFile => getattrLocal w pe st replies
  | .unset => getattrUnset env w addr pe path st replies

/-- `dfs_getattr` on the entry of the path. -/
def getattrEntry (env : Env) (w : World) (addr : ℕ) (pe : Pentry) (path : CStr) (replies : GetattrReplies) :
    Exec Lookup := do
  let looked ← getattrByPlaceholder env w addr pe path { Stat.zero with nlink := 1 } replies
  return { looked with world := looked.world.modify addr fun pe => { pe with atime := some replies.now } }

/-- `dfs_getattr`. -/
def dfsGetattr (env : Env) (w : World) (path : CStr) (replies : GetattrReplies) : Exec Lookup :=
  let st := { Stat.zero with nlink := 1 }
  if path = "/".toList then .done ⟨0, { st with mode := sIfdir }, w⟩
  else
    match w.table path with
    | some addr =>
      match w.heap addr with
      | none => .undefined
      | some pe => getattrEntry env w addr pe path replies
    | none =>
      if replies.alloc = false ∨ replies.keyDup = false then .done ⟨-1, st, w⟩
      else
        let pe := { pentryNew with path := if replies.pathDup then some path else none }
        let (addr, w) := w.insert path pe
        getattrEntry env w addr pe path replies

/-- Replies to the calls of `dfs_opendir`. -/
structure OpendirReplies where
  opendir : ℕ → Status
  alloc : Bool
  pathDup : Bool
  keyDup : Bool

/-- `dfs_opendir`. -/
def dfsOpendir (env : Env) (w : World) (path : CStr) (replies : OpendirReplies) : ℤ × World :=
  let status := dfsOpendirTimeout env.conf.maxRetry replies.opendir
  if status ≠ .success then (env.statusCode status, w)
  else
    match w.table path with
    | some _ => (0, w)
    | none =>
      if replies.alloc = false ∨ replies.keyDup = false then (-1, w)
      else
        let path' := if replies.pathDup then some path else none
        (0, (w.insert path { pentryNew with path := path', filetype := some .dir }).2)

end Dropletfs
