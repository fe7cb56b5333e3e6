import Dropletfs.Open

/-!
# Creating a file

`dfs_create` looks the path up, opens it through `dfs_open` without looking at what that
returned, stores fresh metadata in the entry, and creates an empty object unless the path
is excluded.
-/

namespace Dropletfs

/-- Replies to the calls of `dfs_create`. -/
structure CreateReplies where
  namei : ℕ → Status
  opening : OpenReplies
  fstat : Option FileTimes
  errno : ℕ
  errno_pos : 0 < errno
  fchmod : Bool
  newDict : Bool
  setMetadata : MetadataReplies
  mknod : ℕ → Reply

/-- Every call succeeds, and descriptors from this one on are free. -/
def CreateReplies.granted (fd : ℕ) : CreateReplies where
  namei _ := .success
  opening := .granted fd
  fstat := some ⟨0, 0, 0⟩
  errno := 1
  errno_pos := Nat.one_pos
  fchmod := true
  newDict := true
  setMetadata := ⟨true, .success⟩
  mknod _ := .granted

/-- The metadata of a new file: the attributes of its cache file, but the requested mode. -/
def newFileMetadata (st : Stat) (mode : BitVec 32) : Dict :=
  assignMetaToDict (fillMetadataFromStat Dict.new st) "mode".toList mode.toNat

/-- `dfs_create` once the cache file has been examined. -/
def createObject (env : Env) (w : World) (addr : ℕ) (pe : Pentry) (path : CStr) (mode : BitVec 32)
    (st : Stat) (exclude : Bool) (replies : CreateReplies) : Exec Opened :=
  let w := { w with fs := w.fs.fchmod pe.fd.toNat mode replies.fchmod }
  -- `pentry_set_metadata` frees the dictionary of the entry and then copies its argument, which
  -- is that same dictionary when the entry had one
  if pe.metadata.isSome ∨ replies.newDict = false then .undefined
  else
    let w := w.put addr (pe.setMetadata (newFileMetadata st mode) replies.setMetadata).2
    if exclude then .done ⟨0, some addr, w⟩
    else
      let (status, r) := dfsMknodTimeout env.conf.maxRetry replies.mknod path w.remote
      let w := { w with remote := r }.log (.mknod path)
      .done ⟨if status = .success then 0 else -1, some addr, w⟩

/-- `dfs_create` once `dfs_open` has left an entry in `info->fh`. -/
def createEntry (env : Env) (w : World) (addr : ℕ) (pe : Pentry) (path : CStr) (mode : BitVec 32)
    (exclude : Bool) (replies : CreateReplies) : Exec Opened :=
  let pe := { pe with exclude := exclude }
  let w := w.put addr pe
  if pe.fd = -1 then .done ⟨-1, some addr, w⟩
  else
    match w.fs.fstat pe.fd replies.fstat with
    | none => .done ⟨-(replies.errno : ℤ), some addr, w⟩
    | some st => createObject env w addr pe path mode st exclude replies

/-- `dfs_create` after the checks: open the path, whatever that returns. -/
def createOpened (env : Env) (w : World) (path : CStr) (mode flags : BitVec 32) (exclude : Bool)
    (replies : CreateReplies) : Exec Opened := do
  let opened ← dfsOpen env w path flags replies.opening
  match opened.fh with
  | none => return ⟨-1, none, opened.world⟩
  | some addr =>
    match opened.world.heap addr with
    | none => .undefined
    | some pe => createEntry env opened.world addr pe path mode exclude replies

/-- `dfs_create`. -/
def dfsCreate (env : Env) (w : World) (path : CStr) (mode flags : BitVec 32) (replies : CreateReplies) :
    Exec Opened :=
  if sIsreg mode = false then .done ⟨-1, none, w⟩
  else
    let exclude := reMatcher env.conf.regex path
    if exclude then createOpened env w path mode flags exclude replies
    else
      let status := (dfsNameiTimeout env.conf.maxRetry replies.namei path w.remote).1
      if status ≠ .success ∧ status ≠ .enoent then .done ⟨-1, none, w⟩
      else createOpened env w path mode flags exclude replies

/-- `dfs_create` fails before it opens the path. -/
def CreateRefused (env : Env) (w : World) (path : CStr) (mode : BitVec 32) (replies : CreateReplies) : Prop :=
  sIsreg mode = false ∨ (reMatcher env.conf.regex path = false ∧
    (dfsNameiTimeout env.conf.maxRetry replies.namei path w.remote).1 ≠ .success ∧
    (dfsNameiTimeout env.conf.maxRetry replies.namei path w.remote).1 ≠ .enoent)

/-- The ways `dfs_create` can return: before opening the path, or after `dfs_open` has left no entry
or an entry in `info->fh`. -/
inductive CreateOutcome (env : Env) (w : World) (path : CStr) (mode flags : BitVec 32)
    (replies : CreateReplies) : Opened → Prop
  | refused : CreateRefused env w path mode replies →
      CreateOutcome env w path mode flags replies ⟨-1, none, w⟩
  | noEntry {opened : Opened} : ¬ CreateRefused env w path mode replies →
      dfsOpen env w path flags replies.opening = .done opened → opened.fh = none →
      CreateOutcome env w path mode flags replies ⟨-1, none, opened.world⟩
  | entry {opened created : Opened} {addr : ℕ} {pe : Pentry} : ¬ CreateRefused env w path mode replies →
      dfsOpen env w path flags replies.opening = .done opened →
      opened.fh = some addr → opened.world.heap addr = some pe →
      createEntry env opened.world addr pe path mode (reMatcher env.conf.regex path) replies =
        .done created →
      CreateOutcome env w path mode flags replies created

/-- `dfs_create` returns in one of these ways. -/
theorem dfsCreate_outcome {env : Env} {w : World} {path : CStr} {mode flags : BitVec 32}
    {replies : CreateReplies} {created : Opened}
    (h : dfsCreate env w path mode flags replies = .done created) :
    CreateOutcome env w path mode flags replies created := by
  by_cases hrefused : CreateRefused env w path mode replies
  · have hcreated : created = ⟨-1, none, w⟩ := by
      unfold dfsCreate at h
      rcases hrefused with hreg | ⟨hexclude, hstatus⟩
      · rw [if_pos hreg] at h
        exact (Exec.done.inj h).symm
      · simp only [hexclude, hstatus, ne_eq, not_false_eq_true, and_self, Bool.false_eq_true, if_false,
          if_true, ite_self, Exec.done.injEq] at h
        exact h.symm
    rw [hcreated]
    exact .refused hrefused
  · have hopen : createOpened env w path mode flags (reMatcher env.conf.regex path) replies =
        .done created := by
      unfold dfsCreate at h
      simp only [CreateRefused, not_or, not_and] at hrefused
      obtain ⟨hreg, hstatus⟩ := hrefused
      rw [if_neg hreg] at h
      simp only at h
      split at h
      · exact h
      · rename_i hexclude
        rw [if_neg (fun hboth => hstatus (by simpa using hexclude) hboth.1 hboth.2)] at h
        exact h
    obtain ⟨opened, hopened, hrest⟩ := Exec.bind_eq_done.mp hopen
    split at hrest
    · rename_i hfh
      obtain rfl := Exec.done.inj hrest
      exact .noEntry hrefused hopened hfh
    · rename_i addr hfh
      split at hrest
      · cases hrest
      · rename_i pe hheap
        exact .entry hrefused hopened hfh hheap hrest

/-- After the open, `dfs_create` changes only the exclusion mark and the metadata of the entry, the mode
of the cache file, the object of the path, and the record of calls. -/
theorem createEntry_frame {env : Env} {w : World} {addr : ℕ} {pe : Pentry} {path : CStr}
    {mode : BitVec 32} {exclude : Bool} {replies : CreateReplies} {created : Opened}
    (h : createEntry env w addr pe path mode exclude replies = .done created) :
    created.fh = some addr ∧ ∃ fs remote trace metadata,
      (fs = w.fs ∨ fs = w.fs.fchmod pe.fd.toNat mode replies.fchmod) ∧
      (remote = w.remote ∨
        exclude = false ∧ remote = (dfsMknodTimeout env.conf.maxRetry replies.mknod path w.remote).2) ∧
      created.world = { w with fs := fs, remote := remote, trace := trace }.put addr
        { pe with exclude := exclude, metadata := metadata } := by
  unfold createEntry at h
  simp only at h
  split at h
  · obtain rfl := Exec.done.inj h
    exact ⟨rfl, w.fs, w.remote, w.trace, pe.metadata, .inl rfl, .inl rfl, rfl⟩
  · split at h
    · obtain rfl := Exec.done.inj h
      exact ⟨rfl, w.fs, w.remote, w.trace, pe.metadata, .inl rfl, .inl rfl, rfl⟩
    · rename_i st _
      unfold createObject at h
      simp only at h
      split at h
      · cases h
      · obtain ⟨metadata, hmetadata⟩ := { pe with exclude := exclude }.setMetadata_eq
          (newFileMetadata st mode) replies.setMetadata
        rw [hmetadata] at h
        split at h
        · obtain rfl := Exec.done.inj h
          refine ⟨rfl, _, w.remote, w.trace, metadata, .inr rfl, .inl rfl, ?_⟩
          simp only [World.put, Function.update_idem]
        · rename_i hexclude
          simp only [Bool.not_eq_true] at hexclude
          obtain rfl := Exec.done.inj h
          refine ⟨rfl, _, _, w.trace ++ [.mknod path], metadata, .inr rfl, .inr ⟨hexclude, rfl⟩, ?_⟩
          simp only [World.put, World.log, Function.update_idem]

end Dropletfs
