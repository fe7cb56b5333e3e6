import Dropletfs.Entry

/-!
# Symbolic links

A symbolic link is an empty object whose metadata holds its target. A target under the mount
point is stored without the mount point.
-/

namespace Dropletfs

/-- `strstr`: what follows the first occurrence. -/
def afterFirst (needle : CStr) : CStr → Option CStr
  | [] => if needle = [] then some [] else none
  | c :: s =>
    match needle.isPrefixOf? (c :: s) with
    | some rest => some rest
    | none => afterFirst needle s

/-- The target as it is stored: what follows the mount point and one more character. There is none to
read when the mount point ends the target. -/
def linkTarget (rootDir oldpath : CStr) : Option CStr :=
  match afterFirst rootDir oldpath with
  | none => some oldpath
  | some [] => none
  | some (_ :: rest) => some rest

/-- Replies to the calls of `dfs_symlink`. -/
structure SymlinkReplies where
  mknod : ℕ → Reply
  newDict : Bool
  addSymlink : Status
  addSize : Status
  setattr : ℕ → Reply

/-- The metadata of a symbolic link. -/
def symlinkMetadata (target : CStr) : Dict :=
  (Dict.new.updateValue "symlink".toList target).updateValue "size".toList (decimal target.length)

/-- `dfs_symlink`; the mount point is a setting of its own. -/
def dfsSymlink (env : Env) (rootDir : CStr) (w : World) (oldpath newpath : CStr)
    (replies : SymlinkReplies) : Exec (ℤ × World) :=
  let (status, r) := dfsMknodTimeout env.conf.maxRetry replies.mknod newpath w.remote
  let w := { w with remote := r }.log (.mknod newpath)
  if status ≠ .success then .done (env.statusCode status, w)
  else
    match linkTarget rootDir oldpath with
    | none => .undefined
    | some target =>
      if replies.newDict = false then .done (-1, w)
      else if replies.addSymlink ≠ .success then .done (-1, w)
      else if replies.addSize ≠ .success then .done (-1, w)
      else
        let dict := symlinkMetadata target
        let (status, r) := dfsSetattrTimeout env.conf.maxRetry replies.setattr newpath dict w.remote
        .done (if status ≠ .success then -1 else 0, { w with remote := r })

/-- The target that `dfs_readlink` finds: the last attempt succeeded, and the object has one. -/
def foundTarget (env : Env) (w : World) (path : CStr) (getattr : ℕ → Status) : Option CStr :=
  let (status, dict) := dfsGetattrTimeout env.conf.maxRetry getattr path w.remote
  if status ≠ .success then none else dict.bind fun dict => dict "symlink".toList

/-- `dfs_readlink`: the value returned, which is zero on every exit, and what was put in the buffer. -/
def dfsReadlink (env : Env) (w : World) (path : CStr) (bufsiz : ℕ) (getattr : ℕ → Status) :
    ℤ × Option CStr :=
  match foundTarget env w path getattr with
  | none => (0, none)
  | some dest => (0, some (dest.take bufsiz))

example : linkTarget "/mnt".toList "/mnt/a/b".toList = some "a/b".toList := by decide
example : linkTarget "/mnt".toList "../b".toList = some "../b".toList := by decide

/-- An object whose metadata was replaced with success has the new metadata. -/
theorem dfsSetattrTimeout_success {maxRetry : ℤ} {replies : ℕ → Reply} {path : CStr} {dict : Dict}
    {r : Remote} (h : (dfsSetattrTimeout maxRetry replies path dict r).1 = .success) :
    ∃ obj : Obj, (dfsSetattrTimeout maxRetry replies path dict r).2.lookup path =
      some { obj with metadata := some dict } := by
  unfold dfsSetattrTimeout at h ⊢
  obtain ⟨i, r', heq⟩ := @writeTimeout_eq_attempt maxRetry r Status.retriableSetattr
    fun i => dplSetattr (replies i) path dict
  rw [heq] at h ⊢
  unfold dplSetattr at h ⊢
  cases hobj : r'.lookup path with
  | none =>
    rw [hobj] at h
    cases ((Status.onExisting_eq_success _ _).mp h).2
  | some obj =>
    rw [hobj] at h
    have happlied := (replies i).applied_of_success h
    exact ⟨obj, by simp only [happlied, if_true, AList.lookup_insert]⟩

/-- A link that was made with success is on the store, with its target. -/
theorem dfsSymlink_success {env : Env} {rootDir oldpath newpath : CStr} {w w' : World}
    {replies : SymlinkReplies}
    (h : dfsSymlink env rootDir w oldpath newpath replies = .done (0, w')) :
    ∃ target obj, linkTarget rootDir oldpath = some target ∧ w'.remote.lookup newpath = some obj ∧
      obj.metadata = some (symlinkMetadata target) := by
  unfold dfsSymlink at h
  simp only at h
  split at h
  · rename_i hstatus
    simp only [Exec.done.injEq, Prod.mk.injEq] at h
    have hneg := env.statusCode_neg _ hstatus
    omega
  · split at h
    · cases h
    · rename_i target htarget
      split at h
      · cases h
      · split at h
        · cases h
        · split at h
          · cases h
          · simp only [Exec.done.injEq, Prod.mk.injEq] at h
            obtain ⟨hret, rfl⟩ := h
            have hsuccess : (dfsSetattrTimeout env.conf.maxRetry replies.setattr newpath (symlinkMetadata target)
                (dfsMknodTimeout env.conf.maxRetry replies.mknod newpath w.remote).2).1 = .success := by
              by_contra hfailed
              rw [World.log] at hret
              simp only [hfailed, ne_eq, not_false_eq_true, if_true] at hret
              cases hret
            obtain ⟨obj, hobj⟩ := dfsSetattrTimeout_success hsuccess
            exact ⟨target, { obj with metadata := some (symlinkMetadata target) }, htarget, hobj, rfl⟩

end Dropletfs
