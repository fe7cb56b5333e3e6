import Dropletfs.Objects
import Dropletfs.Library.SlotRing

/-!
# Renaming files and directories

A file is renamed by copying its object and unlinking the old path. A directory is renamed
entry by entry, recursively. The paths of the entries live in the per-thread ring of
strings, and a recursive call is given the addresses of its two paths in that ring.
-/

namespace Dropletfs

/-- Replies to the calls made during a rename, by the path a call is about. `junkType` and
`junkEntryType` are what the uninitialised `type` variables of `dfs_rename` and of
`rename_directory` hold; `readdir` tells after how many entries a listing fails. -/
structure RenameReplies where
  namei : ℕ → Status
  junkType : Ftype
  nameiTarget : CStr → ℕ → Status
  junkEntryType : CStr → Ftype
  mkdir : CStr → ℕ → Reply
  chdir : CStr → ℕ → Status
  opendir : CStr → ℕ → Status
  readdir : CStr → Option ℕ
  nameiEntry : CStr → ℕ → Status
  fcopy : CStr → CStr → ℕ → Reply
  unlink : CStr → UnlinkReplies
  rmdir : CStr → RmdirReplies

/-- Every call succeeds, but lookups of paths that do not exist. -/
def RenameReplies.granted : RenameReplies where
  namei _ := .success
  junkType := .other
  nameiTarget _ _ := .success
  junkEntryType _ := .other
  mkdir _ _ := .granted
  chdir _ _ := .success
  opendir _ _ := .success
  readdir _ := none
  nameiEntry _ _ := .success
  fcopy _ _ _ := .granted
  unlink _ := ⟨fun _ => .granted, true, .reg⟩
  rmdir _ := ⟨fun _ => .granted, .dir⟩

/-- The ring of `tmpstr.c`. -/
abbrev Ring := SlotRing tmpstrNb CStr

/-- The ring of a new thread. -/
def Ring.start : Ring := ⟨fun _ => [], 0, by decide, [], false⟩

/-- A `char *`: a string of the caller, or one of the ring. -/
inductive StrPtr where
  | caller (text : CStr)
  | slot (i : ℕ)
  deriving DecidableEq

/-- The string a pointer leads to. -/
def Ring.deref (ring : Ring) : StrPtr → CStr
  | .caller text => text
  | .slot i => ring.slots i

/-- The slots behind the arguments of a call. -/
def StrPtr.slots : StrPtr → List ℕ
  | .caller _ => []
  | .slot i => [i]

/-- `tmpstr_printf("%s/%s", dir, name)`: the slot of the result. Formatting a string of the ring
over itself is undefined. -/
def Ring.printf (ring : Ring) (dir : StrPtr) (name : CStr) : Exec (ℕ × Ring) :=
  if dir = .slot (SlotRing.next tmpstrNb ring.current) then .undefined
  else
    let ring' : Ring := ring.push (tmpstrPrintf (slashed (ring.deref dir) name))
    .done (ring'.current, ring')

/-- The state during a rename. -/
structure Renaming where
  world : World
  ring : Ring

/-- `rename_file`. -/
def renameFile (env : Env) (w : World) (old new : CStr) (replies : RenameReplies) : ℤ × World :=
  let w := w.log (.renameFile old new)
  let (status, r) := dfsFcopyTimeout env.conf.maxRetry (replies.fcopy old new) old new w.remote
  let w := { w with remote := r }.log (.fcopy old new)
  if status ≠ .success then (-1, w)
  else
    let dir := match beforeLastSlash new with
      | some [] => none
      | dir => dir
    dfsUnlink env (w.removeDirentOf dir old (replies.unlink old).junkType) old (replies.unlink old)

/-- `rename_file` on strings that may be in the ring: once it has removed the object, `dfs_unlink`
formats the name of the cache file. -/
def renameFileAt (env : Env) (s : Renaming) (old new : StrPtr) (replies : RenameReplies) : ℤ × Renaming :=
  let path := s.ring.deref old
  let (ret, w) := renameFile env s.world path (s.ring.deref new) replies
  if ret = 0 then (ret, ⟨w, s.ring.push (cacheName env.conf path)⟩) else (ret, ⟨w, s.ring⟩)

/-- `rename_directory` up to its loop: the value it returns early, or the type left over in its
variable and the listing. -/
def enterDirectory (env : Env) (w : World) (old new : CStr) (replies : RenameReplies) :
    Except ℤ (Ftype × List CStr) × World :=
  let (status, found) := dfsNameiTimeout env.conf.maxRetry (replies.nameiTarget new) new w.remote
  if status ≠ .success ∧ status ≠ .enoent then (.error (-1), w)
  else
    let (ret, w) := if status = .enoent then dfsMkdir env w new (replies.mkdir new) else (0, w)
    if ret ≠ 0 then (.error (-1), w)
    else
      let status := dfsChdirTimeout env.conf.maxRetry (replies.chdir old) old w.remote
      if status ≠ .success then (.error (env.statusCode status), w)
      else
        let w := { w with cwd := old }
        let status := dfsOpendirTimeout env.conf.maxRetry (replies.opendir old)
        if status ≠ .success then (.error (env.statusCode status), w)
        else
          let names := w.remote.children w.cwd
          let listed := match replies.readdir old with
            | none => names
            | some count => names.take count
          (.ok (found.getD (replies.junkEntryType new), listed), w)

/-- The names `rename_directory` passes over. -/
def skipped (name : CStr) : Bool := name = ".".toList ∨ name = "..".toList

/-- What is done with an entry of the listing, by its type; `recurse` is `rename_directory`. -/
def renameEntry (env : Env) (replies : RenameReplies)
    (recurse : Renaming → StrPtr → StrPtr → Exec (ℤ × Renaming)) (s : Renaming) (type : Ftype)
    (src dst : StrPtr) : Exec (ℤ × Renaming) :=
  if type = .dir then recurse s src dst else .done (renameFileAt env s src dst replies)

/-- The loop of `rename_directory`; `recurse` is `rename_directory` itself. The value is that of the
last entry, or -1 when the type of an entry cannot be found out. -/
def renameEntries (env : Env) (replies : RenameReplies)
    (recurse : Renaming → StrPtr → StrPtr → Exec (ℤ × Renaming)) (old new : StrPtr) :
    List CStr → Ftype → ℤ → Renaming → Exec (ℤ × Renaming)
  | [], _, ret, s => .done (ret, s)
  | name :: names, type, ret, s =>
    if skipped name then renameEntries env replies recurse old new names type ret s
    else do
      let (src, ring) ← Ring.printf s.ring old name
      let (dst, ring) ← Ring.printf ring new name
      let ring := (ring.amend src dropTrailingSlash).amend dst dropTrailingSlash
      let s : Renaming := { s with ring := ring }
      let path := ring.slots src
      let (status, found) := dfsNameiTimeout env.conf.maxRetry (replies.nameiEntry path) path s.world.remote
      if status ≠ .success ∧ status ≠ .enoent then return (-1, s)
      else
        let type := found.getD type
        let (ret, s) ← renameEntry env replies recurse s type (.slot src) (.slot dst)
        renameEntries env replies recurse old new names type ret s

/-- `rename_directory`, with the number of nested calls it may make. -/
def renameDirectory (env : Env) (replies : RenameReplies) :
    ℕ → Renaming → StrPtr → StrPtr → Exec (ℤ × Renaming)
  | 0, _, _, _ => .blocked
  | depth + 1, s, old, new =>
    match enterDirectory env s.world (s.ring.deref old) (s.ring.deref new) replies with
    | (.error ret, w) => .done (ret, { s with world := w })
    | (.ok (type, names), w) => do
      let live := s.ring.live
      let ring := s.ring.enter (old.slots ++ new.slots)
      let (ret, s) ← renameEntries env replies (renameDirectory env replies depth) old new names type 0 ⟨w, ring⟩
      if ret = -1 then return (-1, { s with ring := s.ring.leave live })
      else
        let path := s.ring.deref old
        let w := (dfsRmdir env (s.world.log (.dfsRmdir path)) path (replies.rmdir path)).2
        return (0, ⟨w, s.ring.leave live⟩)

/-- The new path as `dfs_rename` understands it. -/
def renameTarget (old new : CStr) : CStr := if new = ".".toList then afterLastSlash old else new

/-- The table of functions by type in `dfs_rename`, other types being refused. -/
def renameByType (env : Env) (depth : ℕ) (s : Renaming) (type : Ftype) (old new : CStr)
    (replies : RenameReplies) : Exec (ℤ × Renaming) :=
  match type with
  | .reg => .done (renameFileAt env s (.caller old) (.caller new) replies)
  | .dir => renameDirectory env replies depth s (.caller old) (.caller new)
  | .other => .done (-1, s)

/-- `dfs_rename`. The test of its first lookup compares a negation with a status and never holds. -/
def dfsRename (env : Env) (depth : ℕ) (s : Renaming) (old new : CStr) (replies : RenameReplies) :
    Exec (ℤ × Renaming) := do
  let new := renameTarget old new
  let type := (dfsNameiTimeout env.conf.maxRetry replies.namei old s.world.remote).2.getD replies.junkType
  let (ret, s) ← renameByType env depth s type old new replies
  return (if ret = -1 then -1 else 0, s)

/-- What a rename takes its old path for. -/
def renameType (env : Env) (w : World) (old : CStr) (replies : RenameReplies) : Ftype :=
  (dfsNameiTimeout env.conf.maxRetry replies.namei old w.remote).2.getD replies.junkType

/-- The ways the first half of the rename of a directory can end: the new directory cannot be had, the old one
cannot be entered or not be listed, or its entries are known. -/
inductive EnterOutcome (env : Env) (w : World) (old new : CStr) (replies : RenameReplies) :
    Except ℤ (Ftype × List CStr) × World → Prop
  | refused {w₁ : World} : w₁ = w ∨ w₁ = (dfsMkdir env w new (replies.mkdir new)).2 →
      EnterOutcome env w old new replies (.error (-1), w₁)
  | notEntered {w₁ : World} : w₁ = w ∨ w₁ = (dfsMkdir env w new (replies.mkdir new)).2 →
      dfsChdirTimeout env.conf.maxRetry (replies.chdir old) old w₁.remote ≠ .success →
      EnterOutcome env w old new replies
        (.error (env.statusCode (dfsChdirTimeout env.conf.maxRetry (replies.chdir old) old w₁.remote)), w₁)
  | notListed {w₁ : World} : w₁ = w ∨ w₁ = (dfsMkdir env w new (replies.mkdir new)).2 →
      dfsChdirTimeout env.conf.maxRetry (replies.chdir old) old w₁.remote = .success →
      dfsOpendirTimeout env.conf.maxRetry (replies.opendir old) ≠ .success →
      EnterOutcome env w old new replies
        (.error (env.statusCode (dfsOpendirTimeout env.conf.maxRetry (replies.opendir old))), { w₁ with cwd := old })
  | listed {w₁ : World} {type : Ftype} {names : List CStr} :
      w₁ = w ∨ w₁ = (dfsMkdir env w new (replies.mkdir new)).2 →
      dfsChdirTimeout env.conf.maxRetry (replies.chdir old) old w₁.remote = .success →
      dfsOpendirTimeout env.conf.maxRetry (replies.opendir old) = .success →
      EnterOutcome env w old new replies (.ok (type, names), { w₁ with cwd := old })

/-- The first half of the rename of a directory ends in one of these ways. -/
theorem enterDirectory_outcome (env : Env) (w : World) (old new : CStr) (replies : RenameReplies) :
    EnterOutcome env w old new replies (enterDirectory env w old new replies) := by
  unfold enterDirectory
  simp only
  split
  · exact .refused (.inl rfl)
  · -- the state and the value after the optional `dfs_mkdir`
    have hmade : (if (dfsNameiTimeout env.conf.maxRetry (replies.nameiTarget new) new w.remote).1 = .enoent then
          dfsMkdir env w new (replies.mkdir new) else (0, w)).2 = w ∨
        (if (dfsNameiTimeout env.conf.maxRetry (replies.nameiTarget new) new w.remote).1 = .enoent then
          dfsMkdir env w new (replies.mkdir new) else (0, w)).2 = (dfsMkdir env w new (replies.mkdir new)).2 := by
      split
      · exact .inr rfl
      · exact .inl rfl
    revert hmade
    generalize (if (dfsNameiTimeout env.conf.maxRetry (replies.nameiTarget new) new w.remote).1 = .enoent then
      dfsMkdir env w new (replies.mkdir new) else (0, w)) = made
    obtain ⟨ret, w₁⟩ := made
    intro hmade
    simp only at hmade ⊢
    split
    · exact .refused hmade
    · split
      · rename_i hchdir
        exact .notEntered hmade hchdir
      · rename_i hchdir
        split
        · rename_i hopendir
          exact .notListed hmade (not_not.mp hchdir) hopendir
        · rename_i hopendir
          exact .listed hmade (not_not.mp hchdir) (not_not.mp hopendir)

/-- A property of the state that each kind of change made during a rename preserves. -/
structure RenamePreserves (env : Env) (replies : RenameReplies) (P : World → Prop) : Prop where
  log : ∀ w event, P w → P (w.log event)
  cwd : ∀ w : World, ∀ dir, P w → P { w with cwd := dir }
  fcopy : ∀ w old new, P w → P { w with
    remote := (dfsFcopyTimeout env.conf.maxRetry (replies.fcopy old new) old new w.remote).2 }
  dirent : ∀ w dir path junk, P w → P (w.removeDirentOf dir path junk)
  unlink : ∀ w path, P w → P (dfsUnlink env w path (replies.unlink path)).2
  mkdir : ∀ w path, P w → P (dfsMkdir env w path (replies.mkdir path)).2
  rmdir : ∀ w path, P w → P (dfsRmdir env w path (replies.rmdir path)).2

/-- What each change preserves, the rename of a file preserves. -/
theorem renameFile_preserves {env : Env} {replies : RenameReplies} {P : World → Prop}
    (hP : RenamePreserves env replies P) (w : World) (old new : CStr) (hw : P w) :
    P (renameFile env w old new replies).2 := by
  have hcopied := hP.log _ (.fcopy old new) (hP.fcopy _ old new (hP.log _ (.renameFile old new) hw))
  unfold renameFile
  simp only
  split
  · exact hcopied
  · exact hP.unlink _ _ (hP.dirent _ _ _ _ hcopied)

/-- A property of the state that the rename of one file preserves, and so does what is done with the
directories around it. -/
structure RenamePieces (env : Env) (replies : RenameReplies) (P : World → Prop) : Prop where
  file : ∀ w old new, P w → P (renameFile env w old new replies).2
  cwd : ∀ w : World, ∀ dir, P w → P { w with cwd := dir }
  mkdir : ∀ w path, P w → P (dfsMkdir env w path (replies.mkdir path)).2
  rmdir : ∀ w path, P w → P (dfsRmdir env (w.log (.dfsRmdir path)) path (replies.rmdir path)).2

/-- The rename of a file with its strings in the ring. -/
theorem renameFileAt_preserves {env : Env} {replies : RenameReplies} {P : World → Prop}
    (hP : RenamePieces env replies P) (s : Renaming) (old new : StrPtr) (hs : P s.world) :
    P (renameFileAt env s old new replies).2.world := by
  have hrename := hP.file s.world (s.ring.deref old) (s.ring.deref new) hs
  unfold renameFileAt
  simp only
  split <;> exact hrename

/-- The first half of the rename of a directory. -/
theorem enterDirectory_preserves {env : Env} {replies : RenameReplies} {P : World → Prop}
    (hP : RenamePieces env replies P) (w : World) (old new : CStr) (hw : P w) :
    P (enterDirectory env w old new replies).2 := by
  have hmade : ∀ w₁, w₁ = w ∨ w₁ = (dfsMkdir env w new (replies.mkdir new)).2 → P w₁ := by
    rintro w₁ (rfl | rfl)
    · exact hw
    · exact hP.mkdir w new hw
  have houtcome := enterDirectory_outcome env w old new replies
  generalize enterDirectory env w old new replies = entered at houtcome ⊢
  cases houtcome with
  | refused h => exact hmade _ h
  | notEntered h => exact hmade _ h
  | notListed h => exact hP.cwd _ _ (hmade _ h)
  | listed h => exact hP.cwd _ _ (hmade _ h)

/-- The loop of the rename of a directory, given the nested calls. -/
theorem renameEntries_preserves {env : Env} {replies : RenameReplies} {P : World → Prop}
    (hP : RenamePieces env replies P) {recurse : Renaming → StrPtr → StrPtr → Exec (ℤ × Renaming)}
    (hrecurse : ∀ s old new ret s', P s.world → recurse s old new = .done (ret, s') → P s'.world)
    (old new : StrPtr) (names : List CStr) (type : Ftype) (ret ret' : ℤ) (s s' : Renaming) (hs : P s.world)
    (h : renameEntries env replies recurse old new names type ret s = .done (ret', s')) : P s'.world := by
  induction names generalizing type ret s with
  | nil =>
    simp only [renameEntries, Exec.done.injEq, Prod.mk.injEq] at h
    exact h.2 ▸ hs
  | cons name names ih =>
    simp only [renameEntries] at h
    split at h
    · exact ih _ _ _ hs h
    · obtain ⟨⟨src, ring₁⟩, -, h⟩ := Exec.bind_eq_done.mp h
      obtain ⟨⟨dst, ring₂⟩, -, h⟩ := Exec.bind_eq_done.mp h
      simp only at h
      split at h
      · simp only [pure, Exec.done.injEq, Prod.mk.injEq] at h
        rw [← h.2]
        exact hs
      · obtain ⟨⟨ret₁, s₁⟩, hentry, h⟩ := Exec.bind_eq_done.mp h
        refine ih _ _ _ ?_ h
        unfold renameEntry at hentry
        split at hentry
        · exact hrecurse _ _ _ _ _ (by exact hs) hentry
        · have heq := Exec.done.inj hentry
          have hfile := renameFileAt_preserves hP
            { s with ring := (ring₂.amend src dropTrailingSlash).amend dst dropTrailingSlash } (.slot src) (.slot dst)
            hs
          rw [heq] at hfile
          exact hfile

/-- The rename of a directory, however deep. -/
theorem renameDirectory_preserves {env : Env} {replies : RenameReplies} {P : World → Prop}
    (hP : RenamePieces env replies P) (depth : ℕ) (s : Renaming) (old new : StrPtr) (ret : ℤ)
    (s' : Renaming) (hs : P s.world) (h : renameDirectory env replies depth s old new = .done (ret, s')) :
    P s'.world := by
  induction depth generalizing s old new ret s' with
  | zero => cases h
  | succ depth ih =>
    have henter := enterDirectory_preserves hP s.world (s.ring.deref old) (s.ring.deref new) hs
    simp only [renameDirectory] at h
    split at h
    · rename_i heq
      simp only [Exec.done.injEq, Prod.mk.injEq] at h
      rw [heq] at henter
      rw [← h.2]
      exact henter
    · rename_i heq
      rw [heq] at henter
      obtain ⟨⟨ret₁, s₁⟩, hloop, h⟩ := Exec.bind_eq_done.mp h
      have hs₁ : P s₁.world := renameEntries_preserves hP (fun s old new ret s' hs h => ih s old new ret s' hs h)
        old new _ _ _ _ _ _ (by exact henter) hloop
      simp only [pure] at h
      split at h
      · simp only [Exec.done.injEq, Prod.mk.injEq] at h
        rw [← h.2]
        exact hs₁
      · simp only [Exec.done.injEq, Prod.mk.injEq] at h
        rw [← h.2]
        exact hP.rmdir _ _ hs₁

/-- What the pieces of a rename preserve, a rename preserves. -/
theorem dfsRename_pieces {env : Env} {replies : RenameReplies} {P : World → Prop}
    (hP : RenamePieces env replies P) {depth : ℕ} {s s' : Renaming} {old new : CStr} {ret : ℤ}
    (hs : P s.world) (h : dfsRename env depth s old new replies = .done (ret, s')) : P s'.world := by
  obtain ⟨⟨ret₁, s₁⟩, hcall, h⟩ := Exec.bind_eq_done.mp h
  simp only [pure, Exec.done.injEq, Prod.mk.injEq] at h
  rw [← h.2]
  unfold renameByType at hcall
  split at hcall
  · have heq := Exec.done.inj hcall
    have hfile := renameFileAt_preserves hP s (.caller old) (.caller (renameTarget old new)) hs
    rw [heq] at hfile
    exact hfile
  · exact renameDirectory_preserves hP _ _ _ _ _ _ hs hcall
  · have heq := Exec.done.inj hcall
    rw [← (Prod.mk.inj heq).2]
    exact hs

/-- What each kind of change preserves, the pieces of a rename preserve. -/
theorem RenamePreserves.pieces {env : Env} {replies : RenameReplies} {P : World → Prop}
    (hP : RenamePreserves env replies P) : RenamePieces env replies P where
  file := renameFile_preserves hP
  cwd := hP.cwd
  mkdir := hP.mkdir
  rmdir w path hw := hP.rmdir _ _ (hP.log w (.dfsRmdir path) hw)

/-- What each kind of change preserves, a rename preserves. -/
theorem dfsRename_preserves {env : Env} {replies : RenameReplies} {P : World → Prop}
    (hP : RenamePreserves env replies P) {depth : ℕ} {s s' : Renaming} {old new : CStr} {ret : ℤ}
    (hs : P s.world) (h : dfsRename env depth s old new replies = .done (ret, s')) : P s'.world :=
  dfsRename_pieces hP.pieces hs h

end Dropletfs
