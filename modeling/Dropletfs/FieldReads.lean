import Dropletfs.EntryStates
import Dropletfs.SmartCache

/-!
# Fields that are read

Taking a path out of the list of a directory reads the type of the entry of the directory, a
visit of the smart cache reads the time of the entry, and comparing digests reads the digest.
A read comes with the entry as it is at that moment. The reads of a rename are collected along
its calls, as far as these get.
-/

namespace Dropletfs

/-- The fields that `pentry_new` leaves for others to set. -/
inductive Field where
  | filetype
  | atime
  | digest
  deriving DecidableEq, Repr

/-- A read of a field: the address of the entry, and the entry as it is. -/
structure FieldRead where
  field : Field
  addr : ℕ
  pe : Pentry

/-- The field was set since the entry was made. -/
def FieldRead.Written (read : FieldRead) : Prop :=
  match read.field with
  | .filetype => read.pe.filetype.isSome = true
  | .atime => read.pe.atime.isSome = true
  | .digest => read.pe.digest.isSome = true

/-- What is read after a call that returns. -/
def readsAfter {α : Type} (call : Exec α) (next : α → List FieldRead) : List FieldRead :=
  match call with
  | .done a => next a
  | _ => []

/-- The read of `pentry_remove_dirent` on the entry of a directory, if the table has one. -/
def direntReads (w : World) (dir : Option CStr) : List FieldRead :=
  ((dir.bind w.table).bind fun addr => (w.heap addr).map fun pe => ⟨.filetype, addr, pe⟩).toList

/-- The reads of `dfs_unlink`. -/
def unlinkReads (env : Env) (w : World) (path : CStr) (replies : UnlinkReplies) : List FieldRead :=
  if (dfsUnlinkTimeout env.conf.maxRetry replies.unlink path w.remote).1 ≠ .success then []
  else
    match w.table path with
    | none => []
    | some _ => direntReads ((w.unlinked env path replies).remove path) (parentName path)

/-- The reads of `dfs_rmdir`. -/
def rmdirReads (env : Env) (w : World) (path : CStr) (replies : RmdirReplies) : List FieldRead :=
  if (dfsRmdirTimeout env.conf.maxRetry replies.rmdir path w.remote).1 ≠ .success then []
  else direntReads w (some path)

/-- The reads of `rename_file`. -/
def renameFileReads (env : Env) (w : World) (old new : CStr) (replies : RenameReplies) : List FieldRead :=
  let w := w.log (.renameFile old new)
  let (status, r) := dfsFcopyTimeout env.conf.maxRetry (replies.fcopy old new) old new w.remote
  let w := { w with remote := r }.log (.fcopy old new)
  if status ≠ .success then []
  else
    let dir := match beforeLastSlash new with
      | some [] => none
      | dir => dir
    direntReads w dir ++
      unlinkReads env (w.removeDirentOf dir old (replies.unlink old).junkType) old (replies.unlink old)

/-- The reads of the loop of `rename_directory`; `recurse` is `rename_directory` itself, `nested` are its reads. -/
def renameEntriesReads (env : Env) (replies : RenameReplies)
    (recurse : Renaming → StrPtr → StrPtr → Exec (ℤ × Renaming)) (nested : Renaming → StrPtr → StrPtr → List FieldRead)
    (old new : StrPtr) : List CStr → Ftype → Renaming → List FieldRead
  | [], _, _ => []
  | name :: names, type, s =>
    if skipped name then renameEntriesReads env replies recurse nested old new names type s
    else
      readsAfter (Ring.printf s.ring old name) fun (src, ring) =>
        readsAfter (Ring.printf ring new name) fun (dst, ring) =>
          let ring := (ring.amend src dropTrailingSlash).amend dst dropTrailingSlash
          let s : Renaming := { s with ring := ring }
          let path := ring.slots src
          let (status, found) := dfsNameiTimeout env.conf.maxRetry (replies.nameiEntry path) path s.world.remote
          if status ≠ .success ∧ status ≠ .enoent then []
          else
            let type := found.getD type
            let entry := if type = .dir then nested s (.slot src) (.slot dst)
              else renameFileReads env s.world (ring.slots src) (ring.slots dst) replies
            entry ++ readsAfter (renameEntry env replies recurse s type (.slot src) (.slot dst)) fun (_, s) =>
              renameEntriesReads env replies recurse nested old new names type s

/-- The reads of `rename_directory`. -/
def renameDirectoryReads (env : Env) (replies : RenameReplies) : ℕ → Renaming → StrPtr → StrPtr → List FieldRead
  | 0, _, _, _ => []
  | depth + 1, s, old, new =>
    match enterDirectory env s.world (s.ring.deref old) (s.ring.deref new) replies with
    | (.error _, _) => []
    | (.ok (type, names), w) =>
      let ring := s.ring.enter (old.slots ++ new.slots)
      renameEntriesReads env replies (renameDirectory env replies depth) (renameDirectoryReads env replies depth)
          old new names type ⟨w, ring⟩ ++
        readsAfter (renameEntries env replies (renameDirectory env replies depth) old new names type 0 ⟨w, ring⟩)
          fun (ret, s) =>
            if ret = -1 then []
            else
              let path := s.ring.deref old
              rmdirReads env (s.world.log (.dfsRmdir path)) path (replies.rmdir path)

/-- The reads of `dfs_rename`. -/
def renameReads (env : Env) (depth : ℕ) (s : Renaming) (old new : CStr) (replies : RenameReplies) : List FieldRead :=
  let new := renameTarget old new
  match (dfsNameiTimeout env.conf.maxRetry replies.namei old s.world.remote).2.getD replies.junkType with
  | .reg => renameFileReads env s.world old new replies
  | .dir => renameDirectoryReads env replies depth s (.caller old) (.caller new)
  | .other => []

/-- The read of `compare_digests` in `dfs_get_local_copy`. -/
def copyReads (env : Env) (r : Remote) (addr : ℕ) (pe : Pentry) (path : CStr) (replies : CopyReplies) :
    List FieldRead :=
  match downloadHeaders env.conf.maxRetry r path replies with
  | none => []
  | some headers =>
    if replies.newDict = false then []
    else if replies.extract = .failure then []
    else
      let (stored, pe) := pe.setMetadata (getMetadataFromHeaders replies.extract headers) replies.setMetadata
      if stored = false then []
      else if pe.ondisk ≠ .localFile then []
      else
        match headers.bind Obj.etag with
        | none => []
        | some _ => [⟨.digest, addr, pe⟩]

/-- The reads of `dfs_open`. -/
def openReads (env : Env) (w : World) (path : CStr) (flags : BitVec 32) (replies : OpenReplies) : List FieldRead :=
  match findOrPopulate w path replies with
  | none => []
  | some (addr, w) =>
    match w.heap addr with
    | none => []
    | some pe =>
      let pe := pe.incRefcount replies.semPost
      let mode := getModeFromFlags flags
      if mode ≠ .rdonly ∧ (replies.lock = false ∨ pe.locked = true) then []
      else if mode = .creat then []
      else if pe.fd < 0 then copyReads env w.remote addr pe path replies.copy
      else []

/-- The reads of `dfs_create`. -/
def createReads (env : Env) (w : World) (path : CStr) (mode flags : BitVec 32) (replies : CreateReplies) :
    List FieldRead :=
  if sIsreg mode = false then []
  else if reMatcher env.conf.regex path then openReads env w path flags replies.opening
  else
    let status := (dfsNameiTimeout env.conf.maxRetry replies.namei path w.remote).1
    if status ≠ .success ∧ status ≠ .enoent then []
    else openReads env w path flags replies.opening

/-- The reads of a request. Lookups, `dfs_opendir`, `dfs_release` and the collector set these fields or leave
them alone. -/
def Session.fieldReads (env : Env) (s : Session) : Op → List FieldRead
  | .create path mode flags replies => createReads env s.world path mode flags replies
  | .open path flags replies => openReads env s.world path flags replies
  | .unlink path replies => unlinkReads env s.world path replies
  | .rmdir path replies => rmdirReads env s.world path replies
  | .rename depth ring old new replies => renameReads env depth ⟨s.world, ring⟩ old new replies
  | _ => []

/-- The reads of an activity. -/
def Caching.fieldReads (env : Env) (sc : ScConf) (c : Caching) : Activity → List FieldRead
  | .request op => c.session.fieldReads env op
  | .visit path _ =>
    if sc.sweeps = false then []
    else
      ((c.session.world.table path).bind fun addr =>
        (c.session.world.heap addr).map fun pe => ⟨.atime, addr, pe⟩).toList
  | .update _ _ => []

/-- A read of the type of an entry of a state that has a property. -/
def FieldRead.TypeIn (read : FieldRead) (P : World → Prop) : Prop :=
  read.field = .filetype ∧ ∃ w, P w ∧ w.heap read.addr = some read.pe

section TypeReads

variable {env : Env} {P : World → Prop} {w : World} {read : FieldRead}

/-- `pentry_remove_dirent` reads the type of an entry of the state it is called in. -/
theorem direntReads_type {dir : Option CStr} (h : read ∈ direntReads w dir) :
    read.field = .filetype ∧ w.heap read.addr = some read.pe := by
  obtain ⟨addr, -, hread⟩ := Option.bind_eq_some_iff.mp (Option.mem_toList.mp h)
  obtain ⟨pe, hheap, rfl⟩ := Option.map_eq_some_iff.mp hread
  exact ⟨rfl, hheap⟩

/-- Removing a path leaves what it leaves as it is. -/
theorem World.remove_heap {path : CStr} {addr : ℕ} {pe : Pentry} (h : (w.remove path).heap addr = some pe) :
    w.heap addr = some pe := by
  unfold World.remove at h
  split at h
  · exact h
  · unfold World.free at h
    split at h
    · exact h
    · simp only [Function.update_apply] at h
      split at h
      · cases h
      · exact h

/-- `dfs_unlink` reads the type of an entry that was there before. -/
theorem unlinkReads_type {path : CStr} {replies : UnlinkReplies} (h : read ∈ unlinkReads env w path replies) :
    read.field = .filetype ∧ w.heap read.addr = some read.pe := by
  unfold unlinkReads at h
  split at h
  · cases h
  · split at h
    · cases h
    · obtain ⟨hfield, hheap⟩ := direntReads_type h
      exact ⟨hfield, World.remove_heap (w := w.unlinked env path replies) hheap⟩

/-- So does `dfs_rmdir`. -/
theorem rmdirReads_type {path : CStr} {replies : RmdirReplies} (h : read ∈ rmdirReads env w path replies) :
    read.field = .filetype ∧ w.heap read.addr = some read.pe := by
  unfold rmdirReads at h
  split at h
  · cases h
  · exact direntReads_type h

variable {replies : RenameReplies}

/-- `rename_file` reads types in states that have what each change preserves. -/
theorem renameFileReads_type (hP : RenamePreserves env replies P) {old new : CStr} (hw : P w)
    (h : read ∈ renameFileReads env w old new replies) : read.TypeIn P := by
  have hcopied := hP.log _ (.fcopy old new) (hP.fcopy _ old new (hP.log _ (.renameFile old new) hw))
  unfold renameFileReads at h
  simp only at h
  split at h
  · cases h
  · rcases List.mem_append.mp h with hdirent | hunlink
    · obtain ⟨hfield, hheap⟩ := direntReads_type hdirent
      exact ⟨hfield, _, hcopied, hheap⟩
    · obtain ⟨hfield, hheap⟩ := unlinkReads_type hunlink
      exact ⟨hfield, _, hP.dirent _ _ _ _ hcopied, hheap⟩

/-- What is read after a call is read after its return. -/
theorem mem_readsAfter {α : Type} {call : Exec α} {next : α → List FieldRead} (h : read ∈ readsAfter call next) :
    ∃ a, call = .done a ∧ read ∈ next a := by
  cases call with
  | done a => exact ⟨a, rfl, h⟩
  | blocked => cases h
  | undefined => cases h

/-- The loop of the rename of a directory, given the nested calls. -/
theorem renameEntriesReads_type (hP : RenamePreserves env replies P)
    {recurse : Renaming → StrPtr → StrPtr → Exec (ℤ × Renaming)} {nested : Renaming → StrPtr → StrPtr → List FieldRead}
    (hrecurse : ∀ s old new ret s', P s.world → recurse s old new = .done (ret, s') → P s'.world)
    (hnested : ∀ s old new, P s.world → ∀ read ∈ nested s old new, read.TypeIn P)
    (old new : StrPtr) (names : List CStr) (type : Ftype) (s : Renaming) (hs : P s.world)
    (h : read ∈ renameEntriesReads env replies recurse nested old new names type s) : read.TypeIn P := by
  induction names generalizing type s with
  | nil => cases h
  | cons name names ih =>
    simp only [renameEntriesReads] at h
    split at h
    · exact ih _ _ hs h
    · obtain ⟨⟨src, ring₁⟩, -, h⟩ := mem_readsAfter h
      obtain ⟨⟨dst, ring₂⟩, -, h⟩ := mem_readsAfter h
      simp only at h
      split at h
      · cases h
      · rcases List.mem_append.mp h with hentry | hrest
        · split at hentry
          · exact hnested _ _ _ (by exact hs) read hentry
          · exact renameFileReads_type hP (by exact hs) hentry
        · obtain ⟨⟨ret, s₁⟩, hcall, hrest⟩ := mem_readsAfter hrest
          refine ih _ s₁ ?_ hrest
          unfold renameEntry at hcall
          split at hcall
          · exact hrecurse _ _ _ _ _ (by exact hs) hcall
          · have hfile := renameFileAt_preserves hP.pieces
              { s with ring := (ring₂.amend src dropTrailingSlash).amend dst dropTrailingSlash } (.slot src) (.slot dst)
              hs
            rw [Exec.done.inj hcall] at hfile
            exact hfile

/-- The rename of a directory, however deep. -/
theorem renameDirectoryReads_type (hP : RenamePreserves env replies P) (depth : ℕ) (s : Renaming) (old new : StrPtr)
    (hs : P s.world) : ∀ read ∈ renameDirectoryReads env replies depth s old new, read.TypeIn P := by
  induction depth generalizing s old new with
  | zero =>
    intro read h
    cases h
  | succ depth ih =>
    intro read h
    have henter := enterDirectory_preserves hP.pieces s.world (s.ring.deref old) (s.ring.deref new) hs
    have hrecurse : ∀ s old new ret s', P s.world → renameDirectory env replies depth s old new = .done (ret, s') →
        P s'.world := fun s old new ret s' hs h => renameDirectory_preserves hP.pieces depth s old new ret s' hs h
    simp only [renameDirectoryReads] at h
    split at h
    · cases h
    · rename_i heq
      rw [heq] at henter
      rcases List.mem_append.mp h with hentries | hrmdir
      · exact renameEntriesReads_type hP hrecurse ih old new _ _ _ (by exact henter) hentries
      · obtain ⟨⟨ret, s₁⟩, hloop, hrmdir⟩ := mem_readsAfter hrmdir
        have hs₁ : P s₁.world :=
          renameEntries_preserves hP.pieces hrecurse old new _ _ _ _ _ _ (by exact henter) hloop
        simp only at hrmdir
        split at hrmdir
        · cases hrmdir
        · obtain ⟨hfield, hheap⟩ := rmdirReads_type hrmdir
          exact ⟨hfield, _, hP.log _ _ hs₁, hheap⟩

/-- A rename reads types in states that have what each change preserves. -/
theorem renameReads_type (hP : RenamePreserves env replies P) {depth : ℕ} {s : Renaming} {old new : CStr}
    (hs : P s.world) (h : read ∈ renameReads env depth s old new replies) : read.TypeIn P := by
  unfold renameReads at h
  simp only at h
  split at h
  · exact renameFileReads_type hP hs h
  · exact renameDirectoryReads_type hP depth s _ _ hs read h
  · cases h

end TypeReads

section DigestReads

variable {env : Env} {w : World} {path : CStr} {read : FieldRead}

/-- A download for an entry that is not local compares no digests. -/
theorem copyReads_eq_nil {r : Remote} {addr : ℕ} {pe : Pentry} {replies : CopyReplies} (h : pe.ondisk ≠ .localFile) :
    copyReads env r addr pe path replies = [] := by
  unfold copyReads
  split
  · rfl
  · rename_i headers _
    obtain ⟨metadata, hstored⟩ := pe.setMetadata_eq (getMetadataFromHeaders replies.extract headers) replies.setMetadata
    simp only [hstored, ne_eq, h, not_false_eq_true, if_true, ite_self]

/-- An open of consistent entries compares no digests: it downloads only when there is no descriptor. -/
theorem openReads_eq_nil {flags : BitVec 32} {replies : OpenReplies}
    (hconsistent : ∀ addr pe, w.heap addr = some pe → pe.Consistent) : openReads env w path flags replies = [] := by
  unfold openReads
  split
  · rfl
  · rename_i addr w' hlookup
    split
    · rfl
    · rename_i pe hheap
      have hpe : pe.Consistent := by
        rcases findOrPopulate_cases hlookup with ⟨-, rfl⟩ | ⟨-, rfl, rfl⟩
        · exact hconsistent _ pe hheap
        · obtain rfl : Pentry.made path replies.pathDup none = pe :=
            Option.some.inj ((Function.update_self w.nextAddr _ w.heap).symm.trans hheap)
          exact Pentry.made_consistent path replies.pathDup none
      -- counting the handle concerns neither the descriptor nor the placeholder
      have hcounted : (pe.incRefcount replies.semPost).fd = pe.fd ∧
          (pe.incRefcount replies.semPost).ondisk = pe.ondisk := by
        unfold Pentry.incRefcount
        split <;> exact ⟨rfl, rfl⟩
      simp only
      split
      · rfl
      · split
        · rfl
        · split
          · rename_i hfd
            apply copyReads_eq_nil
            rw [hcounted.2]
            intro hlocal
            have hnonneg := hpe.ondisk.mp hlocal
            omega
          · rfl

/-- Nor does a create. -/
theorem createReads_eq_nil {mode flags : BitVec 32} {replies : CreateReplies}
    (hconsistent : ∀ addr pe, w.heap addr = some pe → pe.Consistent) :
    createReads env w path mode flags replies = [] := by
  unfold createReads
  simp only [openReads_eq_nil hconsistent, ite_self]

end DigestReads

/-- Two states of an entry have the same type and the same time. -/
def Pentry.SameFields (pe pe' : Pentry) : Prop := pe'.filetype = pe.filetype ∧ pe'.atime = pe.atime

/-- Requests other than lookups keep the type and the time of an entry. -/
theorem sameFields_opening : ToleratesOpening Pentry.SameFields where
  refl _ := ⟨rfl, rfl⟩
  trans h₁ h₂ := ⟨h₂.1.trans h₁.1, h₂.2.trans h₁.2⟩
  erased _ _ := ⟨rfl, rfl⟩
  counted _ _ _ _ := ⟨rfl, rfl⟩
  described _ _ _ _ := ⟨rfl, rfl⟩
  opened _ _ _ := ⟨rfl, rfl⟩

/-- A request reads types only, and finds the type that an entry has before the request. -/
theorem Session.fieldReads_before {env : Env} {s : Session} {op : Op} {read : FieldRead} (hsound : s.world.Sound env)
    (hconsistent : ∀ addr pe, s.world.heap addr = some pe → pe.Consistent) (h : read ∈ s.fieldReads env op) :
    read.field = .filetype ∧ ∃ pe, s.world.heap read.addr = some pe ∧ read.pe.filetype = pe.filetype := by
  cases op with
  | create path mode flags replies =>
    simp only [Session.fieldReads, createReads_eq_nil hconsistent] at h
    cases h
  | «open» path flags replies =>
    simp only [Session.fieldReads, openReads_eq_nil hconsistent] at h
    cases h
  | unlink path replies =>
    obtain ⟨hfield, hheap⟩ := unlinkReads_type h
    exact ⟨hfield, _, hheap, rfl⟩
  | rmdir path replies =>
    obtain ⟨hfield, hheap⟩ := rmdirReads_type h
    exact ⟨hfield, _, hheap, rfl⟩
  | rename depth ring old new replies =>
    have hbase := sameFields_opening.toToleratesErasing
    have hpreserves : RenamePreserves env replies _ := renamePreserves_changed hbase s.world replies
    obtain ⟨hfield, w, ⟨-, hchanged⟩, hheap⟩ := renameReads_type hpreserves (s := ⟨s.world, ring⟩)
      ⟨hsound, .of_eq hbase rfl rfl rfl⟩ h
    obtain ⟨pe, hbefore, hsame⟩ := hchanged.heap _ _ hheap
    exact ⟨hfield, pe, hbefore, hsame.1⟩
  | getattr | opendir | mkdir | mknod | read | write | release | gc => cases h

end Dropletfs
