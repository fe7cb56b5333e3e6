import Dropletfs.Library.Noted
import Dropletfs.Rename

/-!
# The types a rename goes by

Every lookup of a rename is noted, with what it wrote into the variable for the type, what that
variable held before, and whether the code went on to choose a function by it. The rename with
these notes is the rename without them.
-/

namespace Dropletfs

/-- A lookup during a rename: its path and status, the type it wrote, if any, the value of the variable
before, and whether a function is then chosen by the variable. -/
structure Visit where
  path : CStr
  status : Status
  found : Option Ftype
  leftover : Ftype
  dispatched : Bool

/-- The value of the variable after the lookup. -/
def Visit.type (visit : Visit) : Ftype := visit.found.getD visit.leftover

/-- The lookup was successful and wrote the value that the variable has. -/
structure Visit.Written (visit : Visit) : Prop where
  status : visit.status = .success
  found : visit.found = some visit.type

/-- What is done with an entry of the listing, with notes. -/
def renameEntryNoted (env : Env) (replies : RenameReplies)
    (recurse : Renaming → StrPtr → StrPtr → Noted Visit (ℤ × Renaming)) (s : Renaming) (type : Ftype)
    (src dst : StrPtr) : Noted Visit (ℤ × Renaming) :=
  if type = .dir then recurse s src dst else pure (renameFileAt env s src dst replies)

/-- The loop of `rename_directory`, with notes. -/
def renameEntriesNoted (env : Env) (replies : RenameReplies)
    (recurse : Renaming → StrPtr → StrPtr → Noted Visit (ℤ × Renaming)) (old new : StrPtr) :
    List CStr → Ftype → ℤ → Renaming → Noted Visit (ℤ × Renaming)
  | [], _, ret, s => pure (ret, s)
  | name :: names, type, ret, s =>
    if skipped name then renameEntriesNoted env replies recurse old new names type ret s
    else do
      let (src, ring) ← Noted.silent (Ring.printf s.ring old name)
      let (dst, ring) ← Noted.silent (Ring.printf ring new name)
      let ring := (ring.amend src dropTrailingSlash).amend dst dropTrailingSlash
      let s : Renaming := { s with ring := ring }
      let path := ring.slots src
      let (status, found) := dfsNameiTimeout env.conf.maxRetry (replies.nameiEntry path) path s.world.remote
      Noted.note ⟨path, status, found, type, status = .success ∨ status = .enoent⟩
      if status ≠ .success ∧ status ≠ .enoent then return (-1, s)
      else
        let type := found.getD type
        let (ret, s) ← renameEntryNoted env replies recurse s type (.slot src) (.slot dst)
        renameEntriesNoted env replies recurse old new names type ret s

/-- `rename_directory`, with notes. -/
def renameDirectoryNoted (env : Env) (replies : RenameReplies) :
    ℕ → Renaming → StrPtr → StrPtr → Noted Visit (ℤ × Renaming)
  | 0, _, _, _ => Noted.silent .blocked
  | depth + 1, s, old, new =>
    match enterDirectory env s.world (s.ring.deref old) (s.ring.deref new) replies with
    | (.error ret, w) => pure (ret, { s with world := w })
    | (.ok (type, names), w) => do
      let live := s.ring.live
      let ring := s.ring.enter (old.slots ++ new.slots)
      let (ret, s) ←
        renameEntriesNoted env replies (renameDirectoryNoted env replies depth) old new names type 0 ⟨w, ring⟩
      if ret = -1 then return (-1, { s with ring := s.ring.leave live })
      else
        let path := s.ring.deref old
        let w := (dfsRmdir env (s.world.log (.dfsRmdir path)) path (replies.rmdir path)).2
        return (0, ⟨w, s.ring.leave live⟩)

/-- The table of functions by type in `dfs_rename`, with notes. -/
def renameByTypeNoted (env : Env) (depth : ℕ) (s : Renaming) (type : Ftype) (old new : CStr)
    (replies : RenameReplies) : Noted Visit (ℤ × Renaming) :=
  match type with
  | .reg => pure (renameFileAt env s (.caller old) (.caller new) replies)
  | .dir => renameDirectoryNoted env replies depth s (.caller old) (.caller new)
  | .other => pure (-1, s)

/-- `dfs_rename`, with notes. It goes on whatever its lookup returns. -/
def dfsRenameNoted (env : Env) (depth : ℕ) (s : Renaming) (old new : CStr) (replies : RenameReplies) :
    Noted Visit (ℤ × Renaming) := do
  let new := renameTarget old new
  let (status, found) := dfsNameiTimeout env.conf.maxRetry replies.namei old s.world.remote
  Noted.note ⟨old, status, found, replies.junkType, true⟩
  let (ret, s) ← renameByTypeNoted env depth s (found.getD replies.junkType) old new replies
  return (if ret = -1 then -1 else 0, s)

section Erasing

variable {env : Env} {replies : RenameReplies}

/-- The loop without its notes. -/
theorem renameEntriesNoted_exec (recurse : Renaming → StrPtr → StrPtr → Noted Visit (ℤ × Renaming))
    (old new : StrPtr) (names : List CStr) (type : Ftype) (ret : ℤ) (s : Renaming) :
    (renameEntriesNoted env replies recurse old new names type ret s).exec =
      renameEntries env replies (fun s src dst => (recurse s src dst).exec) old new names type ret s := by
  induction names generalizing type ret s with
  | nil => rfl
  | cons name names ih =>
    simp only [renameEntriesNoted, renameEntries]
    split
    · exact ih type ret s
    · simp only [Noted.bind_exec, Noted.silent_exec, Noted.note_exec, Exec.done_bind]
      congr 1
      funext printed
      congr 1
      funext printed'
      split
      · rfl
      · rw [Noted.bind_exec]
        congr 1
        · unfold renameEntryNoted renameEntry
          split <;> rfl
        · funext entry
          exact ih _ _ _

/-- The rename of a directory without its notes. -/
theorem renameDirectoryNoted_exec (depth : ℕ) (s : Renaming) (old new : StrPtr) :
    (renameDirectoryNoted env replies depth s old new).exec = renameDirectory env replies depth s old new := by
  induction depth generalizing s old new with
  | zero => rfl
  | succ depth ih =>
    have hrecurse : (fun s src dst => (renameDirectoryNoted env replies depth s src dst).exec) =
        renameDirectory env replies depth := by
      funext s src dst
      exact ih s src dst
    cases hentered : enterDirectory env s.world (s.ring.deref old) (s.ring.deref new) replies with
    | mk entered w =>
      simp only [renameDirectoryNoted, renameDirectory, hentered]
      cases entered with
      | error ret => rfl
      | ok listing =>
        simp only [Noted.bind_exec, renameEntriesNoted_exec, hrecurse]
        congr 1
        funext looped
        split <;> rfl

/-- The rename without its notes is the rename. -/
theorem dfsRenameNoted_exec (env : Env) (depth : ℕ) (s : Renaming) (old new : CStr) (replies : RenameReplies) :
    (dfsRenameNoted env depth s old new replies).exec = dfsRename env depth s old new replies := by
  have hbytype : ∀ type new, (renameByTypeNoted env depth s type old new replies).exec =
      renameByType env depth s type old new replies := by
    intro type new
    cases type with
    | reg => rfl
    | dir => exact renameDirectoryNoted_exec depth s _ _
    | other => rfl
  simp only [dfsRenameNoted, dfsRename, Noted.bind_exec, Noted.note_exec, Exec.done_bind, hbytype]
  rfl

end Erasing

/-- A lookup of an entry wrote a type exactly when it was successful, and the loop goes on after a success and
when the entry does not exist. -/
structure Visit.OfEntry (visit : Visit) : Prop where
  found : visit.status = .success → visit.found.isSome
  dispatched : visit.dispatched = true ↔ visit.status = .success ∨ visit.status = .enoent

/-- A successful lookup wrote the value that the variable has. -/
theorem Visit.written_of_found {visit : Visit} (hstatus : visit.status = .success)
    (hfound : visit.status = .success → visit.found.isSome) : visit.Written := by
  obtain ⟨type, htype⟩ := Option.isSome_iff_exists.mp (hfound hstatus)
  refine ⟨hstatus, ?_⟩
  rw [Visit.type, htype, Option.getD_some]

/-- What a successful lookup found. -/
theorem dfsNameiTimeout_found (maxRetry : ℤ) (replies : ℕ → Status) (path : CStr) (r : Remote)
    (h : (dfsNameiTimeout maxRetry replies path r).1 = .success) :
    (dfsNameiTimeout maxRetry replies path r).2.isSome := by
  obtain ⟨hfound, hsome⟩ := dfsNameiTimeout_success maxRetry replies path r h
  rw [hfound, hsome]

/-- The lookups of the loop, given those of the nested calls. -/
theorem renameEntriesNoted_all {env : Env} {replies : RenameReplies}
    {recurse : Renaming → StrPtr → StrPtr → Noted Visit (ℤ × Renaming)}
    (hrecurse : ∀ s src dst, (recurse s src dst).All Visit.OfEntry) (old new : StrPtr) (names : List CStr)
    (type : Ftype) (ret : ℤ) (s : Renaming) :
    (renameEntriesNoted env replies recurse old new names type ret s).All Visit.OfEntry := by
  induction names generalizing type ret s with
  | nil => exact .pure _
  | cons name names ih =>
    simp only [renameEntriesNoted]
    split
    · exact ih type ret s
    · refine .bind (.silent _) fun printed => .bind (.silent _) fun printed' => .bind (.note ?_) fun _ => ?_
      · exact ⟨fun h => dfsNameiTimeout_found _ _ _ _ h, by simp⟩
      · split
        · exact .pure _
        · refine .bind ?_ fun entry => ih _ _ _
          unfold renameEntryNoted
          split
          · exact hrecurse _ _ _
          · exact .pure _

/-- The lookups of the entries of a directory, however deep. -/
theorem renameDirectoryNoted_all (env : Env) (replies : RenameReplies) (depth : ℕ) (s : Renaming)
    (old new : StrPtr) : (renameDirectoryNoted env replies depth s old new).All Visit.OfEntry := by
  induction depth generalizing s old new with
  | zero => exact .silent _
  | succ depth ih =>
    simp only [renameDirectoryNoted]
    split
    · exact .pure _
    · refine .bind (renameEntriesNoted_all ih _ _ _ _ _ _) fun looped => ?_
      split <;> exact .pure _

/-- The lookups of a rename: that of the path itself, after which the code goes on in any case, and those of
entries. -/
theorem dfsRenameNoted_notes (env : Env) (depth : ℕ) (s : Renaming) (old new : CStr) (replies : RenameReplies) :
    ∃ entries, (∀ visit ∈ entries, visit.OfEntry) ∧ (dfsRenameNoted env depth s old new replies).notes =
      ⟨old, (dfsNameiTimeout env.conf.maxRetry replies.namei old s.world.remote).1,
        (dfsNameiTimeout env.conf.maxRetry replies.namei old s.world.remote).2, replies.junkType, true⟩ :: entries := by
  refine ⟨_, ?_, Noted.note_bind_notes _ _⟩
  refine Noted.All.bind (P := Visit.OfEntry) ?_ fun result => .pure _
  unfold renameByTypeNoted
  split
  · exact .pure _
  · exact renameDirectoryNoted_all _ _ _ _ _ _
  · exact .pure _

/-- The call copies or removes something or makes a directory. -/
def Event.renames : Event → Bool
  | .fcopy .. => true
  | .unlink .. => true
  | .mkdir .. => true
  | .rmdir .. => true
  | _ => false

/-- The rename of a path that could not be looked up returns an error and issues none of these calls. -/
def Refused (env : Env) (depth : ℕ) (s : Renaming) (old new : CStr) (replies : RenameReplies) : Prop :=
  ∃ ret s', dfsRename env depth s old new replies = .done (ret, s') ∧ ret ≠ 0 ∧
    s'.world.trace.filter Event.renames = s.world.trace.filter Event.renames

/-- A failed lookup renames nothing, and every function is chosen by a type that a successful lookup of its path
wrote, exactly when the first lookup is successful and no later one finds that its path does not exist. -/
theorem dispatches_written_iff (env : Env) (depth : ℕ) (s : Renaming) (old new : CStr) (replies : RenameReplies) :
    ((dfsNameiTimeout env.conf.maxRetry replies.namei old s.world.remote).1 ≠ .success →
        Refused env depth s old new replies) ∧
      (∀ visit ∈ (dfsRenameNoted env depth s old new replies).notes, visit.dispatched = true → visit.Written) ↔
    (dfsNameiTimeout env.conf.maxRetry replies.namei old s.world.remote).1 = .success ∧
      ∀ visit ∈ (dfsRenameNoted env depth s old new replies).notes, visit.status ≠ .enoent := by
  obtain ⟨entries, hentries, hnotes⟩ := dfsRenameNoted_notes env depth s old new replies
  rw [hnotes, List.forall_mem_cons, List.forall_mem_cons]
  constructor
  · rintro ⟨-, hfirst, hwritten⟩
    have hstatus : (dfsNameiTimeout env.conf.maxRetry replies.namei old s.world.remote).1 = .success :=
      (hfirst rfl).status
    refine ⟨hstatus, fun henoent => ?_, fun visit hvisit henoent => ?_⟩
    · cases hstatus.symm.trans henoent
    · have hsuccess := (hwritten visit hvisit ((hentries visit hvisit).dispatched.mpr (.inr henoent))).status
      cases hsuccess.symm.trans henoent
  · rintro ⟨hstatus, -, hlater⟩
    refine ⟨fun hfailed => absurd hstatus hfailed, fun _ => ?_, fun visit hvisit hdispatched => ?_⟩
    · exact Visit.written_of_found hstatus (dfsNameiTimeout_found _ _ _ _)
    · have hentry := hentries visit hvisit
      have hsuccess := (hentry.dispatched.mp hdispatched).resolve_right (hlater visit hvisit)
      exact Visit.written_of_found hsuccess hentry.found

/-- The service does not answer the lookup of the path, and the variable happens to hold the type of a file. -/
def unansweredRename : RenameReplies := { RenameReplies.granted with namei := fun _ => .failure, junkType := .reg }

/-- The rename copies the file nevertheless, and reports a success. -/
theorem unanswered_rename_copies :
    (dfsNameiTimeout Env.plain.conf.maxRetry unansweredRename.namei "/a".toList
        ((∅ : Remote).insert "/a".toList ⟨.reg, [], none, none⟩)).1 ≠ .success ∧
      ∃ s', dfsRename .plain 0 ⟨.start .empty ((∅ : Remote).insert "/a".toList ⟨.reg, [], none, none⟩), .start⟩
          "/a".toList "/b".toList unansweredRename = .done (0, s') ∧
        .fcopy "/a".toList "/b".toList ∈ s'.world.trace :=
  ⟨by decide, _, rfl, by decide⟩

end Dropletfs
