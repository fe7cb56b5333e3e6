import Dropletfs.EntryStates
import Dropletfs.Listings

/-!
# Names that were removed

After a removal, lookups of the path are answered from the entry of the path, if there is one with
metadata or a local file, and from the store otherwise. `dfs_unlink` destroys the entry, `dfs_rmdir`
and a rename of a directory keep it. The record beside the session holds the paths that were
removed with success and did not come back to the store since.
-/

namespace Dropletfs

/-- The store has no object for the path, and the next lookup of the path would ask the store. -/
structure World.Gone (w : World) (path : CStr) : Prop where
  absent : w.remote.lookup path = none
  unset : ∀ pe, w.entry path = some pe → pe.ondisk = .unset

/-- The path that a request removes with success: `dfs_unlink` and `dfs_rmdir` their own, `dfs_rename` the
old one when the new one is another. -/
def Session.removesPath (env : Env) (s : Session) : Op → Option CStr
  | .unlink path replies => if (dfsUnlink env s.world path replies).1 = 0 then some path else none
  | .rmdir path replies => if (dfsRmdir env s.world path replies).1 = 0 then some path else none
  | .rename depth ring old new replies =>
    match dfsRename env depth ⟨s.world, ring⟩ old new replies with
    | .done (ret, _) => if ret = 0 ∧ new ≠ old then some old else none
    | _ => none
  | _ => none

/-- The path comes back to the store. -/
def Recreated (s s' : Session) (path : CStr) : Bool :=
  (s.world.remote.lookup path).isNone && (s'.world.remote.lookup path).isSome

/-- A session with the paths that were removed with success and not recreated on the store since. -/
abbrev Removals := Session × List CStr

/-- The record after a request. -/
def Session.noteGone (env : Env) (s : Session) (op : Op) (s' : Session) (gone : List CStr) : List CStr :=
  (s.removesPath env op).toList ++ gone.filter fun path => !Recreated s s' path

/-- Every lookup of a recorded path fails. -/
def Removals.Right (env : Env) (t : Removals) : Prop :=
  ∀ path ∈ t.2, ∀ replies looked, dfsGetattr env t.1.world path replies = .done looked → looked.ret ≠ 0

/-- A rename of this path to another takes it off the store and leaves no entry that answers lookups. A
file: once its object was copied it can be unlinked. A directory: its entry was not looked up, no object is
copied over it, and it is on the store and can be entered, listed and removed, or is not on the store. -/
structure RenamesAway (env : Env) (w : World) (old new : CStr) (replies : RenameReplies) : Prop where
  file : (dfsNameiTimeout env.conf.maxRetry replies.namei old w.remote).2.getD replies.junkType = .reg →
    (dfsFcopyTimeout env.conf.maxRetry (replies.fcopy old new) old new w.remote).1 = .success →
    (dfsUnlinkTimeout env.conf.maxRetry (replies.unlink old).unlink old
      (dfsFcopyTimeout env.conf.maxRetry (replies.fcopy old new) old new w.remote).2).1 = .success
  unset : (dfsNameiTimeout env.conf.maxRetry replies.namei old w.remote).2.getD replies.junkType = .dir →
    ∀ pe, w.entry old = some pe → pe.ondisk = .unset
  copies : (dfsNameiTimeout env.conf.maxRetry replies.namei old w.remote).2.getD replies.junkType = .dir →
    ∀ path i, (replies.fcopy path old i).applied = false
  directory : (dfsNameiTimeout env.conf.maxRetry replies.namei old w.remote).2.getD replies.junkType = .dir →
    (w.remote.lookup old = none ∧ new ≠ old) ∨
    w.remote.ftype old = some .dir ∧ ∀ r : Remote, r.ftype old = some .dir →
      dfsChdirTimeout env.conf.maxRetry (replies.chdir old) old r = .success ∧
      dfsOpendirTimeout env.conf.maxRetry (replies.opendir old) = .success ∧
      (dfsRmdirTimeout env.conf.maxRetry (replies.rmdir old).rmdir old r).1 = .success

/-- An open for writing from scratch gets a cache file for the path. -/
def CreatesLocal (flags : BitVec 32) (replies : OpenReplies) : Prop :=
  getModeFromFlags flags = .creat ∧ replies.lock = true ∧ replies.treeDup = true ∧ replies.openCache ≠ none

/-- A request leaves nothing that answers lookups of a removed path. The path is not the root; a directory
that is removed was not looked up; a rename takes its path away; and no cache file is made for a path that
is gone, unless `dfs_create` makes its object as well. -/
def RemovesFully (env : Env) (t : Removals) : Op → Prop
  | .unlink path replies =>
    (dfsUnlinkTimeout env.conf.maxRetry replies.unlink path t.1.world.remote).1 = .success → path ≠ "/".toList
  | .rmdir path replies =>
    (dfsRmdirTimeout env.conf.maxRetry replies.rmdir path t.1.world.remote).1 = .success →
    path ≠ "/".toList ∧ ∀ pe, t.1.world.entry path = some pe → pe.ondisk = .unset
  | .rename depth ring old new replies =>
    t.1.removesPath env (.rename depth ring old new replies) = some old →
    old ≠ "/".toList ∧ RenamesAway env t.1.world old (renameTarget old new) replies
  | .open path flags replies => path ∈ t.2 → ¬ CreatesLocal flags replies
  | .create path mode flags replies => path ∈ t.2 → CreatesLocal flags replies.opening →
    CreateRefused env t.1.world path mode replies ∨
    reMatcher env.conf.regex path = false ∧ replies.fstat ≠ none ∧
      (dfsMknodTimeout env.conf.maxRetry replies.mknod path t.1.world.remote).2.lookup path ≠ none
  | _ => True

section Store

variable {maxRetry : ℤ} {path : CStr} {r : Remote}

/-- An object that was unlinked is not there. -/
theorem dfsUnlinkTimeout_gone {replies : ℕ → Reply}
    (h : (dfsUnlinkTimeout maxRetry replies path r).1 = .success) :
    (dfsUnlinkTimeout maxRetry replies path r).2.lookup path = none := by
  unfold dfsUnlinkTimeout at h ⊢
  obtain ⟨i, r', heq⟩ := @writeTimeout_eq_attempt maxRetry r Status.retriable
    fun i => dplUnlink (replies i) path
  rw [heq] at h ⊢
  have happlied := (replies i).applied_of_success ((Status.onExisting_eq_success _ _).mp h).1
  simp only [dplUnlink, happlied, if_true, AList.lookup_erase]

/-- A copy that is reported as a success puts the object under the new path. -/
theorem dfsFcopyTimeout_copied {replies : ℕ → Reply} {old new : CStr} {obj : Obj} (hne : new ≠ old)
    (hold : r.lookup old = some obj) (h : (dfsFcopyTimeout maxRetry replies old new r).1 = .success) :
    (dfsFcopyTimeout maxRetry replies old new r).2.lookup new = some obj := by
  obtain ⟨i, r', hsource, heq⟩ := Attempts.run_eq_last Status.retriable (fun i => dplFcopy (replies i) old new)
    (fun r' => r'.lookup old = some obj)
    (fun i r' hr' _ => (dplFcopy_lookup_ne _ _ _ _ r' hne.symm).trans hr') maxRetry.toNat 0 r hold
  rw [dfsFcopyTimeout, writeTimeout, heq] at h ⊢
  simp only [dplFcopy, hsource] at h ⊢
  rw [if_pos ((replies i).applied_of_success h), AList.lookup_insert]

/-- A directory that was removed is not there. -/
theorem dfsRmdirTimeout_gone {replies : ℕ → Reply} (h : (dfsRmdirTimeout maxRetry replies path r).1 = .success) :
    (dfsRmdirTimeout maxRetry replies path r).2.lookup path = none := by
  unfold dfsRmdirTimeout at h ⊢
  obtain ⟨i, r', heq⟩ := @writeTimeout_eq_attempt maxRetry r Status.retriable
    fun i => dplRmdir (replies i) path
  rw [heq] at h ⊢
  unfold dplRmdir at h ⊢
  simp only at h ⊢
  split at h
  · rename_i hdir
    have happlied := (replies i).applied_of_success ((Status.onExisting_eq_success _ _).mp h).1
    rw [if_pos hdir]
    simp only [happlied, if_true, AList.lookup_erase]
  · simp only at h
    split at h
    · cases h
    · exact absurd h ‹_›

end Store

/-- Lookups of a path that is gone fail. -/
theorem World.Gone.lookup_fails {env : Env} {w : World} {path : CStr} (h : w.Gone path) (hroot : path ≠ "/".toList)
    {replies : GetattrReplies} {looked : Lookup} (hcall : dfsGetattr env w path replies = .done looked) :
    looked.ret ≠ 0 := by
  have hnothing : w.remote.ftype path = none := by
    rw [Remote.ftype, if_neg hroot, h.absent, Option.map_none]
  cases dfsGetattr_outcome hcall with
  | root hpath => exact absurd hpath hroot
  | noEntry => exact Int.neg_ne_zero.mpr Int.one_ne_zero
  | entry _ hentry hheap hbranch =>
    obtain ⟨hplaceholder, hremote⟩ := hentry.unset hheap h.unset
    rw [getattrByPlaceholder, hplaceholder] at hbranch
    cases getattrUnset_outcome hbranch with
    | failed hret => exact hret
    | plain htype =>
      rw [hremote, hnothing] at htype
      cases htype
    | described htype =>
      rw [hremote, hnothing] at htype
      cases htype

section Effects

variable {env : Env} {w w' : World} {path : CStr}

/-- An entry that was not looked up stays so under counting and locking. -/
theorem unset_counting : ToleratesCounting fun pe pe' : Pentry => pe.ondisk = .unset → pe'.ondisk = .unset where
  refl _ := id
  trans h₁ h₂ := fun h => h₂ (h₁ h)
  erased _ _ := id
  counted _ _ _ _ := id

/-- Where no entry becomes looked up, none of a path does. -/
theorem World.Changed.unset (h : w.Changed (fun pe pe' => pe.ondisk = .unset → pe'.ondisk = .unset) w')
    (hunset : ∀ pe, w.entry path = some pe → pe.ondisk = .unset) :
    ∀ pe, w'.entry path = some pe → pe.ondisk = .unset := by
  intro pe' hentry
  obtain ⟨addr, htable', hheap'⟩ := Option.bind_eq_some_iff.mp hentry
  obtain ⟨pe, hheap, hkeeps⟩ := h.heap addr pe' hheap'
  exact hkeeps (hunset pe (by rw [World.entry, h.table path addr htable']; exact hheap))

/-- A new entry leaves the entries of the other paths. -/
theorem World.insert_entry_ne {other : CStr} (pe : Pentry) (hsound : w.Sound env) (hne : other ≠ path) :
    (w.insert path pe).2.entry other = w.entry other := by
  unfold World.entry
  simp only [World.insert, Function.update_of_ne hne]
  cases htable : w.table other with
  | none => rfl
  | some addr => exact Function.update_of_ne (Nat.ne_of_lt (hsound.table_lt other addr htable)) ..

/-- A new entry is the entry of its path. -/
theorem World.insert_entry_self (w : World) (path : CStr) (pe : Pentry) :
    (w.insert path pe).2.entry path = some pe := by
  simp [World.insert, World.entry]

/-- What becomes of the store when a path is unlinked. -/
theorem dfsUnlink_remote (replies : UnlinkReplies) :
    (dfsUnlink env w path replies).2.remote = (dfsUnlinkTimeout env.conf.maxRetry replies.unlink path w.remote).2 := by
  have houtcome := dfsUnlink_outcome env w path replies
  generalize dfsUnlink env w path replies = result at houtcome ⊢
  cases houtcome with
  | failed => rfl
  | absent => rfl
  | destroyed _ _ _ hremote => exact hremote

/-- An unlinked path is gone. -/
theorem dfsUnlink_gone {replies : UnlinkReplies}
    (hstatus : (dfsUnlinkTimeout env.conf.maxRetry replies.unlink path w.remote).1 = .success) :
    (dfsUnlink env w path replies).2.Gone path := by
  constructor
  · rw [dfsUnlink_remote]
    exact dfsUnlinkTimeout_gone hstatus
  · have hnone : (dfsUnlink env w path replies).2.table path = none := by
      have houtcome := dfsUnlink_outcome env w path replies
      generalize dfsUnlink env w path replies = result at houtcome ⊢
      cases houtcome with
      | failed hfailed => exact absurd hstatus hfailed
      | absent _ htable => exact htable
      | destroyed _ _ hquiet =>
        rw [hquiet.table]
        exact World.remove_table_self ..
    intro pe hentry
    rw [World.entry, hnone] at hentry
    cases hentry

/-- A removed directory that was not looked up is gone. -/
theorem dfsRmdir_gone {replies : RmdirReplies}
    (habsent : (dfsRmdirTimeout env.conf.maxRetry replies.rmdir path w.remote).2.lookup path = none)
    (hunset : ∀ pe, w.entry path = some pe → pe.ondisk = .unset) : (dfsRmdir env w path replies).2.Gone path where
  absent := by
    rw [(dfsRmdir_quiet env w path replies).2]
    exact habsent
  unset := (dfsRmdir_changed unset_counting.toToleratesErasing path replies).unset hunset

/-- A directory that is on the store stays there when another object is copied or made. -/
theorem dfsMkdirTimeout_lookup {maxRetry : ℤ} {replies : ℕ → Reply} {new : CStr} {r : Remote} {obj : Obj}
    (h : r.lookup path = some obj) : (dfsMkdirTimeout maxRetry replies new r).2.lookup path = some obj := by
  refine writeTimeout_preserves maxRetry Status.retriable _ (fun r => r.lookup path = some obj) ?_ r h
  intro i r hr
  unfold dplMkdir
  simp only
  split
  · rename_i hmade
    by_cases hnew : path = new
    · subst hnew
      rw [hr] at hmade
      cases hmade.2
    · rw [AList.lookup_insert_ne hnew]
      exact hr
  · exact hr

/-- Making another directory does not make this one. -/
theorem dfsMkdirTimeout_lookup_ne {maxRetry : ℤ} {replies : ℕ → Reply} {new : CStr} {r : Remote} (hne : path ≠ new) :
    (dfsMkdirTimeout maxRetry replies new r).2.lookup path = r.lookup path := by
  refine writeTimeout_lookup maxRetry Status.retriable _ path r fun i r' _ => ?_
  unfold dplMkdir
  simp only
  split
  · exact AList.lookup_insert_ne hne
  · rfl

/-- What is not on the store cannot be entered. -/
theorem dfsChdirTimeout_absent {maxRetry : ℤ} {replies : ℕ → Status} {r : Remote} (h : r.ftype path ≠ some .dir) :
    dfsChdirTimeout maxRetry replies path r ≠ .success := by
  unfold dfsChdirTimeout
  obtain ⟨i, heq⟩ := readTimeout_eq_attempt maxRetry Status.retriableChdir fun i => (dplChdir (replies i) path r, ())
  rw [heq, dplChdir]
  intro hsuccess
  split at hsuccess
  · cases hsuccess
  · rename_i hnot
    exact hnot ⟨hsuccess, h⟩

/-- Whatever is under the path on the store is a directory. -/
def World.OnlyDirectory (w : World) (path : CStr) : Prop := ∀ obj, w.remote.lookup path = some obj → obj.ftype = .dir

/-- A rename that copies nothing over a directory leaves it one, as long as it leaves it at all. -/
theorem onlyDirectory_preserves {replies : RenameReplies}
    (hcopies : ∀ source i, (replies.fcopy source path i).applied = false) :
    RenamePreserves env replies fun w => w.OnlyDirectory path := by
  constructor
  · exact fun w event h => h
  · exact fun w dir h => h
  · intro w old new h
    refine writeTimeout_preserves env.conf.maxRetry Status.retriable _
      (fun r : Remote => ∀ obj, r.lookup path = some obj → obj.ftype = .dir) ?_ w.remote h
    intro i r hr
    by_cases hnew : path = new
    · subst hnew
      unfold dplFcopy
      cases r.lookup old with
      | none => exact hr
      | some obj =>
        simp only [hcopies old i, Bool.false_eq_true, if_false]
        exact hr
    · intro obj hobj
      rw [dplFcopy_lookup_ne _ _ _ _ _ hnew] at hobj
      exact hr obj hobj
  · intro w dir other junk h
    rw [World.OnlyDirectory, World.removeDirentOf_remote]
    exact h
  · intro w other h
    rw [World.OnlyDirectory, dfsUnlink_remote]
    refine writeTimeout_preserves env.conf.maxRetry Status.retriable _
      (fun r : Remote => ∀ obj, r.lookup path = some obj → obj.ftype = .dir) ?_ w.remote h
    intro i r hr obj hobj
    by_cases hother : path = other
    · subst hother
      unfold dplUnlink at hobj
      simp only at hobj
      split at hobj
      · rw [AList.lookup_erase] at hobj
        cases hobj
      · exact hr obj hobj
    · rw [dplUnlink_lookup_ne _ _ _ _ hother] at hobj
      exact hr obj hobj
  · intro w other h
    refine writeTimeout_preserves env.conf.maxRetry Status.retriable _
      (fun r : Remote => ∀ obj, r.lookup path = some obj → obj.ftype = .dir) ?_ w.remote h
    intro i r hr obj hobj
    unfold dplMkdir at hobj
    simp only at hobj
    split at hobj
    · by_cases hother : path = other
      · subst hother
        rw [AList.lookup_insert] at hobj
        rw [← Option.some.inj hobj]
      · rw [AList.lookup_insert_ne hother] at hobj
        exact hr obj hobj
    · exact hr obj hobj
  · intro w other h
    rw [World.OnlyDirectory, (dfsRmdir_quiet env w other (replies.rmdir other)).2]
    refine writeTimeout_preserves env.conf.maxRetry Status.retriable _
      (fun r : Remote => ∀ obj, r.lookup path = some obj → obj.ftype = .dir) ?_ w.remote h
    intro i r hr obj hobj
    unfold dplRmdir at hobj
    simp only at hobj
    split at hobj
    · simp only at hobj
      split at hobj
      · by_cases hother : path = other
        · subst hother
          rw [AList.lookup_erase] at hobj
          cases hobj
        · rw [AList.lookup_erase_ne hother] at hobj
          exact hr obj hobj
      · exact hr obj hobj
    · exact hr obj hobj

/-- Removing a directory that is not on the store leaves it so. -/
theorem dfsRmdirTimeout_absent {maxRetry : ℤ} {replies : ℕ → Reply} {r : Remote} (h : r.lookup path = none) :
    (dfsRmdirTimeout maxRetry replies path r).2.lookup path = none := by
  refine writeTimeout_preserves maxRetry Status.retriable _ (fun r => r.lookup path = none) ?_ r h
  intro i r hr
  unfold dplRmdir
  simp only [hr, Option.map_none, reduceCtorEq, if_false]

end Effects

section Rename

variable {env : Env} {w : World} {old new : CStr} {replies : RenameReplies}

/-- A file that is renamed with success, and could be unlinked after the copy, is gone. -/
theorem renameFile_gone
    (hunlink : (dfsFcopyTimeout env.conf.maxRetry (replies.fcopy old new) old new w.remote).1 = .success →
      (dfsUnlinkTimeout env.conf.maxRetry (replies.unlink old).unlink old
        (dfsFcopyTimeout env.conf.maxRetry (replies.fcopy old new) old new w.remote).2).1 = .success)
    (hret : (renameFile env w old new replies).1 ≠ -1) : (renameFile env w old new replies).2.Gone old := by
  unfold renameFile World.log at hret ⊢
  simp only at hret ⊢
  split at hret
  · exact absurd rfl hret
  · rename_i hcopied
    have hstatus := hunlink (not_not.mp hcopied)
    rw [if_neg hcopied]
    refine dfsUnlink_gone ?_
    rw [World.removeDirentOf_remote]
    exact hstatus

/-- A directory that is not on the store cannot be entered, so that its rename stops there. -/
theorem enterDirectory_absent (hroot : old ≠ "/".toList) (habsent : w.remote.lookup old = none) (hne : new ≠ old)
    {result : Except ℤ (Ftype × List CStr) × World} (henter : EnterOutcome env w old new replies result) :
    ∃ ret, result.1 = .error ret ∧ result.2.remote.lookup old = none := by
  have hmade : ∀ w₁ : World, w₁ = w ∨ w₁ = (dfsMkdir env w new (replies.mkdir new)).2 →
      w₁.remote.lookup old = none := by
    rintro w₁ (rfl | rfl)
    · exact habsent
    · exact (dfsMkdirTimeout_lookup_ne hne.symm).trans habsent
  have hblocked : ∀ w₁ : World, w₁.remote.lookup old = none →
      dfsChdirTimeout env.conf.maxRetry (replies.chdir old) old w₁.remote ≠ .success := by
    intro w₁ h₁
    refine dfsChdirTimeout_absent ?_
    rw [Remote.ftype, if_neg hroot, h₁, Option.map_none]
    exact fun h => by cases h
  cases henter with
  | refused h => exact ⟨_, rfl, hmade _ h⟩
  | notEntered h => exact ⟨_, rfl, hmade _ h⟩
  | notListed h hchdir => exact absurd hchdir (hblocked _ (hmade _ h))
  | listed h hchdir => exact absurd hchdir (hblocked _ (hmade _ h))

/-- A directory that can be entered and listed is entered unless its rename fails. -/
theorem enterDirectory_present (hroot : old ≠ "/".toList) (hdir : w.remote.ftype old = some .dir)
    (hcalls : ∀ r : Remote, r.ftype old = some .dir →
      dfsChdirTimeout env.conf.maxRetry (replies.chdir old) old r = .success ∧
      dfsOpendirTimeout env.conf.maxRetry (replies.opendir old) = .success)
    {ret : ℤ} {w₁ : World} (henter : EnterOutcome env w old new replies (.error ret, w₁)) : ret = -1 := by
  obtain ⟨obj, hobj, htype⟩ : ∃ obj, w.remote.lookup old = some obj ∧ obj.ftype = .dir := by
    rw [Remote.ftype, if_neg hroot] at hdir
    exact Option.map_eq_some_iff.mp hdir
  have hmade : ∀ w₁ : World, w₁ = w ∨ w₁ = (dfsMkdir env w new (replies.mkdir new)).2 →
      w₁.remote.ftype old = some .dir := by
    have hsome : ∀ r : Remote, r.lookup old = some obj → r.ftype old = some .dir := by
      intro r hr
      rw [Remote.ftype, if_neg hroot, hr, Option.map_some, htype]
    rintro w₁ (rfl | rfl)
    · exact hsome _ hobj
    · exact hsome _ (dfsMkdirTimeout_lookup hobj)
  cases henter with
  | refused => rfl
  | notEntered h hchdir => exact absurd (hcalls _ (hmade _ h)).1 hchdir
  | notListed h _ hopendir => exact absurd (hcalls _ (hmade _ h)).2 hopendir

/-- With the paths in strings of the caller, the strings in the ring do not matter. -/
theorem renameFileAt_caller (env : Env) (s : Renaming) (old new : CStr) (replies : RenameReplies) :
    (renameFileAt env s (.caller old) (.caller new) replies).1 = (renameFile env s.world old new replies).1 ∧
      (renameFileAt env s (.caller old) (.caller new) replies).2.world =
        (renameFile env s.world old new replies).2 := by
  unfold renameFileAt Ring.deref
  simp only
  split <;> exact ⟨rfl, rfl⟩

/-- The rename of a file, as `dfs_rename` calls it. -/
theorem renameFileAt_gone {s s' : Renaming} {ret : ℤ}
    (hunlink : (dfsFcopyTimeout env.conf.maxRetry (replies.fcopy old new) old new s.world.remote).1 = .success →
      (dfsUnlinkTimeout env.conf.maxRetry (replies.unlink old).unlink old
        (dfsFcopyTimeout env.conf.maxRetry (replies.fcopy old new) old new s.world.remote).2).1 = .success)
    (hne : ret ≠ -1) (h : renameFileAt env s (.caller old) (.caller new) replies = (ret, s')) :
    s'.world.Gone old := by
  obtain ⟨hvalue, hworld⟩ := renameFileAt_caller env s old new replies
  rw [h] at hvalue hworld
  rw [hworld]
  exact renameFile_gone hunlink (by rw [← hvalue]; exact hne)

/-- The rename of a directory over which nothing is copied, and which can be entered, listed and removed, or
is not there. -/
theorem renameDirectory_absent {depth : ℕ} {s s' : Renaming} {ret : ℤ} (hroot : old ≠ "/".toList)
    (hcopies : ∀ path i, (replies.fcopy path old i).applied = false)
    (hdirectory : (s.world.remote.lookup old = none ∧ new ≠ old) ∨
      s.world.remote.ftype old = some .dir ∧ ∀ r : Remote, r.ftype old = some .dir →
        dfsChdirTimeout env.conf.maxRetry (replies.chdir old) old r = .success ∧
        dfsOpendirTimeout env.conf.maxRetry (replies.opendir old) = .success ∧
        (dfsRmdirTimeout env.conf.maxRetry (replies.rmdir old).rmdir old r).1 = .success)
    (hne : ret ≠ -1) (h : renameDirectory env replies depth s (.caller old) (.caller new) = .done (ret, s')) :
    s'.world.remote.lookup old = none := by
  have hpreserves : RenamePreserves env replies fun w => w.OnlyDirectory old := onlyDirectory_preserves hcopies
  cases depth with
  | zero => cases h
  | succ depth =>
    simp only [renameDirectory] at h
    have henter := enterDirectory_outcome env s.world old new replies
    have honly := enterDirectory_preserves hpreserves.pieces s.world old new
    cases hresult : enterDirectory env s.world old new replies with
    | mk entered w₁ =>
      simp only [Ring.deref, hresult] at h
      rw [hresult] at henter honly
      rcases hdirectory with ⟨habsent, htarget⟩ | ⟨hdir, hcalls⟩
      · obtain ⟨ret', rfl, hgone⟩ := enterDirectory_absent hroot habsent htarget henter
        simp only [Exec.done.injEq, Prod.mk.injEq] at h
        rw [← h.2]
        exact hgone
      · cases entered with
        | error ret' =>
          obtain rfl := enterDirectory_present hroot hdir (fun r hr => ⟨(hcalls r hr).1, (hcalls r hr).2.1⟩) henter
          simp only [Exec.done.injEq, Prod.mk.injEq] at h
          exact absurd h.1.symm hne
        | ok listing =>
          obtain ⟨⟨ret₂, s₂⟩, hloop, hlast⟩ := Exec.bind_eq_done.mp h
          have honly₀ : s.world.OnlyDirectory old := by
            intro obj hobj
            rw [Remote.ftype, if_neg hroot, hobj] at hdir
            exact Option.some.inj hdir
          have honly₂ : s₂.world.OnlyDirectory old :=
            renameEntries_preserves hpreserves.pieces
              (fun s old new ret s' hs h => renameDirectory_preserves hpreserves.pieces depth s old new ret s' hs h)
              _ _ _ _ _ _ _ _ (by exact honly honly₀) hloop
          simp only [pure] at hlast
          split at hlast
          · simp only [Exec.done.injEq, Prod.mk.injEq] at hlast
            exact absurd hlast.1.symm hne
          · simp only [Exec.done.injEq, Prod.mk.injEq] at hlast
            rw [← hlast.2]
            simp only
            rw [(dfsRmdir_quiet env _ old (replies.rmdir old)).2]
            -- the last call removes the directory, if it is still there
            cases hlookup : s₂.world.remote.lookup old with
            | none => exact dfsRmdirTimeout_absent hlookup
            | some obj =>
              have htype : s₂.world.remote.ftype old = some .dir := by
                rw [Remote.ftype, if_neg hroot, hlookup, Option.map_some, honly₂ obj hlookup]
              exact dfsRmdirTimeout_gone (hcalls _ htype).2.2

/-- A rename that takes its path away leaves it gone. -/
theorem dfsRename_gone {depth : ℕ} {s s' : Renaming} {target : CStr} (hsound : s.world.Sound env)
    (hroot : old ≠ "/".toList)
    (haway : RenamesAway env s.world old (renameTarget old target) replies)
    (hrename : dfsRename env depth s old target replies = .done (0, s')) : s'.world.Gone old := by
  have hchanged := dfsRename_changed unset_counting.toToleratesErasing hsound hrename
  obtain ⟨⟨ret, s₁⟩, hcall, hdone⟩ := Exec.bind_eq_done.mp hrename
  simp only [pure, Exec.done.injEq, Prod.mk.injEq] at hdone
  obtain ⟨hret, rfl⟩ := hdone
  have hne : ret ≠ -1 := by
    intro heq
    rw [if_pos heq] at hret
    cases hret
  unfold renameByType at hcall
  split at hcall
  · rename_i htype
    exact renameFileAt_gone (haway.file htype) hne (Exec.done.inj hcall)
  · rename_i htype
    exact ⟨renameDirectory_absent hroot (haway.copies htype) (haway.directory htype) hne hcall,
      hchanged.unset (haway.unset htype)⟩
  · simp only [Exec.done.injEq, Prod.mk.injEq] at hcall
    exact absurd hcall.1.symm hne

end Rename

section Opening

variable {env : Env} {w w' : World} {path other : CStr}

/-- Storing an entry under a path leaves the entries of the other paths. -/
theorem World.put_entry_ne {addr : ℕ} (pe : Pentry)
    (hinj : ∀ addr', w.table other = some addr' → addr' ≠ addr) : (w.put addr pe).entry other = w.entry other := by
  unfold World.entry
  rw [World.put_table]
  cases hother : w.table other with
  | none => rfl
  | some addr' => exact World.put_heap_ne _ _ (hinj addr' hother)

/-- An open leaves the store alone. -/
theorem Found.remote {replies : OpenReplies} {addr : ℕ} {pe : Pentry} (h : Found w path replies addr w' pe) :
    w'.remote = w.remote := by
  rcases findOrPopulate_cases h.lookup with ⟨-, rfl⟩ | ⟨-, -, rfl⟩
  · rfl
  · rfl

/-- An open stores only the entry of its own path. -/
theorem Found.entry_ne {replies : OpenReplies} {addr : ℕ} {pe : Pentry} (h : Found w path replies addr w' pe)
    (hsound : w.Sound env) (hne : other ≠ path) (pe' : Pentry) (fs : LocalFs) :
    ({ w' with fs := fs }.put addr pe').entry other = w.entry other := by
  rcases findOrPopulate_cases h.lookup with ⟨htable, rfl⟩ | ⟨-, rfl, rfl⟩
  · refine World.put_entry_ne pe' fun addr' hother => ?_
    rintro rfl
    exact hne (hsound.table_inj other path _ hother htable)
  · refine (World.put_entry_ne pe' fun addr' hother => ?_).trans (World.insert_entry_ne _ hsound hne)
    simp only [World.insert, Function.update_of_ne hne] at hother
    exact Nat.ne_of_lt (hsound.table_lt other addr' hother)

/-- Opening a path leaves the store alone. -/
theorem dfsOpen_remote {flags : BitVec 32} {replies : OpenReplies} {opened : Opened}
    (h : dfsOpen env w path flags replies = .done opened) : opened.world.remote = w.remote := by
  cases dfsOpen_outcome h with
  | noEntry => rfl
  | lockFailed hfound => exact hfound.remote
  | failed hfound => exact hfound.remote
  | succeeded hfound => exact hfound.remote

/-- Opening a path leaves the entries of the other paths. -/
theorem dfsOpen_entry_ne {flags : BitVec 32} {replies : OpenReplies} {opened : Opened} (hsound : w.Sound env)
    (h : dfsOpen env w path flags replies = .done opened) (hne : other ≠ path) :
    opened.world.entry other = w.entry other := by
  cases dfsOpen_outcome h with
  | noEntry => rfl
  | @lockFailed addr w₁ _ pe' hfound => exact hfound.entry_ne hsound hne pe' w₁.fs
  | @failed addr _ _ pe' fs hfound => exact hfound.entry_ne hsound hne pe' fs
  | @succeeded addr _ _ pe' fs _ hfound => exact hfound.entry_ne hsound hne _ fs

/-- An entry has a new cache file. -/
structure OpenedEmpty (opened : Opened) (addr : ℕ) (pe : Pentry) : Prop where
  fh : opened.fh = some addr
  heap : opened.world.heap addr = some pe
  some_fd : 0 ≤ pe.fd
  content : opened.world.fs.fdContent pe.fd.toNat = some []

/-- The entry that an open of a path works on was not looked up if that of the path was not. -/
theorem Found.unset {replies : OpenReplies} {addr : ℕ} {pe : Pentry} (h : Found w path replies addr w' pe)
    (hunset : ∀ pe, w.entry path = some pe → pe.ondisk = .unset) : pe.ondisk = .unset := by
  rcases findOrPopulate_cases h.lookup with ⟨htable, rfl⟩ | ⟨-, rfl, rfl⟩
  · exact hunset pe (by rw [World.entry, htable]; exact h.heap)
  · have hnew := h.heap
    simp only [World.insert, Function.update_self, Option.some.injEq] at hnew
    rw [← hnew]
    rfl

/-- The entry that an open stores is then the entry of the path. -/
theorem Found.stored {replies : OpenReplies} {addr : ℕ} {pe pe' pe₁ : Pentry} {fs : LocalFs}
    (h : Found w path replies addr w' pe) (hentry : ({ w' with fs := fs }.put addr pe').entry path = some pe₁) :
    pe₁ = pe' := by
  rw [World.put_entry _ _ (by exact h.table)] at hentry
  exact (Option.some.inj hentry).symm

/-- Opening a path that is gone does not make lookups succeed, or makes a new cache file. -/
theorem dfsOpen_unset {flags : BitVec 32} {replies : OpenReplies} {opened : Opened} (hsound : w.Sound env)
    (hconsistent : ∀ addr pe, w.heap addr = some pe → pe.Consistent) (hgone : w.Gone path)
    (h : dfsOpen env w path flags replies = .done opened) :
    (∀ pe, opened.world.entry path = some pe → pe.ondisk = .unset) ∨
      CreatesLocal flags replies ∧ ∃ addr pe, OpenedEmpty opened addr pe := by
  cases dfsOpen_outcome h with
  | noEntry => exact .inl hgone.unset
  | @lockFailed addr w₁ pe pe' hfound _ _ hwait =>
    refine .inl fun pe₁ hentry => ?_
    rw [@Found.stored w w₁ path replies addr pe pe' pe₁ w₁.fs hfound hentry, (Pentry.decRefcount_eq hwait).1]
    have hunset := hfound.unset hgone.unset
    cases replies.semPost <;> exact hunset
  | @failed addr w₁ pe pe' fs hfound _ hcall =>
    refine .inl fun pe₁ hentry => ?_
    obtain ⟨fd, flag, metadata, digest, hpe'⟩ := openByMode_entry hcall
    rw [hfound.stored hentry, hpe']
    have hunset := hfound.unset hgone.unset
    simp only [Pentry.held, Pentry.incRefcount]
    split <;> split <;> exact hunset
  | @succeeded addr w₁ pe pe' fs ret hfound hlock hcall hne =>
    have hunset := hfound.unset hgone.unset
    have hremote := hfound.remote
    obtain ⟨hheld, -⟩ := pe.held_fd replies.semPost (getModeFromFlags flags)
    have hnone : pe.fd = -1 := by
      have hpe : pe.Consistent := by
        rcases findOrPopulate_cases hfound.lookup with ⟨-, rfl⟩ | ⟨-, rfl, rfl⟩
        · exact hconsistent addr pe hfound.heap
        · have hnew := hfound.heap
          simp only [World.insert, Function.update_self, Option.some.injEq] at hnew
          rw [← hnew]
          exact Pentry.made_consistent path replies.pathDup none
      refine hpe.usable.resolve_right fun hfd => ?_
      rw [hpe.ondisk.mpr hfd] at hunset
      cases hunset
    have husable : (pe.held replies.semPost (getModeFromFlags flags)).Usable := .inl (hheld.trans hnone)
    cases openByMode_outcome husable hcall with
    | failed => exact absurd rfl hne
    | kept _ hfd => omega
    | fetched _ _ _ _ hlookup =>
      rw [hremote, hgone.absent] at hlookup
      cases hlookup
    | @created _ name fd hcreat hname hopen =>
      refine .inr ⟨⟨hcreat, (hlock (by rw [hcreat]; decide)).1, ?_, ?_⟩, addr, _, rfl, World.put_heap_self .., ?_, ?_⟩
      · unfold buildCacheTree at hname
        split at hname
        · assumption
        · cases hname
      · intro hreply
        rw [hreply] at hopen
        cases hopen
      · exact Int.natCast_nonneg fd
      · exact LocalFs.openFile_trunc rfl hopen

/-- Creating a path leaves the entries of the other paths, and the objects of the other paths. -/
theorem dfsCreate_entry_ne {mode flags : BitVec 32} {replies : CreateReplies} {created : Opened}
    (hsound : w.Sound env) (h : dfsCreate env w path mode flags replies = .done created) (hne : other ≠ path) :
    created.world.entry other = w.entry other := by
  cases dfsCreate_outcome h with
  | refused => rfl
  | @noEntry opened _ hopen =>
    have hframe := dfsOpen_entry_ne hsound hopen hne
    exact hframe
  | @entry opened _ addr pe _ hopen hfh hheap hentry =>
    obtain ⟨-, fs, remote, trace, metadata, -, -, hworld⟩ := createEntry_frame hentry
    have htable := dfsOpen_table hopen hfh
    have hsound' := dfsOpen_sound hsound hopen
    rw [hworld]
    refine (World.put_entry_ne _ fun addr' hother => ?_).trans (dfsOpen_entry_ne hsound hopen hne)
    rintro rfl
    exact hne (hsound'.table_inj other path _ hother htable)

/-- `dfs_create` on an entry with a new cache file makes the object, unless the path is excluded. -/
theorem createEntry_remote {mode : BitVec 32} {replies : CreateReplies} {opened created : Opened} {addr : ℕ}
    {pe : Pentry} (hempty : OpenedEmpty opened addr pe) (hreply : replies.fstat ≠ none)
    (h : createEntry env opened.world addr pe path mode false replies = .done created) :
    created.world.remote = (dfsMknodTimeout env.conf.maxRetry replies.mknod path opened.world.remote).2 := by
  have hne : pe.fd ≠ -1 := by
    have hfd := hempty.some_fd
    omega
  unfold createEntry at h
  simp only [hne, if_false] at h
  split at h
  · rename_i hfailed
    obtain ⟨times, htimes⟩ := Option.ne_none_iff_exists'.mp hreply
    obtain ⟨st, hst⟩ := LocalFs.fstat_empty times hempty.some_fd hempty.content
    rw [htimes, World.put_fs, hst] at hfailed
    cases hfailed
  · unfold createObject at h
    simp only at h
    split at h
    · cases h
    · simp only [Bool.false_eq_true, if_false] at h
      obtain rfl := Exec.done.inj h
      rfl

/-- Creating a path that is gone does not make lookups succeed, or makes its object, or makes a cache file
only. -/
theorem dfsCreate_unset {mode flags : BitVec 32} {replies : CreateReplies} {created : Opened} (hsound : w.Sound env)
    (hconsistent : ∀ addr pe, w.heap addr = some pe → pe.Consistent) (hgone : w.Gone path)
    (hguard : CreatesLocal flags replies.opening → CreateRefused env w path mode replies ∨
      reMatcher env.conf.regex path = false ∧ replies.fstat ≠ none ∧
        (dfsMknodTimeout env.conf.maxRetry replies.mknod path w.remote).2.lookup path ≠ none)
    (h : dfsCreate env w path mode flags replies = .done created) (habsent : created.world.remote.lookup path = none) :
    ∀ pe, created.world.entry path = some pe → pe.ondisk = .unset := by
  cases dfsCreate_outcome h with
  | refused => exact hgone.unset
  | noEntry _ hopen hfh =>
    rcases dfsOpen_unset hsound hconsistent hgone hopen with hunset | ⟨-, addr, pe, hempty⟩
    · exact hunset
    · cases hfh.symm.trans hempty.fh
  | @entry opened _ addr pe hnot hopen hfh hheap hentry =>
    rcases dfsOpen_unset hsound hconsistent hgone hopen with hunset | ⟨hlocal, addr', pe', hempty⟩
    · obtain ⟨-, fs, remote, trace, metadata, -, -, hworld⟩ := createEntry_frame hentry
      have htable := dfsOpen_table hopen hfh
      intro pe₁ hentry₁
      rw [hworld, World.put_entry _ _ (by exact htable)] at hentry₁
      rw [← Option.some.inj hentry₁]
      exact hunset pe (by rw [World.entry, htable]; exact hheap)
    · obtain rfl := Option.some.inj (hfh.symm.trans hempty.fh)
      obtain rfl := Option.some.inj (hheap.symm.trans hempty.heap)
      obtain ⟨hincluded, hreply, hmade⟩ := (hguard hlocal).resolve_left hnot
      rw [hincluded] at hentry
      rw [createEntry_remote hempty hreply hentry, dfsOpen_remote hopen] at habsent
      exact absurd habsent hmade

end Opening

section Step

variable {env : Env} {s s' : Session} {op : Op} {path : CStr}

/-- An entry that a request makes was not looked up yet. -/
theorem World.Added.unset {w w' : World} {other : CStr} {pe : Pentry} (h : w.Added other pe w') (hsound : w.Sound env)
    (hpe : pe.ondisk = .unset) (hunset : ∀ pe, w.entry path = some pe → pe.ondisk = .unset) :
    ∀ pe, w'.entry path = some pe → pe.ondisk = .unset := by
  cases h with
  | same => exact hunset
  | more =>
    intro pe' hentry
    by_cases hpath : path = other
    · rw [hpath, World.insert_entry_self] at hentry
      rw [← Option.some.inj hentry]
      exact hpe
    · rw [World.insert_entry_ne pe hsound hpath] at hentry
      exact hunset pe' hentry

/-- A lookup of any path leaves the entry of a path that is gone as one that was not looked up. -/
theorem dfsGetattr_unset {w : World} {other : CStr} {replies : GetattrReplies} {looked : Lookup} (hsound : w.Sound env)
    (hgone : w.Gone path) (hroot : path ≠ "/".toList) (h : dfsGetattr env w other replies = .done looked) :
    ∀ pe, looked.world.entry path = some pe → pe.ondisk = .unset := by
  have hfails := fun hsame : other = path => hgone.lookup_fails hroot (hsame ▸ h)
  cases dfsGetattr_outcome h with
  | root => exact hgone.unset
  | noEntry => exact hgone.unset
  | @entry addr w₁ pe looked₁ _ hentry hheap hbranch =>
    have houtcome := getattrByPlaceholder_outcome hbranch
    have hadded : w.Added other (.made other replies.pathDup none) w₁ := by
      cases hentry with
      | found => exact .same
      | made hnone => exact .more hnone
    intro pe' hentry'
    obtain ⟨addr', htable', hheap'⟩ : ∃ addr', (looked₁.world.touch addr replies.now).table path = some addr' ∧
        (looked₁.world.touch addr replies.now).heap addr' = some pe' := Option.bind_eq_some_iff.mp hentry'
    rw [(World.touch_quiet looked₁.world addr replies.now).table, houtcome.table] at htable'
    have hother : addr' ≠ addr ∨ looked₁.ret ≠ 0 := by
      by_cases hsame : other = path
      · exact .inr (hfails hsame)
      · exact .inl (hentry.other hsound (Ne.symm hsame) htable').2.1
    have hmap := houtcome.map_eq hheap Pentry.ondisk (fun _ _ _ => rfl) (fun _ _ => rfl) hother
    rw [← looked₁.world.touch_map addr addr' replies.now Pentry.ondisk fun _ _ => rfl, hheap', Option.map_some] at hmap
    obtain ⟨pe₀, hheap₀, heq⟩ := Option.map_eq_some_iff.mp hmap.symm
    rw [← heq]
    exact hadded.unset hsound rfl hgone.unset pe₀ (by rw [World.entry, htable']; exact hheap₀)

/-- A request that leaves nothing that answers lookups keeps a path that is gone from being looked up, unless
it recreates it. -/
theorem Session.step_unset {gone : List CStr} (hsound : s.world.Sound env)
    (hconsistent : ∀ addr pe, s.world.heap addr = some pe → pe.Consistent) (hgone : s.world.Gone path)
    (hroot : path ≠ "/".toList) (hmem : path ∈ gone) (hguard : RemovesFully env (s, gone) op)
    (hstep : s.step env op = .done s') (habsent : s'.world.remote.lookup path = none) :
    ∀ pe, s'.world.entry path = some pe → pe.ondisk = .unset := by
  cases op with
  | getattr other replies =>
    obtain ⟨looked, hcall, hdone⟩ := Exec.bind_eq_done.mp hstep
    obtain rfl := Exec.done.inj hdone
    exact dfsGetattr_unset hsound hgone hroot hcall
  | opendir other replies =>
    obtain rfl := Exec.done.inj hstep
    exact (dfsOpendir_added env s.world other replies).unset hsound rfl hgone.unset
  | create other mode flags replies =>
    obtain ⟨created, hcall, hdone⟩ := Exec.bind_eq_done.mp hstep
    obtain rfl := Exec.done.inj hdone
    by_cases hother : path = other
    · subst hother
      exact dfsCreate_unset hsound hconsistent hgone (hguard hmem) hcall habsent
    · intro pe hentry
      exact hgone.unset pe ((dfsCreate_entry_ne hsound hcall hother).symm.trans hentry)
  | «open» other flags replies =>
    obtain ⟨opened, hcall, hdone⟩ := Exec.bind_eq_done.mp hstep
    obtain rfl := Exec.done.inj hdone
    by_cases hother : path = other
    · subst hother
      exact (dfsOpen_unset hsound hconsistent hgone hcall).resolve_right fun hlocal => hguard hmem hlocal.1
    · intro pe hentry
      exact hgone.unset pe ((dfsOpen_entry_ne hsound hcall hother).symm.trans hentry)
  | mkdir | mknod | read | write | release | unlink | rmdir | rename | gc =>
    exact (Session.step_reduced unset_counting hsound rfl hstep).unset hgone.unset

/-- A request that removes a path and leaves nothing that answers lookups leaves the path gone. -/
theorem Session.removesPath_gone {gone : List CStr} (hsound : s.world.Sound env)
    (hguard : RemovesFully env (s, gone) op) (hstep : s.step env op = .done s')
    (hremoves : s.removesPath env op = some path) : path ≠ "/".toList ∧ s'.world.Gone path := by
  cases op with
  | unlink other replies =>
    simp only [removesPath] at hremoves
    split at hremoves
    · rename_i hret
      obtain rfl := Option.some.inj hremoves
      obtain rfl := Exec.done.inj hstep
      have hstatus := (dfsUnlink_ret other replies).mp hret
      exact ⟨hguard hstatus, dfsUnlink_gone hstatus⟩
    · cases hremoves
  | rmdir other replies =>
    simp only [removesPath] at hremoves
    split at hremoves
    · rename_i hret
      obtain rfl := Option.some.inj hremoves
      obtain rfl := Exec.done.inj hstep
      have hstatus := (dfsRmdir_ret other replies).mp hret
      obtain ⟨hroot, hunset⟩ := hguard hstatus
      exact ⟨hroot, dfsRmdir_gone (dfsRmdirTimeout_gone hstatus) hunset⟩
    · cases hremoves
  | rename depth ring old new replies =>
    obtain ⟨⟨ret, renamed⟩, hcall, hdone⟩ := Exec.bind_eq_done.mp hstep
    obtain rfl := Exec.done.inj hdone
    have hold : path = old ∧ ret = 0 := by
      simp only [removesPath, hcall] at hremoves
      split at hremoves
      · rename_i hret
        exact ⟨(Option.some.inj hremoves).symm, hret.1⟩
      · cases hremoves
    obtain ⟨rfl, rfl⟩ := hold
    obtain ⟨hroot, haway⟩ := hguard hremoves
    exact ⟨hroot, dfsRename_gone hsound hroot haway hcall⟩
  | getattr | opendir | create | «open» | mkdir | mknod | read | write | release | gc => cases hremoves

end Step

/-- The removals reached by requests that all meet a guard, from nothing removed. -/
def Removals.Reached (env : Env) (guard : Removals → Op → Prop) : Removals → Prop :=
  GuardedRuns.Reaches (GuardedRuns.recorded (Session.step env) (Session.noteGone env)) guard
    fun t => t.1.Initial ∧ t.2 = []

/-- In every run that leaves nothing that answers lookups of a removed path, the recorded paths are gone. -/
theorem Removals.Reached.gone {env : Env} {t : Removals} (h : Removals.Reached env (RemovesFully env) t) :
    ∀ path ∈ t.2, path ≠ "/".toList ∧ t.1.world.Gone path := by
  refine GuardedRuns.Reaches.invariant
    (fun t : Removals => ∀ path ∈ t.2, path ≠ "/".toList ∧ t.1.world.Gone path) ?_ ?_ h
  · rintro t ⟨-, hnothing⟩ path hmem
    rw [hnothing] at hmem
    cases hmem
  · intro t op t' hreached hgone hguard hstep path hmem
    obtain ⟨hnext, hnoted⟩ := GuardedRuns.recorded_eq_done.mp hstep
    have hsound : t.1.world.Sound env := Session.Reached.sound hreached.unrecorded
    rw [hnoted] at hmem
    rcases List.mem_append.mp hmem with hnew | hold
    · exact Session.removesPath_gone hsound hguard hnext (Option.mem_toList.mp hnew)
    · obtain ⟨hmem', hkept⟩ := List.mem_filter.mp hold
      obtain ⟨hroot, hbefore⟩ := hgone path hmem'
      have habsent : t'.1.world.remote.lookup path = none := by
        simpa [Recreated, hbefore.absent] using hkept
      exact ⟨hroot, habsent, Session.step_unset hsound (Session.Reached.consistent hreached.unrecorded) hbefore hroot
        hmem' hguard hnext habsent⟩

/-- In every run that leaves nothing that answers lookups of a removed path, such lookups fail until the path is
recreated on the store. -/
theorem reached_removals_right {env : Env} {t : Removals} (h : Removals.Reached env (RemovesFully env) t) :
    t.Right env := by
  intro path hmem replies looked hcall
  obtain ⟨hroot, hgone⟩ := h.gone path hmem
  exact hgone.lookup_fails hroot hcall

/-- A file that was looked up and unlinked is not found. -/
theorem reached_removals_right_unlink :
    ∃ t : Removals, "/f".toList ∈ t.2 ∧ t.Right Env.plain := by
  have hreached : ∃ t : Removals, "/f".toList ∈ t.2 ∧ Removals.Reached Env.plain (RemovesFully Env.plain) t := by
    refine ⟨_, ?_, .step (i := .unlink "/f".toList ⟨fun _ => .granted, true, .reg⟩)
      (.step (s := (.start .empty (.file "/f".toList [65]), [])) (i := .getattr "/f".toList .granted)
        (.start ⟨Session.start_initial .., rfl⟩) trivial rfl) (fun _ => by decide) rfl⟩
    decide
  obtain ⟨t, hmem, h⟩ := hreached
  exact ⟨t, hmem, reached_removals_right h⟩

/-- A directory with metadata that was looked up and removed is still found. -/
theorem removed_directory_found :
    ∃ t : Removals, Removals.Reached Env.plain GuardedRuns.unguarded t ∧ ¬ t.Right Env.plain := by
  refine ⟨_, .step (i := .rmdir "/d".toList ⟨fun _ => .granted, .reg⟩)
    (.step (i := .getattr "/d".toList .granted)
      (s := (.start .empty ((∅ : Remote).insert "/d".toList
        ⟨.dir, [], some (Dict.new.updateValue "mode".toList "16877".toList), none⟩), []))
      (.start ⟨Session.start_initial .., rfl⟩) trivial rfl) trivial rfl, fun hright => ?_⟩
  exact hright "/d".toList (by decide) .granted _ rfl rfl

end Dropletfs
