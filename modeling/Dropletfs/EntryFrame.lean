import Dropletfs.Collect
import Dropletfs.Lookup
import Dropletfs.Objects
import Dropletfs.Open

/-!
# What a call leaves alone in the table

Looking paths up and keeping lists of directory entries changes neither the local files nor
the part of an entry that opening, releasing and collecting decide on. A new entry starts
out without a descriptor, unlocked and unreferenced. Removing a path destroys one entry.
-/

namespace Dropletfs

/-- The part of an entry that opening, releasing and collecting decide on. -/
structure Core where
  fd : ℤ
  path : Option CStr
  locked : Bool
  refcount : ℕ
  flag : Flag
  exclude : Bool

/-- The core of an entry. -/
def Pentry.core (pe : Pentry) : Core := ⟨pe.fd, pe.path, pe.locked, pe.refcount, pe.flag, pe.exclude⟩

/-- The core of an entry that was just made. -/
structure Pentry.Fresh (pe : Pentry) : Prop where
  fd : pe.fd = -1
  locked : pe.locked = false
  refcount : pe.refcount = 0
  exclude : pe.exclude = false

namespace World

/-- Neither the local files nor the core of any entry has changed. -/
structure Quiet (w w' : World) : Prop where
  fs : w'.fs = w.fs
  table : w'.table = w.table
  nextAddr : w'.nextAddr = w.nextAddr
  core : ∀ addr, (w'.heap addr).map Pentry.core = (w.heap addr).map Pentry.core

/-- The table has the same entries, or one more, which is fresh. -/
inductive Grown (w : World) (path : CStr) : World → Prop
  | same : Grown w path w
  | more {pe : Pentry} : w.table path = none → pe.Fresh → Grown w path (w.insert path pe).2

namespace Quiet

variable {w w₁ w₂ : World}

/-- Nothing has changed. -/
theorem refl (w : World) : Quiet w w := ⟨rfl, rfl, rfl, fun _ => rfl⟩

/-- One quiet change after another. -/
theorem trans (h₁ : Quiet w w₁) (h₂ : Quiet w₁ w₂) : Quiet w w₂ where
  fs := h₂.fs.trans h₁.fs
  table := h₂.table.trans h₁.table
  nextAddr := h₂.nextAddr.trans h₁.nextAddr
  core addr := (h₂.core addr).trans (h₁.core addr)

/-- Storing an entry with the same core. -/
theorem put {addr : ℕ} {pe pe' : Pentry} (hheap : w.heap addr = some pe) (hcore : pe'.core = pe.core) :
    Quiet w (w.put addr pe') where
  fs := rfl
  table := rfl
  nextAddr := rfl
  core := by
    intro other
    by_cases hother : other = addr
    · subst hother
      rw [put_heap_self, hheap, Option.map_some, Option.map_some, hcore]
    · rw [put_heap_ne _ _ hother]

/-- Changing an entry without changing its core. -/
theorem modify (w : World) (addr : ℕ) {change : Pentry → Pentry} (hchange : ∀ pe, (change pe).core = pe.core) :
    Quiet w (w.modify addr change) := by
  unfold World.modify
  split
  · exact refl w
  · rename_i pe hheap
    exact put hheap (hchange pe)

/-- An entry that is there after a quiet change was there before, with the same core. -/
theorem heap_after (h : Quiet w w₁) {addr : ℕ} {pe' : Pentry} (hheap : w₁.heap addr = some pe') :
    ∃ pe, w.heap addr = some pe ∧ pe'.core = pe.core := by
  have hcore := h.core addr
  rw [hheap] at hcore
  cases hbefore : w.heap addr with
  | none => simp [hbefore] at hcore
  | some pe => exact ⟨pe, rfl, by simpa [hbefore] using hcore⟩

/-- An entry that is there before a quiet change is there after it, with the same core. -/
theorem heap_before (h : Quiet w w₁) {addr : ℕ} {pe : Pentry} (hheap : w.heap addr = some pe) :
    ∃ pe', w₁.heap addr = some pe' ∧ pe'.core = pe.core := by
  have hcore := h.core addr
  rw [hheap] at hcore
  cases hafter : w₁.heap addr with
  | none => simp [hafter] at hcore
  | some pe' => exact ⟨pe', rfl, by simpa [hafter] using hcore⟩

/-- What is not there stays away. -/
theorem heap_none (h : Quiet w w₁) {addr : ℕ} (hheap : w.heap addr = none) : w₁.heap addr = none := by
  have hcore := h.core addr
  rw [hheap] at hcore
  simpa using hcore

end Quiet

/-- A change that keeps what a function reads of an entry keeps it of every entry. -/
theorem modify_map {α : Type} (w : World) (addr other : ℕ) {change : Pentry → Pentry} (f : Pentry → α)
    (hchange : ∀ pe, f (change pe) = f pe) :
    ((w.modify addr change).heap other).map f = (w.heap other).map f := by
  unfold modify
  split
  · rfl
  · rename_i pe hheap
    by_cases hother : other = addr
    · rw [hother, put_heap_self, hheap, Option.map_some, Option.map_some, hchange]
    · rw [put_heap_ne _ _ hother]

/-- What a function reads of an entry besides its list survives changes to lists of directories. -/
theorem fillDirent_map {α : Type} (w : World) (path : CStr) (reply : Bool) (addr : ℕ) (f : Pentry → α)
    (hf : ∀ pe dirent, f { pe with dirent := dirent } = f pe) :
    ((w.fillDirent path reply).heap addr).map f = (w.heap addr).map f := by
  unfold fillDirent
  split
  · rfl
  · refine modify_map w _ _ f fun pe => ?_
    unfold Pentry.addDirent
    split
    · exact hf pe _
    · rfl

/-- Removing a path from the list of a directory is quiet. -/
theorem removeDirentOf_quiet (w : World) (dir : Option CStr) (path : CStr) (junk : Filetype) :
    Quiet w (w.removeDirentOf dir path junk) := by
  unfold removeDirentOf
  split
  · exact .refl w
  · refine .modify w _ fun pe => ?_
    unfold Pentry.removeDirent
    split <;> rfl

/-- Removing a path from the list of a directory concerns neither the store nor the open paths. -/
theorem removeDirentOf_remote (w : World) (dir : Option CStr) (path : CStr) (junk : Filetype) :
    (w.removeDirentOf dir path junk).remote = w.remote := by
  unfold removeDirentOf
  split
  · rfl
  · unfold modify
    split <;> rfl

/-- Removing a path leaves the other paths in the table. -/
theorem remove_table {w : World} {path other : CStr} {addr : ℕ} (h : (w.remove path).table other = some addr) :
    w.table other = some addr := by
  have htable : ∀ addr', (({ w with table := Function.update w.table path none } : World).free addr').table =
      Function.update w.table path none := by
    intro addr'
    unfold free
    split <;> rfl
  unfold remove at h
  split at h
  · exact h
  · rw [htable, Function.update_apply] at h
    split at h
    · cases h
    · exact h

/-- A path that was removed has no entry. -/
theorem remove_table_self (w : World) (path : CStr) : (w.remove path).table path = none := by
  cases htable : w.table path with
  | none => simp only [remove, htable]
  | some addr =>
    cases hheap : w.heap addr with
    | none => simp only [remove, htable, free, hheap, Function.update_self]
    | some pe => simp only [remove, htable, free, hheap, Function.update_self]

/-- Removing a path does not concern the store. -/
theorem remove_remote (w : World) (path : CStr) : (w.remove path).remote = w.remote := by
  unfold remove free
  split
  · rfl
  · split <;> rfl

/-- Removing a path closes the descriptor of its entry and changes nothing else in the local files. -/
theorem remove_fs (w : World) (path : CStr) :
    (w.remove path).fs.names = w.fs.names ∧ (w.remove path).fs.inodes = w.fs.inodes ∧
      ∀ fd, (∀ addr pe, w.table path = some addr → w.heap addr = some pe → 0 ≤ pe.fd → pe.fd.toNat ≠ fd) →
        (w.remove path).fs.files fd = w.fs.files fd := by
  unfold remove
  split
  · exact ⟨rfl, rfl, fun _ _ => rfl⟩
  · rename_i addr htable
    unfold free
    split
    · exact ⟨rfl, rfl, fun _ _ => rfl⟩
    · rename_i pe hheap
      simp only
      split
      · rename_i hpos
        refine ⟨rfl, rfl, fun fd hother => ?_⟩
        exact Function.update_of_ne (hother addr pe htable hheap hpos).symm _ _
      · exact ⟨rfl, rfl, fun _ _ => rfl⟩

/-- Adding a path to the list of its directory is quiet. -/
theorem fillDirent_quiet (w : World) (path : CStr) (reply : Bool) : Quiet w (w.fillDirent path reply) := by
  unfold fillDirent
  split
  · exact .refl w
  · refine .modify w _ fun pe => ?_
    unfold Pentry.addDirent
    split <;> rfl

/-- Adding a path to the list of its directory does not concern the store. -/
theorem fillDirent_remote (w : World) (path : CStr) (reply : Bool) :
    (w.fillDirent path reply).remote = w.remote := by
  unfold fillDirent
  split
  · rfl
  · unfold modify
    split <;> rfl

end World

/-- Finding or making an entry grows the table at most. -/
theorem findOrPopulate_grown {w w' : World} {path : CStr} {replies : OpenReplies} {addr : ℕ}
    (h : findOrPopulate w path replies = some (addr, w')) : w.Grown path w' := by
  rcases findOrPopulate_cases h with ⟨-, rfl⟩ | ⟨hnone, -, rfl⟩
  · exact .same
  · exact .more hnone ⟨rfl, rfl, rfl, rfl⟩

/-- The file type does not belong to the core. -/
theorem Pentry.setFiletypeFromStat_core (pe : Pentry) (st : Stat) : (pe.setFiletypeFromStat st).core = pe.core := by
  unfold setFiletypeFromStat
  split
  · rfl
  · split
    · rfl
    · split <;> rfl

/-- Answering a lookup from the store or from an entry changes the store not at all and the table
quietly. -/
theorem getattrUnset_quiet {env : Env} {w : World} {addr : ℕ} {pe : Pentry} {path : CStr} {st : Stat}
    {replies : GetattrReplies} {looked : Lookup} (hheap : w.heap addr = some pe)
    (h : getattrUnset env w addr pe path st replies = .done looked) :
    w.Quiet looked.world ∧ looked.world.remote = w.remote := by
  have hsettled : ∀ pe' st, pe'.core = pe.core →
      w.Quiet (getattrSettled w addr pe' path st replies).world ∧
        (getattrSettled w addr pe' path st replies).world.remote = w.remote := by
    intro pe' st hcore
    constructor
    · exact (World.Quiet.put hheap ((pe'.setFiletypeFromStat_core st).trans hcore)).trans
        (World.fillDirent_quiet _ _ _)
    · exact World.fillDirent_remote _ _ _
  unfold getattrUnset at h
  split at h
  · simp only at h
    split at h
    · obtain rfl := Exec.done.inj h
      exact ⟨.refl w, rfl⟩
    · split at h
      · obtain rfl := Exec.done.inj h
        exact hsettled pe _ rfl
      · rename_i dict _
        obtain ⟨metadata, hmetadata⟩ := pe.setMetadata_eq dict replies.setMetadata
        rw [hmetadata] at h
        split at h
        · obtain rfl := Exec.done.inj h
          exact ⟨.refl w, rfl⟩
        · split at h
          · cases h
          · split at h
            · obtain rfl := Exec.done.inj h
              exact ⟨.put hheap rfl, rfl⟩
            · obtain rfl := Exec.done.inj h
              exact hsettled _ _ rfl
  · obtain rfl := Exec.done.inj h
    exact ⟨.refl w, rfl⟩

/-- A lookup on an entry is quiet. -/
theorem getattrEntry_quiet {env : Env} {w : World} {addr : ℕ} {pe : Pentry} {path : CStr}
    {replies : GetattrReplies} {looked : Lookup} (hheap : w.heap addr = some pe)
    (h : getattrEntry env w addr pe path replies = .done looked) :
    w.Quiet looked.world ∧ looked.world.remote = w.remote := by
  obtain ⟨looked₁, hcall, hdone⟩ := Exec.bind_eq_done.mp h
  obtain rfl := Exec.done.inj hdone
  have hcall' : w.Quiet looked₁.world ∧ looked₁.world.remote = w.remote := by
    unfold getattrByPlaceholder at hcall
    split at hcall
    · unfold getattrRemote at hcall
      split at hcall
      · obtain rfl := Exec.done.inj hcall
        exact ⟨.refl w, rfl⟩
      · split at hcall
        · cases hcall
        · simp only at hcall
          split at hcall
          · obtain rfl := Exec.done.inj hcall
            exact ⟨.put hheap rfl, rfl⟩
          · obtain rfl := Exec.done.inj hcall
            exact ⟨.refl w, rfl⟩
    · unfold getattrLocal at hcall
      split at hcall
      · obtain rfl := Exec.done.inj hcall
        exact ⟨.refl w, rfl⟩
      · split at hcall <;> obtain rfl := Exec.done.inj hcall <;> exact ⟨.refl w, rfl⟩
    · exact getattrUnset_quiet hheap hcall
  constructor
  · exact hcall'.1.trans (.modify _ _ fun _ => rfl)
  · simp only [World.modify]
    split <;> exact hcall'.2

/-- `dfs_getattr` makes an entry for the path if there is none, and is quiet apart from that. -/
theorem dfsGetattr_grown {env : Env} {w : World} {path : CStr} {replies : GetattrReplies} {looked : Lookup}
    (h : dfsGetattr env w path replies = .done looked) :
    looked.world.remote = w.remote ∧ ∃ w₁, w.Grown path w₁ ∧ w₁.Quiet looked.world := by
  unfold dfsGetattr at h
  simp only at h
  split at h
  · obtain rfl := Exec.done.inj h
    exact ⟨rfl, w, .same, .refl w⟩
  · split at h
    · rename_i addr _
      split at h
      · cases h
      · rename_i pe hheap
        obtain ⟨hquiet, hremote⟩ := getattrEntry_quiet hheap h
        exact ⟨hremote, w, .same, hquiet⟩
    · rename_i hnone
      split at h
      · obtain rfl := Exec.done.inj h
        exact ⟨rfl, w, .same, .refl w⟩
      · obtain ⟨hquiet, hremote⟩ := getattrEntry_quiet (Function.update_self ..) h
        exact ⟨hremote, _, .more hnone ⟨rfl, rfl, rfl, rfl⟩, hquiet⟩

/-- `dfs_opendir` makes an entry for the path if there is none. -/
theorem dfsOpendir_grown (env : Env) (w : World) (path : CStr) (replies : OpendirReplies) :
    w.Grown path (dfsOpendir env w path replies).2 := by
  unfold dfsOpendir
  simp only
  split
  · exact .same
  · split
    · exact .same
    · rename_i hnone
      split
      · exact .same
      · exact .more hnone ⟨rfl, rfl, rfl, rfl⟩

/-- The state once `dfs_unlink` has removed the object and the cache file. -/
def World.unlinked (env : Env) (w : World) (path : CStr) (replies : UnlinkReplies) : World :=
  { w with
    fs := w.fs.unlink (cacheName env.conf path) replies.unlinkCache
    remote := (dfsUnlinkTimeout env.conf.maxRetry replies.unlink path w.remote).2
    trace := w.trace ++ [.unlink path] }

/-- The ways `dfs_unlink` can end: the object could not be removed, or it was and the table had no
entry for the path, or had one, which is destroyed. -/
inductive UnlinkOutcome (env : Env) (w : World) (path : CStr) (replies : UnlinkReplies) :
    ℤ × World → Prop
  | failed : (dfsUnlinkTimeout env.conf.maxRetry replies.unlink path w.remote).1 ≠ .success →
      UnlinkOutcome env w path replies (1, { w with
        remote := (dfsUnlinkTimeout env.conf.maxRetry replies.unlink path w.remote).2
        trace := w.trace ++ [.unlink path] })
  | absent : (dfsUnlinkTimeout env.conf.maxRetry replies.unlink path w.remote).1 = .success →
      w.table path = none → UnlinkOutcome env w path replies (0, w.unlinked env path replies)
  | destroyed {addr : ℕ} {w' : World} :
      (dfsUnlinkTimeout env.conf.maxRetry replies.unlink path w.remote).1 = .success →
      w.table path = some addr → World.Quiet ((w.unlinked env path replies).remove path) w' →
      w'.remote = (dfsUnlinkTimeout env.conf.maxRetry replies.unlink path w.remote).2 →
      UnlinkOutcome env w path replies (0, w')

/-- `dfs_unlink` ends in one of these ways. -/
theorem dfsUnlink_outcome (env : Env) (w : World) (path : CStr) (replies : UnlinkReplies) :
    UnlinkOutcome env w path replies (dfsUnlink env w path replies) := by
  unfold dfsUnlink
  simp only
  split
  · rename_i hstatus
    exact .failed hstatus
  · rename_i hstatus
    simp only [ne_eq, not_not] at hstatus
    split
    · rename_i hnone
      exact .absent hstatus hnone
    · rename_i addr htable
      refine .destroyed hstatus htable (World.removeDirentOf_quiet _ _ _ _) ?_
      rw [World.removeDirentOf_remote, World.remove_remote]
      rfl

/-- `dfs_rmdir` is quiet. -/
theorem dfsRmdir_quiet (env : Env) (w : World) (path : CStr) (replies : RmdirReplies) :
    w.Quiet (dfsRmdir env w path replies).2 ∧
      (dfsRmdir env w path replies).2.remote = (dfsRmdirTimeout env.conf.maxRetry replies.rmdir path w.remote).2 := by
  unfold dfsRmdir
  simp only
  split
  · exact ⟨⟨rfl, rfl, rfl, fun _ => rfl⟩, rfl⟩
  · split
    · exact ⟨⟨rfl, rfl, rfl, fun _ => rfl⟩, rfl⟩
    · constructor
      · refine World.Quiet.trans ?_ (World.removeDirentOf_quiet _ _ _ _)
        exact ⟨rfl, rfl, rfl, fun _ => rfl⟩
      · exact World.removeDirentOf_remote ..

/-- The ways `gc_callback` can end: the entry is left alone, or its mutex was taken and given back or
kept, or it is destroyed with its cache file. -/
inductive GcOutcome (env : Env) (w : World) (path : CStr) (replies : GcReplies) : World → Prop
  | untouched : GcOutcome env w path replies w
  | kept {addr : ℕ} {pe : Pentry} : w.table path = some addr → w.heap addr = some pe → pe.refcount = 0 →
      pe.locked = false →
      GcOutcome env w path replies (w.put addr { pe with locked := if replies.unlock then false else true })
  | collected {addr : ℕ} {pe : Pentry} : w.table path = some addr → w.heap addr = some pe →
      pe.refcount = 0 → pe.locked = false → pe.fd ≠ -1 →
      GcOutcome env w path replies (w.collect env.conf path replies.unlinkCache)

/-- `gc_callback` ends in one of these ways. -/
theorem gcCallback_outcome {env : Env} {w w' : World} {path : CStr} {replies : GcReplies}
    (h : gcCallback env w path replies = .done w') : GcOutcome env w path replies w' := by
  unfold gcCallback at h
  split at h
  · obtain rfl := Exec.done.inj h
    exact .untouched
  · rename_i addr htable
    split at h
    · cases h
    · rename_i pe hheap
      split at h
      · obtain rfl := Exec.done.inj h
        exact .untouched
      · rename_i hrefcount
        simp only [ne_eq, not_not] at hrefcount
        split at h
        · obtain rfl := Exec.done.inj h
          exact .untouched
        · rename_i hlocked
          simp only [not_or, Bool.not_eq_true] at hlocked
          obtain rfl := Exec.done.inj h
          unfold gcExamine
          simp only
          split
          · exact .kept htable hheap hrefcount hlocked.1
          · rename_i hfd
            split
            · exact .collected htable hheap hrefcount hlocked.1 hfd
            · split
              · exact .collected htable hheap hrefcount hlocked.1 hfd
              · exact .kept htable hheap hrefcount hlocked.1

end Dropletfs
