import Dropletfs.Trees

/-!
# Renaming a directory tree

When no call fails, a rename by path goes through the tree in the order of its listings: each
file is moved, and each directory is removed after what it held. It is defined exactly as long
as no directory below the one that is renamed formats a round of strings, and so far the rename
with its strings in the ring works on the right paths.
-/

namespace Dropletfs

open Interleaving (entryPath)
open PathOrder

/-- A call to one of the functions that move files and remove directories. -/
def Event.isCall : Event → Bool
  | .renameFile _ _ => true
  | .dfsRmdir _ => true
  | _ => false

/-- The calls that were made to these functions. -/
def World.calls (w : World) : List Event := w.trace.filter Event.isCall

/-- The entries that a listing gives before it fails, if it does. -/
def listed (limit : Option ℕ) (names : List CStr) : List CStr :=
  match limit with
  | none => names
  | some count => names.take count

/-- The second half of `enterDirectory`: the old directory is entered and listed. -/
def listDirectory (env : Env) (w : World) (old : CStr) (type : Ftype) (replies : RenameReplies) :
    Except ℤ (Ftype × List CStr) × World :=
  let status := dfsChdirTimeout env.conf.maxRetry (replies.chdir old) old w.remote
  if status ≠ .success then (.error (env.statusCode status), w)
  else
    let w := { w with cwd := old }
    let status := dfsOpendirTimeout env.conf.maxRetry (replies.opendir old)
    if status ≠ .success then (.error (env.statusCode status), w)
    else (.ok (type, listed (replies.readdir old) (w.remote.children w.cwd)), w)

/-- The paths of an entry of two directories, and what is below them. -/
def Spot (old new name path : CStr) : Prop := Below '/' (slashed old name) path ∨ Below '/' (slashed new name) path

namespace Forest

/-- The calls due for what is in a directory: to move each file, and to remove each directory after what is in
it. -/
def calls (old new : CStr) : Forest → List Event
  | nil => []
  | file name rest => .renameFile (slashed old name) (slashed new name) :: rest.calls old new
  | dir name inner rest => inner.calls (slashed old name) (slashed new name) ++
      .dfsRmdir (slashed old name) :: rest.calls old new

/-- How many strings are formatted: two for each entry, and one when a file is unlinked. -/
def strings : Forest → ℕ
  | nil => 0
  | file _ rest => 3 + rest.strings
  | dir _ inner rest => 2 + inner.strings + rest.strings

/-- No directory in the forest needs so many strings that the path it was given is written over. -/
def Fits : Forest → Prop
  | nil => True
  | file _ rest => rest.Fits
  | dir _ inner rest => 1 + inner.strings < tmpstrNb ∧ rest.Fits

instance decidableFits : (forest : Forest) → Decidable forest.Fits
  | nil => inferInstanceAs (Decidable True)
  | file _ rest => rest.decidableFits
  | dir _ inner rest =>
    have := rest.decidableFits
    inferInstanceAs (Decidable (1 + inner.strings < tmpstrNb ∧ rest.Fits))

/-- From an age of the oldest string in use on, the strings can be formatted; with none in use, those of each
directory can. -/
def Runs (forest : Forest) : Option ℕ → Prop
  | none => forest.Fits
  | some age => age + forest.strings < tmpstrNb

/-- The paths at which and below which the entries are moved. -/
def Region (forest : Forest) (old new path : CStr) : Prop := ∃ name ∈ forest.entries, Spot old new name path

/-- The entries have proper names, their paths fit into the strings of the ring, and neither directory is below the
other. -/
structure Placed (forest : Forest) (old new : CStr) : Prop where
  proper : forest.Proper
  short : forest.Short old
  short' : forest.Short new
  apart : Apart '/' old new

/-- The forest lies in the old directory, and at its paths in the new one the store is as it once was. -/
structure ReadyAt (forest : Forest) (before r : Remote) (old new : CStr) : Prop where
  lies : forest.LiesAt r old
  free : ∀ path ∈ forest.paths new, r.lookup path = before.lookup path

/-- What was in the old directory is in the new one: the files are the same, and the directories are there. -/
structure GoneOver (forest : Forest) (r r' : Remote) (old new : CStr) : Prop where
  files : ∀ rel ∈ forest.files, r'.lookup (slashed new rel) = r.lookup (slashed old rel)
  dirs : ∀ rel ∈ forest.dirs, r'.ftype (slashed new rel) = some .dir
  gone : ∀ path ∈ forest.paths old, r'.lookup path = none

end Forest

namespace RenameReplies

variable (env : Env) (replies : RenameReplies)

/-- The lookup of an entry finds it. -/
def FindsEntry (path : CStr) : Prop := ∀ r : Remote, (r.ftype path).isSome = true →
  (dfsNameiTimeout env.conf.maxRetry (replies.nameiEntry path) path r).1 = .success

/-- The calls that move a file succeed. -/
structure MovesFile (old new : CStr) : Prop where
  copied : ∀ r : Remote, (r.lookup old).isSome = true →
    (dfsFcopyTimeout env.conf.maxRetry (replies.fcopy old new) old new r).1 = .success
  unlinked : ∀ r : Remote, (r.lookup old).isSome = true →
    (dfsUnlinkTimeout env.conf.maxRetry (replies.unlink old).unlink old r).1 = .success

/-- The new directory is found, or it is not there and is made. -/
def HasTarget (r : Remote) (new : CStr) : Prop :=
  (dfsNameiTimeout env.conf.maxRetry (replies.nameiTarget new) new r).1 = .success ∨
    (dfsNameiTimeout env.conf.maxRetry (replies.nameiTarget new) new r).1 = .enoent ∧
      ∀ r : Remote, (dfsMkdirTimeout env.conf.maxRetry (replies.mkdir new) new r).1 = .success

/-- The old directory can be entered. -/
def EntersDir (old : CStr) : Prop := ∀ r : Remote, r.ftype old = some .dir →
  dfsChdirTimeout env.conf.maxRetry (replies.chdir old) old r = .success

/-- The calls before the loop over a directory succeed, and its listing is read to the end. -/
structure MovesDir (r : Remote) (names : List CStr) (old new : CStr) : Prop where
  target : replies.HasTarget env r new
  entered : replies.EntersDir env old
  opened : dfsOpendirTimeout env.conf.maxRetry (replies.opendir old) = .success
  read : listed (replies.readdir old) names = names

/-- The old directory can be removed in the end, and nothing but a directory is where the new one is to be. -/
structure ClearsDir (r : Remote) (old new : CStr) : Prop where
  removed : ∀ r : Remote, r.ftype old = some .dir →
    (dfsRmdirTimeout env.conf.maxRetry (replies.rmdir old).rmdir old r).1 = .success
  room : ∀ type ∈ r.ftype new, type = .dir

end RenameReplies

/-- The calls for everything in a directory succeed. -/
def Forest.Moves (env : Env) (replies : RenameReplies) (r : Remote) : CStr → CStr → Forest → Prop
  | _, _, .nil => True
  | old, new, .file name rest => replies.FindsEntry env (slashed old name) ∧
      replies.MovesFile env (slashed old name) (slashed new name) ∧ rest.Moves env replies r old new
  | old, new, .dir name inner rest => replies.FindsEntry env (slashed old name) ∧
      replies.MovesDir env r inner.listing (slashed old name) (slashed new name) ∧
      inner.Moves env replies r (slashed old name) (slashed new name) ∧ rest.Moves env replies r old new

/-- The directories can be removed, and nothing is in the way of the new ones. -/
def Forest.Clears (env : Env) (replies : RenameReplies) (r : Remote) (old new : CStr) (forest : Forest) : Prop :=
  ∀ rel ∈ forest.dirs, replies.ClearsDir env r (slashed old rel) (slashed new rel)

/-- What is in a directory has been moved. -/
structure Forest.Moved (forest : Forest) (w w' : World) (old new : CStr) : Prop where
  calls : w'.calls = w.calls ++ forest.calls old new
  changed : w.remote.ChangedIn (forest.Region old new) w'.remote

/-- A directory has been moved with what is in it. -/
structure Forest.DirMoved (forest : Forest) (w w' : World) (old new : CStr) : Prop where
  calls : w'.calls = w.calls ++ (forest.calls old new ++ [.dfsRmdir old])
  changed : w.remote.ChangedIn (fun path => Below '/' old path ∨ Below '/' new path) w'.remote

/-- A directory has gone over with what is in it. -/
structure Forest.DirGoneOver (forest : Forest) (r r' : Remote) (old new : CStr) : Prop where
  inside : forest.GoneOver r r' old new
  made : r'.ftype new = some .dir
  removed : r'.lookup old = none

section Pieces

variable {env : Env} {replies : RenameReplies} {w : World} {old new path : CStr} {r r' : Remote}

/-- An object that is not at the root has its type. -/
theorem Remote.ftype_of_lookup {obj : Obj} (hroot : path ≠ "/".toList) (h : r.lookup path = some obj) :
    r.ftype path = some obj.ftype := by
  rw [Remote.ftype, if_neg hroot, h, Option.map_some]

/-- The type of an object is part of it. -/
theorem Remote.ftype_congr (h : r'.lookup path = r.lookup path) : r'.ftype path = r.ftype path := by
  rw [Remote.ftype, Remote.ftype, h]

/-- A directory that was stored is one. -/
theorem Remote.ftype_insert_dir (r : Remote) (path : CStr) (content : Bytes) (metadata : Option Dict)
    (etag : Option CStr) :
    Remote.ftype (r.insert path ⟨.dir, content, metadata, etag⟩) path = some .dir := by
  unfold Remote.ftype
  split
  · rfl
  · rw [AList.lookup_insert, Option.map_some]

/-- A lookup depends on the object only. -/
theorem dfsNameiTimeout_congr (maxRetry : ℤ) (statuses : ℕ → Status) (h : r'.lookup path = r.lookup path) :
    dfsNameiTimeout maxRetry statuses path r' = dfsNameiTimeout maxRetry statuses path r := by
  simp only [dfsNameiTimeout, dplNamei, Remote.ftype_congr h]

/-- Where nothing but a directory was, there is one after it was made. -/
theorem dfsMkdirTimeout_made {maxRetry : ℤ} {answers : ℕ → Reply} (hroom : ∀ type ∈ r.ftype path, type = .dir)
    (h : (dfsMkdirTimeout maxRetry answers path r).1 = .success) :
    (dfsMkdirTimeout maxRetry answers path r).2.ftype path = some .dir := by
  have hkept : ∀ i (r : Remote), (∀ type ∈ r.ftype path, type = .dir) →
      ∀ type ∈ (dplMkdir (answers i) path r).2.ftype path, type = .dir := by
    intro i r hr
    unfold dplMkdir
    simp only
    split
    · rw [Remote.ftype_insert_dir]
      exact fun type htype => (Option.mem_some_iff.mp htype).symm
    · exact hr
  obtain ⟨i, r', hr', heq⟩ := Attempts.run_eq_last Status.retriable (fun i => dplMkdir (answers i) path)
    (fun r => ∀ type ∈ r.ftype path, type = .dir) (fun i r hr _ => hkept i r hr) maxRetry.toNat 0 r hroom
  rw [dfsMkdirTimeout, writeTimeout, heq] at h ⊢
  have happlied := (answers i).applied_of_success h
  unfold dplMkdir
  cases hobj : r'.lookup path with
  | none =>
    simp only [happlied, Option.isNone_none, and_self, if_true]
    exact Remote.ftype_insert_dir ..
  | some obj =>
    simp only [happlied, Option.isNone_some, Bool.false_eq_true, and_false, if_false]
    by_cases hroot : path = "/".toList
    · rw [Remote.ftype, if_pos hroot]
    · have htype := Remote.ftype_of_lookup hroot hobj
      rw [htype, hr' _ htype]

/-- Moving a file whose calls succeed. -/
theorem renameFile_moves {obj : Obj} (hcalls : replies.MovesFile env old new) (hne : new ≠ old)
    (hobj : w.remote.lookup old = some obj) :
    ∃ w', renameFile env w old new replies = (0, w') ∧ w'.calls = w.calls ++ [.renameFile old new] ∧
      w.remote.ChangedIn (fun path => path = old ∨ path = new) w'.remote ∧
      w'.remote.lookup new = w.remote.lookup old ∧ w'.remote.lookup old = none := by
  have hcopied := hcalls.copied w.remote (by rw [hobj]; rfl)
  have hold : (dfsFcopyTimeout env.conf.maxRetry (replies.fcopy old new) old new w.remote).2.lookup old = some obj :=
    (dfsFcopyTimeout_lookup_ne _ _ _ _ _ _ hne.symm).trans hobj
  have hunlinked := hcalls.unlinked _ (Option.isSome_iff_exists.mpr ⟨obj, hold⟩)
  have hremote : (renameFile env w old new replies).2.remote = (dfsUnlinkTimeout env.conf.maxRetry
      (replies.unlink old).unlink old
      (dfsFcopyTimeout env.conf.maxRetry (replies.fcopy old new) old new w.remote).2).2 := by
    unfold renameFile
    simp only [World.log, hcopied, ne_eq, not_true_eq_false, if_false]
    rw [dfsUnlink_remote, World.removeDirentOf_remote]
  have hret : (renameFile env w old new replies).1 = 0 := by
    unfold renameFile
    simp only [World.log, hcopied, ne_eq, not_true_eq_false, if_false]
    rw [dfsUnlink_ret, World.removeDirentOf_remote]
    exact hunlinked
  have hunlink := dfsUnlinkTimeout_changedIn env.conf.maxRetry (replies.unlink old).unlink old
    (dfsFcopyTimeout env.conf.maxRetry (replies.fcopy old new) old new w.remote).2
  refine ⟨_, Prod.ext hret rfl, ?_, ?_, ?_, ?_⟩
  · obtain ⟨removed, htrace, hremoved⟩ := renameFile_trace env w old new replies
    rw [World.calls, htrace, List.filter_append, World.calls]
    rcases hremoved with rfl | rfl <;> rfl
  · rw [hremote]
    exact ((dfsFcopyTimeout_changedIn ..).mono fun _ => .inr).trans (hunlink.mono fun _ => .inl)
  · rw [hremote, hunlink.lookup new hne, dfsFcopyTimeout_copied hne hobj hcopied, hobj]
  · rw [hremote, dfsUnlinkTimeout_gone hunlinked]

/-- Whether the new directory can be had depends on what there is at its path. -/
theorem RenameReplies.HasTarget.congr (h : replies.HasTarget env r new) (hlookup : r'.lookup new = r.lookup new) :
    replies.HasTarget env r' new := by
  rw [RenameReplies.HasTarget, dfsNameiTimeout_congr _ _ hlookup]
  exact h

/-- With its target there, a directory is entered and listed. -/
theorem enterDirectory_target (htarget : replies.HasTarget env w.remote new) (old : CStr) :
    ∃ type w₁, enterDirectory env w old new replies = listDirectory env w₁ old type replies ∧ w₁.calls = w.calls ∧
      w.remote.ChangedIn (· = new) w₁.remote ∧
      ((∀ type ∈ w.remote.ftype new, type = .dir) → w₁.remote.ftype new = some .dir) := by
  cases hnamei : dfsNameiTimeout env.conf.maxRetry (replies.nameiTarget new) new w.remote with
  | mk status found =>
    rw [RenameReplies.HasTarget, hnamei] at htarget
    rcases htarget with hstatus | ⟨hstatus, hmade⟩
    · simp only at hstatus
      subst hstatus
      refine ⟨found.getD (replies.junkEntryType new), w, ?_, rfl, .refl .., fun hroom => ?_⟩
      · simp only [enterDirectory, hnamei, ne_eq, not_true_eq_false, reduceCtorEq, false_and, if_false]
        rfl
      · obtain ⟨-, hsome⟩ := dfsNameiTimeout_success _ _ _ _ (congrArg Prod.fst hnamei)
        obtain ⟨type, htype⟩ := Option.isSome_iff_exists.mp hsome
        rw [htype, hroom type htype]
    · simp only at hstatus
      subst hstatus
      refine ⟨found.getD (replies.junkEntryType new), (dfsMkdir env w new (replies.mkdir new)).2, ?_, ?_, ?_, ?_⟩
      · simp only [enterDirectory, hnamei, dfsMkdir, hmade w.remote, World.log, reduceCtorEq, ne_eq,
          not_true_eq_false, and_false, false_and, if_false, if_true]
        rfl
      · simp [World.calls, dfsMkdir, World.log, Event.isCall]
      · exact dfsMkdirTimeout_changedIn ..
      · exact fun hroom => dfsMkdirTimeout_made hroom (hmade w.remote)

/-- Entering a directory whose calls succeed: what its listing gives is known. -/
theorem enterDirectory_moves (htarget : replies.HasTarget env w.remote new) (hentered : replies.EntersDir env old)
    (hopened : dfsOpendirTimeout env.conf.maxRetry (replies.opendir old) = .success) (hne : old ≠ new)
    (hdir : w.remote.ftype old = some .dir) :
    ∃ type w₁, enterDirectory env w old new replies =
        (.ok (type, listed (replies.readdir old) (w₁.remote.children old)), w₁) ∧
      w₁.calls = w.calls ∧ w.remote.ChangedIn (· = new) w₁.remote ∧
      ((∀ type ∈ w.remote.ftype new, type = .dir) → w₁.remote.ftype new = some .dir) := by
  obtain ⟨type, w₁, henter, hcalls, hchanged, hmade⟩ := enterDirectory_target htarget old
  have hdir₁ : w₁.remote.ftype old = some .dir := (Remote.ftype_congr (hchanged.lookup old hne)).trans hdir
  refine ⟨type, { w₁ with cwd := old }, ?_, hcalls, hchanged, hmade⟩
  rw [henter]
  simp only [listDirectory, hentered w₁.remote hdir₁, hopened, ne_eq, not_true_eq_false, if_false]

/-- Removing a directory changes its path, and is a call. -/
theorem dfsRmdir_moves (env : Env) (w : World) (old : CStr) (rmdir : RmdirReplies) :
    (dfsRmdir env (w.log (.dfsRmdir old)) old rmdir).2.calls = w.calls ++ [.dfsRmdir old] ∧
      (dfsRmdir env (w.log (.dfsRmdir old)) old rmdir).2.remote =
        (dfsRmdirTimeout env.conf.maxRetry rmdir.rmdir old w.remote).2 := by
  constructor
  · rw [World.calls, dfsRmdir_trace, World.log, List.filter_append, List.filter_append, World.calls]
    exact List.append_nil _
  · unfold dfsRmdir
    simp only
    split
    · rfl
    · split
      · rfl
      · rw [World.removeDirentOf_remote]
        rfl

/-- The directories of a listing are not passed over. -/
theorem skipped_slash (name : CStr) : skipped (name ++ "/".toList) = false := by
  have hlast : (name ++ "/".toList).getLast? = some '/' := by simp
  unfold skipped
  rw [decide_eq_false_iff_not]
  rintro (heq | heq) <;> rw [heq] at hlast <;> simp at hlast

/-- The loop, at an entry that a lookup finds. -/
theorem moveEntries_found {recurse : PathRenaming → CStr → CStr → Exec (ℤ × PathRenaming)} {name src dst : CStr}
    {obj : Obj} (hskipped : skipped name = false) (hsrc : entryPath old name = src) (hdst : entryPath new name = dst)
    (hroot : src ≠ "/".toList) (hobj : w.remote.lookup src = some obj) (hfinds : replies.FindsEntry env src)
    (names : List CStr) (type : Ftype) (ret : ℤ) (age : Option ℕ) :
    moveEntries env replies recurse old new (name :: names) type ret ⟨w, age⟩ = (do
      let age ← formatStrings 2 age
      let (ret, s) ← moveEntry env replies recurse ⟨w, age⟩ obj.ftype src dst
      moveEntries env replies recurse old new names obj.ftype ret s) := by
  have htype := Remote.ftype_of_lookup hroot hobj
  have hstatus := hfinds w.remote (by rw [htype]; rfl)
  obtain ⟨hfound, -⟩ := dfsNameiTimeout_success _ _ _ _ hstatus
  rw [moveEntries, if_neg (by rw [hskipped]; exact Bool.false_ne_true)]
  simp only [hsrc, hdst, hstatus, hfound, htype, ne_eq, not_true_eq_false, false_and, if_false, Option.getD_some]

/-- Strings that fit make the oldest older. -/
theorem formatStrings_of_room {count : ℕ} {age : Option ℕ} (h : ∀ a ∈ age, a + count < tmpstrNb) :
    formatStrings count age = .done (age.map (· + count)) := if_pos h

/-- Ages add up. -/
theorem map_add_add (age : Option ℕ) (m n : ℕ) : (age.map (· + m)).map (· + n) = age.map (· + (m + n)) := by
  cases age with
  | none => rfl
  | some a => exact congrArg some (Nat.add_assoc a m n)

/-- Strings formatted one after another. -/
theorem formatStrings_bind {α : Type} (m n : ℕ) (age : Option ℕ) (next : Option ℕ → Exec α) :
    (formatStrings m age >>= fun age => formatStrings n age >>= next) = formatStrings (m + n) age >>= next := by
  by_cases hroom : ∀ a ∈ age, a + (m + n) < tmpstrNb
  · have hfirst : ∀ a ∈ age, a + m < tmpstrNb := fun a ha => by have := hroom a ha; omega
    have hsecond : ∀ a ∈ age.map (· + m), a + n < tmpstrNb := by
      intro b hb
      obtain ⟨a, ha, rfl⟩ := Option.mem_map.mp hb
      have := hroom a ha
      omega
    rw [formatStrings_of_room hfirst, formatStrings_of_room hroom, Exec.done_bind, formatStrings_of_room hsecond,
      map_add_add]
  · rw [formatStrings.eq_def (m + n), if_neg hroom]
    by_cases hfirst : ∀ a ∈ age, a + m < tmpstrNb
    · have hsecond : ¬ ∀ a ∈ age.map (· + m), a + n < tmpstrNb := fun hall => hroom fun a ha => by
        have := hall (a + m) (Option.mem_map.mpr ⟨a, ha, rfl⟩)
        omega
      rw [formatStrings_of_room hfirst, Exec.done_bind, formatStrings, if_neg hsecond]
    · rw [formatStrings, if_neg hfirst]
      rfl

end Pieces

namespace Forest

variable {env : Env} {replies : RenameReplies} {forest : Forest} {old new path : CStr} {before r r₁ r₂ : Remote}

/-- Relative names can be put together first. -/
theorem slashed_slashed (dir name rel : CStr) : slashed dir (slashed name rel) = slashed (slashed dir name) rel := by
  simp [slashed]

/-- The files of a forest have their paths. -/
theorem file_mem_paths {top rel : CStr} (h : rel ∈ forest.files) : slashed top rel ∈ forest.paths top := by
  induction forest generalizing top rel with
  | nil => cases h
  | file name rest ih =>
    rcases List.mem_cons.mp h with rfl | h
    · exact List.mem_cons_self
    · exact List.mem_cons_of_mem _ (ih h)
  | dir name inner rest ihInner ih =>
    rcases List.mem_append.mp h with h | h
    · obtain ⟨rel, hrel, rfl⟩ := List.mem_map.mp h
      rw [slashed_slashed]
      exact List.mem_cons_of_mem _ (List.mem_append_left _ (ihInner hrel))
    · exact List.mem_cons_of_mem _ (List.mem_append_right _ (ih h))

/-- So have the directories. -/
theorem dir_mem_paths {top rel : CStr} (h : rel ∈ forest.dirs) : slashed top rel ∈ forest.paths top := by
  induction forest generalizing top rel with
  | nil => cases h
  | file name rest ih => exact List.mem_cons_of_mem _ (ih h)
  | dir name inner rest ihInner ih =>
    rcases List.mem_cons.mp h with rfl | h
    · exact List.mem_cons_self
    · rcases List.mem_append.mp h with h | h
      · obtain ⟨rel, hrel, rfl⟩ := List.mem_map.mp h
        rw [slashed_slashed]
        exact List.mem_cons_of_mem _ (List.mem_append_left _ (ihInner hrel))
      · exact List.mem_cons_of_mem _ (List.mem_append_right _ (ih h))

/-- Everything in a directory is moved below the old or the new path. -/
theorem Region.below (h : forest.Region old new path) : Below '/' old path ∨ Below '/' new path := by
  obtain ⟨name, -, hbelow⟩ := h
  exact hbelow.imp (below_entry '/' old name).trans (below_entry '/' new name).trans

/-- The old directory is not where its entries are moved. -/
theorem not_region_old (hapart : Apart '/' old new) : ¬ forest.Region old new old := by
  rintro ⟨name, -, hbelow | hbelow⟩
  · exact not_below_entry '/' old name hbelow
  · exact hapart.2 ((below_entry '/' new name).trans hbelow)

/-- Neither is the new one. -/
theorem not_region_new (hapart : Apart '/' old new) : ¬ forest.Region old new new := by
  rintro ⟨name, -, hbelow | hbelow⟩
  · exact hapart.1 ((below_entry '/' old name).trans hbelow)
  · exact not_below_entry '/' new name hbelow

/-- What is in the old directory is in the region. -/
theorem region_of_mem_old (h : path ∈ forest.paths old) (new : CStr) : forest.Region old new path := by
  obtain ⟨name, hname, hbelow⟩ := exists_entry_of_mem_paths h
  exact ⟨name, hname, .inl hbelow⟩

/-- What goes to the new directory is, too. -/
theorem region_of_mem_new (h : path ∈ forest.paths new) (old : CStr) : forest.Region old new path := by
  obtain ⟨name, hname, hbelow⟩ := exists_entry_of_mem_paths h
  exact ⟨name, hname, .inr hbelow⟩

/-- The region of the rest of a directory is apart from an entry with another name. -/
theorem Region.not_spot (h : forest.Region old new path) (hproper : forest.Proper) {name : CStr}
    (hname : ProperName name) (hnew : name ∉ forest.entries) (hapart : Apart '/' old new) :
    ¬ Spot old new name path := by
  obtain ⟨other, hother, hbelow⟩ := h
  have hentries : ∀ top, Apart '/' (slashed top other) (slashed top name) := fun top =>
    entries_apart (fun heq => hnew (heq ▸ hother)) (hproper.name hother).noSlash hname.noSlash
  have hsides : ∀ name name', Apart '/' (slashed old name) (slashed new name') := fun name name' =>
    hapart.both (below_entry '/' old name) (below_entry '/' new name')
  rintro (hspot | hspot)
  · rcases hbelow with hbelow | hbelow
    · exact ((hentries old).both hbelow hspot).ne rfl
    · exact ((hsides name other).both hspot hbelow).ne rfl
  · rcases hbelow with hbelow | hbelow
    · exact ((hsides other name).both hbelow hspot).ne rfl
    · exact ((hentries new).both hbelow hspot).ne rfl

namespace Placed

/-- The rest of a directory is placed as the directory is. -/
theorem rest_file {name : CStr} {rest : Forest} (h : (file name rest).Placed old new) : rest.Placed old new where
  proper := h.proper.2.2
  short path hmem := h.short path (List.mem_cons_of_mem _ hmem)
  short' path hmem := h.short' path (List.mem_cons_of_mem _ hmem)
  apart := h.apart

/-- So is what comes after a directory. -/
theorem rest_dir {name : CStr} {inner rest : Forest} (h : (dir name inner rest).Placed old new) :
    rest.Placed old new where
  proper := h.proper.2.2.2
  short path hmem := h.short path (List.mem_cons_of_mem _ (List.mem_append_right _ hmem))
  short' path hmem := h.short' path (List.mem_cons_of_mem _ (List.mem_append_right _ hmem))
  apart := h.apart

/-- What is in that directory is placed there. -/
theorem inner {name : CStr} {inner rest : Forest} (h : (dir name inner rest).Placed old new) :
    inner.Placed (slashed old name) (slashed new name) where
  proper := h.proper.2.2.1
  short path hmem := h.short path (List.mem_cons_of_mem _ (List.mem_append_left _ hmem))
  short' path hmem := h.short' path (List.mem_cons_of_mem _ (List.mem_append_left _ hmem))
  apart := h.apart.both (below_entry '/' old name) (below_entry '/' new name)

/-- No path of the old directory is that of the new one. -/
theorem ne_new (h : forest.Placed old new) (hmem : path ∈ forest.paths old) : path ≠ new := by
  rintro rfl
  exact h.apart.1 (below_of_mem_paths hmem)

/-- No path of the new directory is that of the old one. -/
theorem ne_old (h : forest.Placed old new) (hmem : path ∈ forest.paths new) : path ≠ old := by
  rintro rfl
  exact h.apart.2 (below_of_mem_paths hmem)

end Placed

/-- The old directory has the same entries when only the new path has changed. -/
theorem children_entered (hapart : Apart '/' old new) (hroot : old ≠ "/".toList) (hchanged : r.ChangedIn (· = new) r₁) :
    r₁.children old = r.children old := by
  refine hchanged.children old fun path hpath => childName_eq_none hroot ?_
  rw [hpath]
  exact hapart.1

namespace ReadyAt

/-- The forest stays ready when only the new path changes. -/
theorem entered (h : forest.ReadyAt before r old new) (hplaced : forest.Placed old new)
    (hchanged : r.ChangedIn (· = new) r₁) : forest.ReadyAt before r₁ old new where
  lies := h.lies.changed hplaced.proper hchanged fun path hmem other hother hbelow => by
    rw [hother] at hbelow
    exact hplaced.apart.1 ((below_of_mem_paths hmem).trans hbelow)
  free path hmem := by
    refine (hchanged.lookup path fun heq => ?_).trans (h.free path hmem)
    exact top_notMem_paths (heq ▸ hmem)

/-- The rest of a directory stays ready when an entry is moved. -/
theorem after (h : forest.ReadyAt before r old new) (hproper : forest.Proper) {name : CStr} (hname : ProperName name)
    (hnew : name ∉ forest.entries) (hapart : Apart '/' old new) (hchanged : r.ChangedIn (Spot old new name) r₁) :
    forest.ReadyAt before r₁ old new where
  lies := h.lies.changed hproper hchanged fun path hmem other hspot hbelow => by
    obtain ⟨entry, hentry, habove⟩ := exists_entry_of_mem_paths hmem
    exact Region.not_spot ⟨entry, hentry, .inl (habove.trans hbelow)⟩ hproper hname hnew hapart hspot
  free path hmem :=
    (hchanged.lookup path ((region_of_mem_new hmem old).not_spot hproper hname hnew hapart)).trans (h.free path hmem)

/-- So it does after a file. -/
theorem after_file {name : CStr} {rest : Forest} (h : (file name rest).ReadyAt before r old new)
    (hplaced : (file name rest).Placed old new) (hchanged : r.ChangedIn (Spot old new name) r₁) :
    rest.ReadyAt before r₁ old new := by
  obtain ⟨hname, hnew, hproper⟩ := hplaced.proper
  have hrest : rest.ReadyAt before r old new :=
    ⟨h.lies.2, fun path hmem => h.free path (List.mem_cons_of_mem _ hmem)⟩
  exact hrest.after hproper hname hnew hplaced.apart hchanged

/-- And after a directory. -/
theorem after_dir {name : CStr} {inner rest : Forest} (h : (dir name inner rest).ReadyAt before r old new)
    (hplaced : (dir name inner rest).Placed old new) (hchanged : r.ChangedIn (Spot old new name) r₁) :
    rest.ReadyAt before r₁ old new := by
  obtain ⟨hname, hnew, -, hproper⟩ := hplaced.proper
  have hrest : rest.ReadyAt before r old new :=
    ⟨h.lies.2.2.2, fun path hmem => h.free path (List.mem_cons_of_mem _ (List.mem_append_right _ hmem))⟩
  exact hrest.after hproper hname hnew hplaced.apart hchanged

/-- What is in a directory is ready there. -/
theorem inner {name : CStr} {inner rest : Forest} (h : (dir name inner rest).ReadyAt before r old new) :
    inner.ReadyAt before r (slashed old name) (slashed new name) :=
  ⟨h.lies.2.2.1, fun path hmem => h.free path (List.mem_cons_of_mem _ (List.mem_append_left _ hmem))⟩

/-- The directory is one. -/
theorem ftype_dir {name : CStr} {inner rest : Forest} (h : (dir name inner rest).ReadyAt before r old new)
    (hname : ProperName name) : r.ftype (slashed old name) = some .dir := by
  obtain ⟨⟨obj, hobj, htype⟩, -⟩ := h.lies
  rw [Remote.ftype_of_lookup (slashed_ne_root hname.ne_nil) hobj, htype]

end ReadyAt

/-- An entry and then the rest of the directory. -/
theorem changed_cons {name : CStr} {rest : Forest} (hentries : forest.entries = name :: rest.entries)
    (hentry : r.ChangedIn (Spot old new name) r₁) (hrest : r₁.ChangedIn (rest.Region old new) r₂) :
    r.ChangedIn (forest.Region old new) r₂ := by
  have hmem : name ∈ forest.entries := by
    rw [hentries]
    exact List.mem_cons_self
  have hmore : ∀ other ∈ rest.entries, other ∈ forest.entries := by
    rw [hentries]
    exact fun other hother => List.mem_cons_of_mem _ hother
  exact (hentry.mono fun path hpath => ⟨name, hmem, hpath⟩).trans
    (hrest.mono fun path ⟨other, hother, hbelow⟩ => ⟨other, hmore other hother, hbelow⟩)

section Cons

variable {name : CStr} {inner rest : Forest}

/-- A file that has gone over, and then the rest of the directory. -/
theorem GoneOver.file (hplaced : (Forest.file name rest).Placed old new)
    (hmade : r₁.lookup (slashed new name) = r.lookup (slashed old name)) (hgone : r₁.lookup (slashed old name) = none)
    (hchanged : r.ChangedIn (Spot old new name) r₁) (hrest : rest.GoneOver r₁ r₂ old new)
    (hchanged' : r₁.ChangedIn (rest.Region old new) r₂) : (Forest.file name rest).GoneOver r r₂ old new := by
  obtain ⟨hname, hnew, hproper⟩ := hplaced.proper
  have hkept : ∀ path, Spot old new name path → r₂.lookup path = r₁.lookup path := fun path hspot =>
    hchanged'.lookup path fun hregion => hregion.not_spot hproper hname hnew hplaced.apart hspot
  have hstill : ∀ path ∈ rest.paths old, r₁.lookup path = r.lookup path := fun path hmem =>
    hchanged.lookup path ((region_of_mem_old hmem new).not_spot hproper hname hnew hplaced.apart)
  refine ⟨fun rel hrel => ?_, hrest.dirs, fun path hmem => ?_⟩
  · rcases List.mem_cons.mp hrel with rfl | hrel
    · rw [hkept _ (.inr (.refl ..)), hmade]
    · rw [hrest.files rel hrel, hstill _ (file_mem_paths hrel)]
  · rcases List.mem_cons.mp hmem with rfl | hmem
    · rw [hkept _ (.inl (.refl ..)), hgone]
    · exact hrest.gone path hmem

/-- A directory that has gone over, and then what comes after it. -/
theorem GoneOver.dir (hplaced : (Forest.dir name inner rest).Placed old new)
    (hinner : inner.DirGoneOver r r₁ (slashed old name) (slashed new name))
    (hchanged : r.ChangedIn (Spot old new name) r₁) (hrest : rest.GoneOver r₁ r₂ old new)
    (hchanged' : r₁.ChangedIn (rest.Region old new) r₂) : (Forest.dir name inner rest).GoneOver r r₂ old new := by
  obtain ⟨hname, hnew, -, hproper⟩ := hplaced.proper
  have hkept : ∀ path, Spot old new name path → r₂.lookup path = r₁.lookup path := fun path hspot =>
    hchanged'.lookup path fun hregion => hregion.not_spot hproper hname hnew hplaced.apart hspot
  have hstill : ∀ path ∈ rest.paths old, r₁.lookup path = r.lookup path := fun path hmem =>
    hchanged.lookup path ((region_of_mem_old hmem new).not_spot hproper hname hnew hplaced.apart)
  refine ⟨fun rel hrel => ?_, fun rel hrel => ?_, fun path hmem => ?_⟩
  · rcases List.mem_append.mp hrel with hrel | hrel
    · obtain ⟨rel, hin, rfl⟩ := List.mem_map.mp hrel
      rw [slashed_slashed, slashed_slashed, hkept (slashed (slashed new name) rel) (.inr (below_entry ..)),
        hinner.inside.files rel hin]
    · rw [hrest.files rel hrel, hstill _ (file_mem_paths hrel)]
  · rcases List.mem_cons.mp hrel with rfl | hrel
    · rw [Remote.ftype_congr (hkept _ (.inr (.refl ..))), hinner.made]
    · rcases List.mem_append.mp hrel with hrel | hrel
      · obtain ⟨rel, hin, rfl⟩ := List.mem_map.mp hrel
        have hkept' := hkept (slashed (slashed new name) rel) (.inr (below_entry ..))
        rw [slashed_slashed, Remote.ftype_congr hkept', hinner.inside.dirs rel hin]
      · exact hrest.dirs rel hrel
  · rcases List.mem_cons.mp hmem with rfl | hmem
    · rw [hkept _ (.inl (.refl ..)), hinner.removed]
    · rcases List.mem_append.mp hmem with hmem | hmem
      · rw [hkept _ (.inl (below_of_mem_paths hmem)), hinner.inside.gone path hmem]
      · exact hrest.gone path hmem

end Cons

/-- A loop over a directory moves what is in it if the strings can be formatted, and otherwise is undefined. What is in
it has gone over if the directories can be removed. -/
def MovedBy (env : Env) (replies : RenameReplies) (before : Remote)
    (recurse : PathRenaming → CStr → CStr → Exec (ℤ × PathRenaming)) (forest : Forest) (old new : CStr) : Prop :=
  ∀ (w : World) (type : Ftype) (ret : ℤ) (age : Option ℕ), forest.ReadyAt before w.remote old new → ret ≠ -1 →
    (∀ a ∈ age, a < tmpstrNb) →
    (forest.Runs age → ∃ ret' w', ret' ≠ -1 ∧ moveEntries env replies recurse old new forest.listing type ret ⟨w, age⟩ =
        .done (ret', ⟨w', age.map (· + forest.strings)⟩) ∧ forest.Moved w w' old new ∧
        (forest.Clears env replies before old new → forest.GoneOver w.remote w'.remote old new)) ∧
      (¬ forest.Runs age → moveEntries env replies recurse old new forest.listing type ret ⟨w, age⟩ = .undefined)

/-- A directory is moved with what is in it if the strings can be formatted, given its loop. -/
theorem moveDirectory_moves (hplaced : forest.Placed old new) (hroot : old ≠ "/".toList)
    (hcalls : replies.MovesDir env before forest.listing old new) {depth : ℕ}
    (hloop : forest.MovedBy env replies before (moveDirectory env replies depth) old new) {w : World}
    (hdir : w.remote.ftype old = some .dir) (hlisted : w.remote.children old = forest.listing)
    (hready : forest.ReadyAt before w.remote old new) (hfree : w.remote.lookup new = before.lookup new)
    {age : Option ℕ} (hage : ∀ a ∈ age, a < tmpstrNb) :
    (forest.Runs age → ∃ w', moveDirectory env replies (depth + 1) ⟨w, age⟩ old new =
        .done (0, ⟨w', age.map (· + forest.strings)⟩) ∧ forest.DirMoved w w' old new ∧
        (replies.ClearsDir env before old new → forest.Clears env replies before old new →
          forest.DirGoneOver w.remote w'.remote old new)) ∧
      (¬ forest.Runs age → moveDirectory env replies (depth + 1) ⟨w, age⟩ old new = .undefined) := by
  have htarget : replies.HasTarget env w.remote new := hcalls.target.congr hfree
  obtain ⟨type, w₁, henter, hcalls₁, hchanged₁, hmade⟩ :=
    enterDirectory_moves htarget hcalls.entered hcalls.opened hplaced.apart.ne hdir
  rw [children_entered hplaced.apart hroot hchanged₁, hlisted, hcalls.read] at henter
  obtain ⟨hruns, hstops⟩ := hloop w₁ type 0 age (hready.entered hplaced hchanged₁) (by decide) hage
  rw [moveDirectory, henter]
  constructor
  · intro hfits
    obtain ⟨ret', w₂, hret, hran, hmoved, hover⟩ := hruns hfits
    obtain ⟨hcalls₃, hremote₃⟩ := dfsRmdir_moves env w₂ old (replies.rmdir old)
    have hchanged₃ : w₂.remote.ChangedIn (· = old)
        (dfsRmdir env (w₂.log (.dfsRmdir old)) old (replies.rmdir old)).2.remote := by
      rw [hremote₃]
      exact dfsRmdirTimeout_changedIn ..
    refine ⟨(dfsRmdir env (w₂.log (.dfsRmdir old)) old (replies.rmdir old)).2, ?_, ⟨?_, ?_⟩, fun hclears hinside => ?_⟩
    · simp only [hran, Exec.done_bind, if_neg hret]
      rfl
    · rw [hcalls₃, hmoved.calls, hcalls₁, List.append_assoc]
    · refine (hchanged₁.mono fun path hpath => .inr (.inl hpath)).trans ?_
      refine (hmoved.changed.mono fun path => Region.below).trans ?_
      exact hchanged₃.mono fun path hpath => .inl (.inl hpath)
    · obtain ⟨hfiles, hdirs, hgone⟩ := hover hinside
      have hold : w₂.remote.ftype old = some .dir := by
        rw [Remote.ftype_congr (hmoved.changed.lookup old (not_region_old hplaced.apart)),
          Remote.ftype_congr (hchanged₁.lookup old hplaced.apart.ne), hdir]
      have hnew : w₂.remote.ftype new = some .dir := by
        rw [Remote.ftype_congr (hmoved.changed.lookup new (not_region_new hplaced.apart)), hmade]
        rw [Remote.ftype_congr hfree]
        exact hclears.room
      refine ⟨⟨fun rel hrel => ?_, fun rel hrel => ?_, fun path hmem => ?_⟩, ?_, ?_⟩
      · rw [hchanged₃.lookup _ (hplaced.ne_old (file_mem_paths hrel)), hfiles rel hrel,
          hchanged₁.lookup _ (hplaced.ne_new (file_mem_paths hrel))]
      · rw [Remote.ftype_congr (hchanged₃.lookup _ (hplaced.ne_old (dir_mem_paths hrel))), hdirs rel hrel]
      · rw [hchanged₃.lookup path fun heq => top_notMem_paths (heq ▸ hmem), hgone path hmem]
      · rw [Remote.ftype_congr (hchanged₃.lookup new hplaced.apart.ne.symm), hnew]
      · rw [hremote₃, dfsRmdirTimeout_gone (hclears.removed _ hold)]
  · intro hnot
    simp only [hstops hnot, Exec.undefined_bind]

/-- A file can be moved with the rest when three strings can be formatted, and then the rest. -/
theorem runs_file_iff (name : CStr) (rest : Forest) (age : Option ℕ) :
    (file name rest).Runs age ↔ (∀ a ∈ age, a + 3 < tmpstrNb) ∧ rest.Runs (age.map (· + 3)) := by
  cases age with
  | none => simp [Runs, Fits]
  | some a =>
    simp only [Runs, strings, Option.map_some, Option.mem_some_iff, forall_eq']
    omega

/-- The age of the oldest string in use while a directory is moved, its two paths being in use as well. -/
def innerAge (age : Option ℕ) : Option ℕ := some ((age.map (· + 2)).getD 1)

/-- A directory can be moved with the rest when two strings can be formatted, then what is in the directory with
them in use, and then the rest. -/
theorem runs_dir_iff (name : CStr) (inner rest : Forest) (age : Option ℕ) :
    (dir name inner rest).Runs age ↔ (∀ a ∈ age, a + 2 < tmpstrNb) ∧
      inner.Runs (innerAge age) ∧ rest.Runs (age.map (· + (2 + inner.strings))) := by
  cases age with
  | none => simp [Runs, Fits, innerAge]
  | some a =>
    simp only [Runs, innerAge, strings, Option.map_some, Option.getD_some, Option.mem_some_iff, forall_eq']
    omega

/-- The strings in use while a directory is moved are in the ring. -/
theorem innerAge_lt {age : Option ℕ} (hroom : ∀ a ∈ age, a + 2 < tmpstrNb) : ∀ a ∈ innerAge age, a < tmpstrNb := by
  intro a ha
  rw [← Option.mem_some_iff.mp ha]
  cases age with
  | none => decide
  | some b => exact hroom b rfl

/-- The age of the oldest string in use after a directory was moved. -/
theorem innerAge_after (age : Option ℕ) (count : ℕ) :
    ((age.map (· + 2)).bind fun _ => (innerAge age).map (· + count)) = age.map (· + (2 + count)) := by
  cases age with
  | none => rfl
  | some a => exact congrArg some (Nat.add_assoc a 2 count)

/-- It is in the ring, too. -/
theorem innerAge_after_lt {inner : Forest} {age : Option ℕ} (hfits : inner.Runs (innerAge age)) :
    ∀ a ∈ age.map (· + (2 + inner.strings)), a < tmpstrNb := by
  rw [← innerAge_after]
  intro a ha
  obtain ⟨b, hb, ha⟩ := Option.bind_eq_some_iff.mp ha
  obtain rfl := Option.some.inj ha
  exact hfits

/-- The loop at a file whose calls succeed: it formats three strings and goes on. -/
theorem moveEntries_file {name : CStr} {rest : Forest} {w : World} (hplaced : (file name rest).Placed old new)
    (hlies : (file name rest).LiesAt w.remote old) (hfinds : replies.FindsEntry env (slashed old name))
    (hfile : replies.MovesFile env (slashed old name) (slashed new name)) :
    ∃ type w₁, (∀ recurse names type' ret age,
        moveEntries env replies recurse old new (name :: names) type' ret ⟨w, age⟩ =
          formatStrings 3 age >>= fun age => moveEntries env replies recurse old new names type 0 ⟨w₁, age⟩) ∧
      w₁.calls = w.calls ++ [.renameFile (slashed old name) (slashed new name)] ∧
      w.remote.ChangedIn (Spot old new name) w₁.remote ∧
      w₁.remote.lookup (slashed new name) = w.remote.lookup (slashed old name) ∧
      w₁.remote.lookup (slashed old name) = none := by
  obtain ⟨⟨obj, hobj, htype⟩, -⟩ := hlies
  have hname := hplaced.proper.1
  have hsides := hplaced.apart.both (below_entry '/' old name) (below_entry '/' new name)
  have hsrc : entryPath old name = slashed old name := entryPath_file hname (hplaced.short _ List.mem_cons_self)
  have hdst : entryPath new name = slashed new name := entryPath_file hname (hplaced.short' _ List.mem_cons_self)
  obtain ⟨w₁, hmove, hcalls, hchanged, hmade, hgone⟩ := renameFile_moves (w := w) hfile hsides.ne.symm hobj
  refine ⟨obj.ftype, w₁, fun recurse names type' ret age => ?_, hcalls,
    hchanged.mono fun path hpath => hpath.imp Or.inl Or.inl, hmade, hgone⟩
  rw [moveEntries_found hname.notSkipped hsrc hdst (slashed_ne_root hname.ne_nil) hobj hfinds, ← formatStrings_bind 2 1]
  refine congrArg (formatStrings 2 age >>= ·) (funext fun age => ?_)
  rw [moveEntry, if_neg htype, moveFile, hmove]
  simp only [if_true]
  cases formatStrings 1 age <;> rfl

/-- The loop at a directory that a lookup finds. -/
theorem moveEntries_dir {name : CStr} {inner rest : Forest} {w : World} (hplaced : (dir name inner rest).Placed old new)
    (hlies : (dir name inner rest).LiesAt w.remote old) (hfinds : replies.FindsEntry env (slashed old name))
    {age : Option ℕ} (hroom : ∀ a ∈ age, a + 2 < tmpstrNb)
    (recurse : PathRenaming → CStr → CStr → Exec (ℤ × PathRenaming)) (names : List CStr) (type : Ftype) (ret : ℤ) :
    moveEntries env replies recurse old new ((name ++ "/".toList) :: names) type ret ⟨w, age⟩ = (do
      let (ret, inside) ← recurse ⟨w, innerAge age⟩ (slashed old name) (slashed new name)
      moveEntries env replies recurse old new names .dir ret
        ⟨inside.world, (age.map (· + 2)).bind fun _ => inside.age⟩) := by
  obtain ⟨⟨obj, hobj, htype⟩, -⟩ := hlies
  have hname := hplaced.proper.1
  have hsrc : entryPath old (name ++ "/".toList) = slashed old name :=
    entryPath_dir hname (hplaced.short _ List.mem_cons_self)
  have hdst : entryPath new (name ++ "/".toList) = slashed new name :=
    entryPath_dir hname (hplaced.short' _ List.mem_cons_self)
  rw [moveEntries_found (skipped_slash name) hsrc hdst (slashed_ne_root hname.ne_nil) hobj hfinds,
    formatStrings_of_room hroom, Exec.done_bind, moveEntry, if_pos htype, htype]
  cases hrec : recurse ⟨w, some ((age.map (· + 2)).getD 1)⟩ (slashed old name) (slashed new name) <;>
    simp only [innerAge, hrec] <;> rfl

/-- What is in a directory is moved, however deep. -/
theorem movedBy (forest : Forest) {depth : ℕ} (hdepth : forest.depth ≤ depth) (hplaced : forest.Placed old new)
    (hmoves : forest.Moves env replies before old new) :
    forest.MovedBy env replies before (moveDirectory env replies depth) old new := by
  intro w type ret age hready hret hage
  induction forest generalizing old new w type ret age depth with
  | nil =>
    refine ⟨fun _ => ⟨ret, w, hret, ?_, ⟨?_, .refl ..⟩, fun _ => ⟨?_, ?_, ?_⟩⟩, fun hnot => ?_⟩
    · rw [listing, moveEntries]
      cases age <;> rfl
    · exact (List.append_nil _).symm
    · exact fun rel hrel => absurd hrel List.not_mem_nil
    · exact fun rel hrel => absurd hrel List.not_mem_nil
    · exact fun path hmem => absurd hmem List.not_mem_nil
    · cases age with
      | none => exact absurd trivial hnot
      | some a => exact absurd (hage a rfl) hnot
  | file name rest ih =>
    obtain ⟨hfinds, hfile, hrest⟩ := hmoves
    obtain ⟨type₁, w₁, hstep, hcalls₁, hchanged₁, hmade, hgone⟩ := moveEntries_file hplaced hready.lies hfinds hfile
    have hready₁ : rest.ReadyAt before w₁.remote old new := hready.after_file hplaced hchanged₁
    rw [listing, hstep, runs_file_iff]
    by_cases hroom : ∀ a ∈ age, a + 3 < tmpstrNb
    · have hage' : ∀ a ∈ age.map (· + 3), a < tmpstrNb := fun a ha => by
        obtain ⟨b, hb, rfl⟩ := Option.mem_map.mp ha
        exact hroom b hb
      obtain ⟨hruns, hstops⟩ := ih hdepth hplaced.rest_file hrest w₁ type₁ 0 _ hready₁ (by decide) hage'
      rw [formatStrings_of_room hroom, Exec.done_bind]
      refine ⟨fun hfits => ?_, fun hnot => hstops fun hfits => hnot ⟨hroom, hfits⟩⟩
      obtain ⟨ret', w', hret', hran, hmoved, hover⟩ := hruns hfits.2
      refine ⟨ret', w', hret', ?_, ⟨?_, changed_cons rfl hchanged₁ hmoved.changed⟩, fun hclears => ?_⟩
      · rw [hran, map_add_add]
        rfl
      · rw [hmoved.calls, hcalls₁, List.append_assoc]
        rfl
      · exact GoneOver.file hplaced hmade hgone hchanged₁ (hover hclears) hmoved.changed
    · rw [formatStrings, if_neg hroom]
      exact ⟨fun hfits => absurd hfits.1 hroom, fun _ => rfl⟩
  | dir name inner rest ihInner ih =>
    obtain ⟨hfinds, hdir, hin, hrest⟩ := hmoves
    have hname := hplaced.proper.1
    obtain ⟨depth, rfl⟩ : ∃ n, depth = n + 1 := ⟨depth - 1, by
      have : inner.depth + 1 ≤ depth := (Nat.le_max_left _ _).trans hdepth
      omega⟩
    have hinnerDepth : inner.depth ≤ depth := Nat.le_of_succ_le_succ ((Nat.le_max_left _ _).trans hdepth)
    have hrestDepth : rest.depth ≤ depth + 1 := (Nat.le_max_right _ _).trans hdepth
    rw [runs_dir_iff]
    by_cases hroom : ∀ a ∈ age, a + 2 < tmpstrNb
    · -- the paths of the entry are in use while the directory is moved
      obtain ⟨hruns, hstops⟩ := moveDirectory_moves hplaced.inner (slashed_ne_root hname.ne_nil) hdir
        (fun w type ret age hready hret hage => ihInner hinnerDepth hplaced.inner hin w type ret age hready hret hage)
        (hready.ftype_dir hname) hready.lies.2.1 hready.inner (hready.free _ List.mem_cons_self) (innerAge_lt hroom)
      rw [listing, moveEntries_dir hplaced hready.lies hfinds hroom]
      by_cases hfits : inner.Runs (innerAge age)
      · obtain ⟨w₁, hmoved₁, hmoves, hgoneIn⟩ := hruns hfits
        have hready₁ : rest.ReadyAt before w₁.remote old new := hready.after_dir hplaced hmoves.changed
        obtain ⟨hrun, hstop⟩ := ih hrestDepth hplaced.rest_dir hrest w₁ .dir 0 _ hready₁ (by decide)
          (innerAge_after_lt hfits)
        rw [hmoved₁]
        simp only [Exec.done_bind]
        rw [innerAge_after]
        refine ⟨fun hall => ?_, fun hnot => hstop fun hall => hnot ⟨hroom, hfits, hall⟩⟩
        obtain ⟨ret', w', hret', hran, hmoved, hover⟩ := hrun hall.2.2
        refine ⟨ret', w', hret', ?_, ⟨?_, changed_cons rfl hmoves.changed hmoved.changed⟩, fun hclears => ?_⟩
        · rw [hran, map_add_add]
          rfl
        · rw [hmoved.calls, hmoves.calls, List.append_assoc, List.append_assoc]
          rfl
        · have hclearsIn : inner.Clears env replies before (slashed old name) (slashed new name) := fun rel hrel => by
            rw [← slashed_slashed, ← slashed_slashed]
            exact hclears _ (List.mem_cons_of_mem _ (List.mem_append_left _ (List.mem_map_of_mem hrel)))
          refine GoneOver.dir hplaced (hgoneIn (hclears name List.mem_cons_self) hclearsIn) hmoves.changed (hover ?_)
            hmoved.changed
          exact fun rel hrel => hclears rel (List.mem_cons_of_mem _ (List.mem_append_right _ hrel))
      · rw [hstops hfits]
        exact ⟨fun hall => absurd hall.2.1 hfits, fun _ => rfl⟩
    · have hstop : ∀ recurse, moveEntries env replies recurse old new (dir name inner rest).listing type ret ⟨w, age⟩ =
          .undefined := fun recurse => by
        rw [listing, moveEntries, if_neg (by rw [skipped_slash]; exact Bool.false_ne_true), formatStrings, if_neg hroom]
        rfl
      rw [hstop]
      exact ⟨fun hall => absurd hall.1 hroom, fun _ => rfl⟩

end Forest

end Dropletfs
