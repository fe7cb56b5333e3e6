import Dropletfs.RightPaths

/-!
# Complete moves

A rename of a directory forgets most failures: the value of one entry is lost with the next,
and some calls are not asked whether they failed. It is reported when a lookup of an entry
fails, or the copy of a file that is the last one read, all the way up. When the first call
that fails is such a one, or none fails, a rename that returns zero has moved everything.
-/

namespace Dropletfs

open Interleaving (entryPath)
open PathOrder

namespace RenameReplies

variable (env : Env) (replies : RenameReplies)

/-- The lookup of an entry fails. -/
def FailsEntry (path : CStr) : Prop := ∀ r : Remote, (r.ftype path).isSome = true →
  (dfsNameiTimeout env.conf.maxRetry (replies.nameiEntry path) path r).1 ≠ .success ∧
    (dfsNameiTimeout env.conf.maxRetry (replies.nameiEntry path) path r).1 ≠ .enoent

/-- The copy of a file fails. -/
def FailsCopy (old new : CStr) : Prop := ∀ r : Remote, (r.lookup old).isSome = true →
  (dfsFcopyTimeout env.conf.maxRetry (replies.fcopy old new) old new r).1 ≠ .success

/-- The lookup of the new directory fails, or it is not there and making it fails. -/
def FailsTarget (r : Remote) (new : CStr) : Prop :=
  ((dfsNameiTimeout env.conf.maxRetry (replies.nameiTarget new) new r).1 ≠ .success ∧
      (dfsNameiTimeout env.conf.maxRetry (replies.nameiTarget new) new r).1 ≠ .enoent) ∨
    (dfsNameiTimeout env.conf.maxRetry (replies.nameiTarget new) new r).1 = .enoent ∧
      ∀ r : Remote, (dfsMkdirTimeout env.conf.maxRetry (replies.mkdir new) new r).1 ≠ .success ∧
        (dfsMkdirTimeout env.conf.maxRetry (replies.mkdir new) new r).1 ≠ .enoent

/-- The old directory cannot be entered, with the code that the callers ask for. -/
def RefusesDir (old : CStr) : Prop := ∀ r : Remote, r.ftype old = some .dir →
  env.statusCode (dfsChdirTimeout env.conf.maxRetry (replies.chdir old) old r) = -1

/-- The first call that fails in the rename of a directory is reported; `inside` says so of its entries. -/
def ReportsDir (r : Remote) (old new : CStr) (inside : Prop) : Prop :=
  replies.FailsTarget env r new ∨ replies.HasTarget env r new ∧
    (replies.RefusesDir env old ∨ replies.EntersDir env old ∧
      (env.statusCode (dfsOpendirTimeout env.conf.maxRetry (replies.opendir old)) = -1 ∨
        dfsOpendirTimeout env.conf.maxRetry (replies.opendir old) = .success ∧ inside))

end RenameReplies

/-- The first call that fails for what is read of a directory is reported: the lookup of an entry, or a call for the
last entry that is read. Until then the strings can be formatted. -/
def Forest.Reports (env : Env) (replies : RenameReplies) (r : Remote) :
    Option ℕ → Option ℕ → CStr → CStr → Forest → Prop
  | _, _, _, _, .nil => False
  | limit, age, old, new, .file name rest =>
    limit ≠ some 0 ∧ (∀ a ∈ age, a + 2 < tmpstrNb) ∧ (replies.FailsEntry env (slashed old name) ∨
      replies.FindsEntry env (slashed old name) ∧
        (listed (limit.map (· - 1)) rest.listing = [] ∧ replies.FailsCopy env (slashed old name) (slashed new name) ∨
          replies.MovesFile env (slashed old name) (slashed new name) ∧ (∀ a ∈ age, a + 3 < tmpstrNb) ∧
            rest.Reports env replies r (limit.map (· - 1)) (age.map (· + 3)) old new))
  | limit, age, old, new, .dir name inner rest =>
    limit ≠ some 0 ∧ (∀ a ∈ age, a + 2 < tmpstrNb) ∧ (replies.FailsEntry env (slashed old name) ∨
      replies.FindsEntry env (slashed old name) ∧
        (listed (limit.map (· - 1)) rest.listing = [] ∧ replies.ReportsDir env r (slashed old name) (slashed new name)
            (inner.Reports env replies r (replies.readdir (slashed old name)) (innerAge age) (slashed old name)
              (slashed new name)) ∨
          replies.MovesDir env r inner.listing (slashed old name) (slashed new name) ∧
            inner.Moves env replies r (slashed old name) (slashed new name) ∧ inner.Runs (innerAge age) ∧
            rest.Reports env replies r (limit.map (· - 1)) (age.map (· + (2 + inner.strings))) old new))

/-- Every call for the tree succeeds, its strings fit into the ring, and nothing but directories is where its
directories are to be. -/
structure RemoteTree.MovesWhole (tree : RemoteTree) (env : Env) (replies : RenameReplies) (r : Remote)
    (old new : CStr) : Prop where
  fits : tree.inside.Fits
  entered : replies.MovesDir env r tree.inside.listing old new
  moves : tree.inside.Moves env replies r old new
  cleared : replies.ClearsDir env r old new
  clears : tree.inside.Clears env replies r old new

/-- The type of the old path is looked up, and then no call fails, or the first one that does is reported. -/
def RemoteTree.FailsOpenly (tree : RemoteTree) (env : Env) (replies : RenameReplies) (r : Remote) (old new : CStr) :
    Prop :=
  (dfsNameiTimeout env.conf.maxRetry replies.namei old r).1 = .success ∧
    (tree.MovesWhole env replies r old new ∨ replies.ReportsDir env r old new
      (tree.inside.Reports env replies r (replies.readdir old) none old new))

section Failing

variable {env : Env} {replies : RenameReplies} {w : World} {old new : CStr}

/-- What is read of a listing, entry by entry. -/
theorem listed_cons {limit : Option ℕ} (h : limit ≠ some 0) (name : CStr) (names : List CStr) :
    listed limit (name :: names) = name :: listed (limit.map (· - 1)) names := by
  cases limit with
  | none => rfl
  | some count =>
    obtain ⟨count, rfl⟩ := Nat.exists_eq_succ_of_ne_zero fun hzero => h (congrArg some hzero)
    rfl

/-- The loop, at an entry whose lookup fails. -/
theorem moveEntries_refused {recurse : PathRenaming → CStr → CStr → Exec (ℤ × PathRenaming)} {name src : CStr}
    (hskipped : skipped name = false) (hsrc : entryPath old name = src)
    (hfound : (w.remote.ftype src).isSome = true) (hfails : replies.FailsEntry env src) {age : Option ℕ}
    (hroom : ∀ a ∈ age, a + 2 < tmpstrNb) (names : List CStr) (type : Ftype) (ret : ℤ) :
    moveEntries env replies recurse old new (name :: names) type ret ⟨w, age⟩ =
      .done (-1, ⟨w, age.map (· + 2)⟩) := by
  rw [moveEntries, if_neg (by rw [hskipped]; exact Bool.false_ne_true), formatStrings_of_room hroom,
    Exec.done_bind]
  simp only [hsrc]
  rw [if_pos (hfails w.remote hfound)]
  rfl

/-- A file whose copy fails is reported. -/
theorem moveFile_refused (hfails : replies.FailsCopy env old new) (hobj : (w.remote.lookup old).isSome = true)
    (age : Option ℕ) : ∃ s, moveFile env ⟨w, age⟩ old new replies = .done (-1, s) := by
  have hstatus := hfails w.remote hobj
  have hmove : (renameFile env w old new replies).1 = -1 := by
    unfold renameFile
    simp only [World.log, hstatus, ne_eq, not_false_eq_true, if_true]
  unfold moveFile
  cases hrename : renameFile env w old new replies with
  | mk ret w' =>
    rw [hrename] at hmove
    simp only at hmove
    subst hmove
    exact ⟨_, rfl⟩

/-- A target that cannot be had is reported. -/
theorem enterDirectory_refused (hfails : replies.FailsTarget env w.remote new) (old : CStr) :
    ∃ w', enterDirectory env w old new replies = (.error (-1), w') := by
  rcases hfails with hfails | ⟨hstatus, hfails⟩
  · refine ⟨w, ?_⟩
    unfold enterDirectory
    simp only
    rw [if_pos hfails]
  · cases hnamei : dfsNameiTimeout env.conf.maxRetry (replies.nameiTarget new) new w.remote with
    | mk status found =>
      rw [hnamei] at hstatus
      simp only at hstatus
      subst hstatus
      have hmkdir : (dfsMkdir env w new (replies.mkdir new)).1 = -1 := if_pos (hfails w.remote)
      refine ⟨(dfsMkdir env w new (replies.mkdir new)).2, ?_⟩
      unfold enterDirectory
      simp only [hnamei, reduceCtorEq, ne_eq, not_true_eq_false, not_false_eq_true, and_false, if_false, if_true,
        hmkdir]

/-- So is one that is entered or listed without success, with the code that is asked for. -/
theorem listDirectory_refused (hdir : w.remote.ftype old = some .dir)
    (hfails : replies.RefusesDir env old ∨ replies.EntersDir env old ∧
      env.statusCode (dfsOpendirTimeout env.conf.maxRetry (replies.opendir old)) = -1) (type : Ftype) :
    ∃ w', listDirectory env w old type replies = (.error (-1), w') := by
  have hcode : ∀ status, env.statusCode status = -1 → status ≠ .success := by
    rintro status hstatus rfl
    rw [env.statusCode_success] at hstatus
    exact absurd hstatus (by decide)
  unfold listDirectory
  rcases hfails with hfails | ⟨hentered, hfails⟩
  · have hstatus := hfails w.remote hdir
    exact ⟨w, by simp only; rw [if_pos (hcode _ hstatus), hstatus]⟩
  · refine ⟨{ w with cwd := old }, ?_⟩
    simp only [hentered w.remote hdir, ne_eq, not_true_eq_false, if_false]
    rw [if_pos (hcode _ hfails), hfails]

end Failing

namespace Forest

variable {env : Env} {replies : RenameReplies} {old new : CStr} {before : Remote}

/-- A loop over what is read of a directory returns -1 if the first call that fails is reported. -/
def Reported (env : Env) (replies : RenameReplies) (before : Remote)
    (recurse : PathRenaming → CStr → CStr → Exec (ℤ × PathRenaming)) (forest : Forest) (old new : CStr) : Prop :=
  ∀ (w : World) (type : Ftype) (ret : ℤ) (limit age : Option ℕ), forest.ReadyAt before w.remote old new →
    (∀ a ∈ age, a < tmpstrNb) → forest.Reports env replies before limit age old new →
    ∃ s, moveEntries env replies recurse old new (listed limit forest.listing) type ret ⟨w, age⟩ = .done (-1, s)

/-- So does the rename of the directory, given its loop. -/
theorem moveDirectory_reported {forest : Forest} (hplaced : forest.Placed old new) (hroot : old ≠ "/".toList)
    {depth : ℕ} (hloop : forest.Reported env replies before (moveDirectory env replies depth) old new) {w : World}
    (hdir : w.remote.ftype old = some .dir) (hlisted : w.remote.children old = forest.listing)
    (hready : forest.ReadyAt before w.remote old new) (hfree : w.remote.lookup new = before.lookup new)
    {age : Option ℕ} (hage : ∀ a ∈ age, a < tmpstrNb)
    (hreports : replies.ReportsDir env before old new
      (forest.Reports env replies before (replies.readdir old) age old new)) :
    ∃ s, moveDirectory env replies (depth + 1) ⟨w, age⟩ old new = .done (-1, s) := by
  rcases hreports with hfails | ⟨htarget, hreports⟩
  · have hfails' : replies.FailsTarget env w.remote new := by
      rw [RenameReplies.FailsTarget, dfsNameiTimeout_congr _ _ hfree]
      exact hfails
    obtain ⟨w', henter⟩ := enterDirectory_refused hfails' old
    exact ⟨⟨w', age⟩, by rw [moveDirectory, henter]⟩
  · have htarget' : replies.HasTarget env w.remote new := htarget.congr hfree
    by_cases hinside : replies.EntersDir env old ∧
        dfsOpendirTimeout env.conf.maxRetry (replies.opendir old) = .success ∧
        forest.Reports env replies before (replies.readdir old) age old new
    · obtain ⟨hentered, hopened, hinside⟩ := hinside
      obtain ⟨type, w₁, henter, -, hchanged, -⟩ :=
        enterDirectory_moves htarget' hentered hopened hplaced.apart.ne hdir
      rw [children_entered hplaced.apart hroot hchanged, hlisted] at henter
      obtain ⟨s, hran⟩ := hloop w₁ type 0 _ age (hready.entered hplaced hchanged) hage hinside
      exact ⟨s, by simp only [moveDirectory, henter, hran, Exec.done_bind, if_true]; rfl⟩
    · have hfails : replies.RefusesDir env old ∨ replies.EntersDir env old ∧
          env.statusCode (dfsOpendirTimeout env.conf.maxRetry (replies.opendir old)) = -1 := by
        rcases hreports with hrefused | ⟨hentered, hfailed | hread⟩
        · exact .inl hrefused
        · exact .inr ⟨hentered, hfailed⟩
        · exact absurd ⟨hentered, hread⟩ hinside
      obtain ⟨type, w₁, henter, -, hchanged, -⟩ := enterDirectory_target htarget' old
      have hdir₁ : w₁.remote.ftype old = some .dir :=
        (Remote.ftype_congr (hchanged.lookup old hplaced.apart.ne)).trans hdir
      obtain ⟨w', hlist⟩ := listDirectory_refused hdir₁ hfails type
      exact ⟨⟨w', age⟩, by rw [moveDirectory, henter, hlist]⟩

/-- So does the loop over any directory, however deep. -/
theorem reported (forest : Forest) {depth : ℕ} (hdepth : forest.depth ≤ depth) (hplaced : forest.Placed old new) :
    forest.Reported env replies before (moveDirectory env replies depth) old new := by
  intro w type ret limit age hready hage hreports
  induction forest generalizing old new w type ret limit age depth with
  | nil => exact hreports.elim
  | file name rest ih =>
    obtain ⟨hread, hroom, hreports⟩ := hreports
    have hname := hplaced.proper.1
    obtain ⟨obj, hobj, htype⟩ := hready.lies.1
    have hroot : slashed old name ≠ "/".toList := slashed_ne_root hname.ne_nil
    have hsrc : entryPath old name = slashed old name := entryPath_file hname (hplaced.short _ List.mem_cons_self)
    have hdst : entryPath new name = slashed new name := entryPath_file hname (hplaced.short' _ List.mem_cons_self)
    have hftype := Remote.ftype_of_lookup hroot hobj
    rw [listing, listed_cons hread]
    rcases hreports with hfails | ⟨hfinds, hreports⟩
    · exact ⟨_, moveEntries_refused hname.notSkipped hsrc (by rw [hftype]; rfl) hfails hroom _ _ _⟩
    · rcases hreports with ⟨hlast, hfails⟩ | ⟨hfile, hroom', hreports⟩
      · -- the value of the last entry that is read is that of the loop
        obtain ⟨s, hmove⟩ := moveFile_refused (w := w) hfails (by rw [hobj]; rfl) (age.map (· + 2))
        refine ⟨s, ?_⟩
        rw [moveEntries_found hname.notSkipped hsrc hdst hroot hobj hfinds, formatStrings_of_room hroom, Exec.done_bind,
          moveEntry, if_neg htype, hmove, hlast]
        rfl
      · obtain ⟨type₁, w₁, hstep, -, hchanged, -⟩ := moveEntries_file hplaced hready.lies hfinds hfile
        have hready₁ : rest.ReadyAt before w₁.remote old new := hready.after_file hplaced hchanged
        have hage' : ∀ a ∈ age.map (· + 3), a < tmpstrNb := fun a ha => by
          obtain ⟨b, hb, rfl⟩ := Option.mem_map.mp ha
          exact hroom' b hb
        rw [hstep, formatStrings_of_room hroom', Exec.done_bind]
        exact ih hdepth hplaced.rest_file w₁ type₁ 0 _ _ hready₁ hage' hreports
  | dir name inner rest ihInner ih =>
    obtain ⟨hread, hroom, hreports⟩ := hreports
    have hname := hplaced.proper.1
    have hroot : slashed old name ≠ "/".toList := slashed_ne_root hname.ne_nil
    have hftype := hready.ftype_dir hname
    have hsrc : entryPath old (name ++ "/".toList) = slashed old name :=
      entryPath_dir hname (hplaced.short _ List.mem_cons_self)
    obtain ⟨depth, rfl⟩ : ∃ n, depth = n + 1 := ⟨depth - 1, by
      have : inner.depth + 1 ≤ depth := (Nat.le_max_left _ _).trans hdepth
      omega⟩
    have hinnerDepth : inner.depth ≤ depth := Nat.le_of_succ_le_succ ((Nat.le_max_left _ _).trans hdepth)
    have hfree := hready.free _ List.mem_cons_self
    rw [listing, listed_cons hread]
    rcases hreports with hfails | ⟨hfinds, hreports⟩
    · exact ⟨_, moveEntries_refused (skipped_slash name) hsrc (by rw [hftype]; rfl) hfails hroom _ _ _⟩
    · rw [moveEntries_dir hplaced hready.lies hfinds hroom]
      rcases hreports with ⟨hlast, hfails⟩ | ⟨hdir, hin, hfits, hreports⟩
      · obtain ⟨s, hmove⟩ := moveDirectory_reported hplaced.inner hroot
          (fun w type ret limit age hready hage hreports =>
            ihInner hinnerDepth hplaced.inner w type ret limit age hready hage hreports)
          hftype hready.lies.2.1 hready.inner hfree (innerAge_lt hroom) hfails
        rw [hmove, hlast]
        exact ⟨_, rfl⟩
      · obtain ⟨w₁, hmoved, hmoves, -⟩ := (moveDirectory_moves hplaced.inner hroot hdir
          (movedBy inner hinnerDepth hplaced.inner hin) hftype hready.lies.2.1 hready.inner hfree
          (innerAge_lt hroom)).1 hfits
        have hready₁ : rest.ReadyAt before w₁.remote old new := hready.after_dir hplaced hmoves.changed
        rw [hmoved]
        simp only [Exec.done_bind]
        rw [innerAge_after]
        exact ih ((Nat.le_max_right _ _).trans hdepth) hplaced.rest_dir w₁ .dir 0 _ _ hready₁ (innerAge_after_lt hfits)
          hreports

end Forest

namespace RemoteTree

variable {env : Env} {replies : RenameReplies} {tree : RemoteTree} {w : World} {ring : Ring} {old new : CStr}
  {depth : ℕ}

/-- The rename of a tree whose calls all succeed moves it as a whole. -/
theorem PlacedAt.goneOver (h : tree.PlacedAt w.remote old new) (hdepth : tree.inside.depth < depth)
    (hidle : ring.live = []) (hmoves : tree.MovesWhole env replies w.remote old new) :
    ∃ s', renameDirectory env replies depth ⟨w, ring⟩ (.caller old) (.caller new) = .done (0, s') ∧
      tree.inside.DirGoneOver w.remote s'.world.remote old new := by
  obtain ⟨w', hmove, -, hover⟩ := (h.moveDirectory hmoves.entered hmoves.moves hdepth).1 hmoves.fits
  obtain ⟨ring', hdone, -⟩ := renameDirectory_of_moved hidle hmove
  exact ⟨⟨w', ring'⟩, hdone, hover hmoves.cleared hmoves.clears⟩

/-- The rename of a tree returns -1 if the first call that fails is reported. -/
theorem PlacedAt.reported (h : tree.PlacedAt w.remote old new) (hdepth : tree.inside.depth < depth)
    (hidle : ring.live = []) (hreports : replies.ReportsDir env w.remote old new
      (tree.inside.Reports env replies w.remote (replies.readdir old) none old new)) :
    ∃ s', renameDirectory env replies depth ⟨w, ring⟩ (.caller old) (.caller new) = .done (-1, s') := by
  obtain ⟨depth, rfl⟩ : ∃ n, depth = n + 1 := ⟨depth - 1, by omega⟩
  obtain ⟨s, hmove⟩ := Forest.moveDirectory_reported h.placed h.notRoot
    (Forest.reported tree.inside (Nat.le_of_lt_succ hdepth) h.placed) (h.stands.ftype h.notRoot) h.stands.listed
    ⟨h.stands.inside, fun _ _ => rfl⟩ rfl (fun _ hnone => absurd hnone (Option.not_mem_none _)) hreports
  obtain ⟨ring', hdone, -⟩ := renameDirectory_of_moved hidle hmove
  exact ⟨⟨s.world, ring'⟩, hdone⟩

end RemoteTree

/-- A rename of a directory in which no failure is forgotten returns, and when it returns zero, the whole tree is under
the new path and nothing of it under the old one. -/
theorem dfsRename_complete (env : Env) (replies : RenameReplies) (tree : RemoteTree) (w : World) (ring : Ring)
    (old new : CStr) (depth : ℕ) (hplaced : tree.PlacedAt w.remote old (renameTarget old new))
    (hdepth : tree.inside.depth < depth) (hidle : ring.live = [])
    (hopenly : tree.FailsOpenly env replies w.remote old (renameTarget old new)) :
    ∃ ret s', dfsRename env depth ⟨w, ring⟩ old new replies = .done (ret, s') ∧
      (ret = 0 → tree.inside.DirGoneOver w.remote s'.world.remote old (renameTarget old new)) := by
  obtain ⟨hnamei, hopenly⟩ := hopenly
  have htype : (dfsNameiTimeout env.conf.maxRetry replies.namei old w.remote).2 = some .dir :=
    (dfsNameiTimeout_success _ _ _ _ hnamei).1.trans (hplaced.stands.ftype hplaced.notRoot)
  rcases hopenly with hmoves | hreports
  · obtain ⟨s', hrun, hover⟩ := hplaced.goneOver hdepth hidle hmoves
    refine ⟨0, s', ?_, fun _ => hover⟩
    simp only [dfsRename, htype, Option.getD_some, renameByType, hrun, Exec.done_bind]
    rfl
  · obtain ⟨s', hrun⟩ := hplaced.reported hdepth hidle hreports
    refine ⟨-1, s', ?_, fun hzero => absurd hzero (by decide)⟩
    simp only [dfsRename, htype, Option.getD_some, renameByType, hrun, Exec.done_bind]
    rfl

/-- Granted calls remove directories. -/
theorem RenameReplies.granted_clearsDir (env : Env) {r : Remote} {old new : CStr} (hroot : old ≠ "/".toList)
    (hroom : ∀ type ∈ r.ftype new, type = .dir) : RenameReplies.granted.ClearsDir env r old new where
  removed r hdir := by
    rw [Remote.ftype, if_neg hroot] at hdir
    have hsome : (r.lookup old).isSome = true := by
      cases hobj : r.lookup old with
      | none => simp [hobj] at hdir
      | some obj => rfl
    have hfirst : (dplRmdir .granted old r).1 = .success := by
      rw [dplRmdir, if_pos hdir]
      exact (Status.onExisting_eq_success _ _).mpr ⟨rfl, hsome⟩
    rw [dfsRmdirTimeout, writeTimeout, Attempts.run_of_decisive _ _ _ _ _ (congrArg Status.retriable hfirst)]
    exact hfirst
  room := hroom

/-- The small tree is moved as a whole when every call is granted. -/
theorem sparse_complete :
    ∃ ret s', dfsRename .plain 2 ⟨.start .empty (sparse.store "/o".toList), .start⟩ "/o".toList "/n".toList .granted =
        .done (ret, s') ∧
      (ret = 0 → sparse.inside.DirGoneOver (sparse.store "/o".toList) s'.world.remote "/o".toList "/n".toList) := by
  have hplaced : sparse.PlacedAt (sparse.store "/o".toList) "/o".toList "/n".toList :=
    RemoteTree.placedAt_store (by decide) (by decide) (by decide +kernel) (by decide +kernel) (by decide +kernel)
      (by decide +kernel)
  have hclears : sparse.inside.Clears .plain .granted (sparse.store "/o".toList) "/o".toList "/n".toList := by
    intro rel hrel
    obtain rfl : rel = "d".toList := by simpa [sparse, Forest.dirs] using hrel
    exact RenameReplies.granted_clearsDir _ (by decide) (by decide +kernel)
  have hmove := hplaced.canMove .plain "/o".toList "/n".toList
  exact dfsRename_complete .plain .granted sparse (.start .empty (sparse.store "/o".toList)) .start "/o".toList
    "/n".toList 2 hplaced (by decide) rfl ⟨by decide +kernel, .inl ⟨by decide, hmove.entered, hmove.moves,
      RenameReplies.granted_clearsDir _ (by decide) (by decide +kernel), hclears⟩⟩

/-- A directory with two files. -/
def pair : RemoteTree := ⟨.file "f".toList (.file "g".toList .nil), by decide +kernel⟩

/-- Every call succeeds but the copy of the first of them. -/
def halfRefused : RenameReplies :=
  { RenameReplies.granted with
    fcopy := fun old _ _ => if old = "/o/f".toList then .refused else .granted }

/-- The value of the last file hides that the first was not copied. -/
theorem pair_not_complete :
    pair.PlacedAt (pair.store "/o".toList) "/o".toList "/n".toList ∧
      ∃ s', dfsRename .plain 1 ⟨.start .empty (pair.store "/o".toList), .start⟩ "/o".toList "/n".toList halfRefused =
          .done (0, s') ∧
        ¬ pair.inside.DirGoneOver (pair.store "/o".toList) s'.world.remote "/o".toList "/n".toList := by
  refine ⟨RemoteTree.placedAt_store (by decide) (by decide) (by decide +kernel) (by decide +kernel) (by decide +kernel)
    (by decide +kernel), _, rfl, fun hover => ?_⟩
  have hgone := hover.inside.gone "/o/f".toList (by decide +kernel)
  exact absurd hgone (by decide +kernel)

end Dropletfs
