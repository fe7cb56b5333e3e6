import Dropletfs.SharedDirectory

/-!
# A rename that runs alone

The rename of a request whose calls nobody interleaves with is the rename of a program
that makes them one after the other: the same value, the same ring, and the same state,
but for the calls that are noted.
-/

namespace Dropletfs

namespace World

/-- The state without the calls that were noted. -/
def untraced (w : World) : World := { w with trace := [] }

/-- Removing a path from the list of a directory notes nothing. -/
theorem removeDirentOf_untraced (w : World) (dir : Option CStr) (path : CStr) (junk : Filetype) :
    (w.removeDirentOf dir path junk).untraced = w.untraced.removeDirentOf dir path junk := by
  unfold removeDirentOf
  cases hentry : dir.bind w.table with
  | none => simp only [untraced, hentry]
  | some addr =>
    simp only [untraced, hentry, modify]
    cases w.heap addr <;> rfl

/-- Removing a path notes nothing. -/
theorem remove_untraced (w : World) (path : CStr) : (w.remove path).untraced = w.untraced.remove path := by
  unfold remove
  simp only [untraced]
  cases w.table path with
  | none => rfl
  | some addr =>
    simp only [free]
    cases w.heap addr <;> rfl

end World

namespace Interleaving

open Parties (Prog)

/-- A reply that is only a status. -/
def StepReply.of (status : Status) : StepReply := ⟨⟨status, true, fun _ => rfl⟩, true, .reg⟩

section Wrappers

variable {env : Env} {retriable : Status → Bool} {call : Call}

/-- A wrapper around a call that changes the store. -/
theorem write_runs {change : Reply → Remote → Status × Remote} (w : World) (replies : ℕ → Reply)
    (hperform : ∀ (w : World) (r : StepReply), perform env w call r =
      answered w (change r.call w.remote).1 { w with remote := (change r.call w.remote).2 }) :
    ∃ answer, answer.status = (writeTimeout env.conf.maxRetry retriable (fun i => change (replies i)) w.remote).1 ∧
      (timeout env retriable call).Runs (perform env) w answer
        { w with remote := (writeTimeout env.conf.maxRetry retriable (fun i => change (replies i)) w.remote).2 } := by
  have hruns : (timeout env retriable call).Runs (perform env) w _ _ :=
    .retry _ call (fun i => ⟨replies i, true, .reg⟩) env.conf.maxRetry.toNat 0 w
  have hrel := @Attempts.run_rel Remote Status World Answer retriable (fun answer => retriable answer.status)
    (fun i => change (replies i)) (fun i w => perform env w call ⟨replies i, true, .reg⟩)
    (fun r w' => w' = { w with remote := r }) (fun x y => y.1.status = x.1 ∧ y.2 = { w with remote := x.2 })
    (by
      rintro i r w' rfl
      rw [hperform]
      exact ⟨rfl, rfl⟩)
    (fun x y h => by rw [h.1]) (fun x y h _ => h.2) env.conf.maxRetry.toNat 0 w.remote w rfl
  refine ⟨_, hrel.1, ?_⟩
  rw [hrel.2] at hruns
  exact hruns

/-- A wrapper around a call that leaves the store alone, and the state as long as it is made again. -/
theorem read_runs {α : Type} {read : Status → Status × α} (w : World) (replies : ℕ → Status)
    (O : Status × α → Answer × World → Prop)
    (hperform : ∀ status, O (read status) (perform env w call (.of status)))
    (hagree : ∀ x y, O x y → retriable x.1 = retriable y.1.status)
    (hagain : ∀ x y, O x y → retriable x.1 = true → y.2 = w) :
    ∃ answer w', O (readTimeout env.conf.maxRetry retriable fun i => read (replies i)) (answer, w') ∧
      (timeout env retriable call).Runs (perform env) w answer w' := by
  have hruns : (timeout env retriable call).Runs (perform env) w _ _ :=
    .retry _ call (fun i => .of (replies i)) env.conf.maxRetry.toNat 0 w
  have hrel := @Attempts.run_rel Unit (Status × α) World Answer (fun reply => retriable reply.1)
    (fun answer => retriable answer.status) (fun i _ => (read (replies i), ()))
    (fun i w => perform env w call (.of (replies i))) (fun _ w' => w' = w) (fun x y => O x.1 y)
    (by
      rintro i - w' rfl
      exact hperform (replies i))
    (fun x y h => hagree x.1 y h) (fun x y h hretry => hagain x.1 y h hretry) env.conf.maxRetry.toNat 0 () w rfl
  exact ⟨_, _, hrel, hruns⟩

/-- Looking a path up. -/
theorem namei_runs (w : World) (replies : ℕ → Status) (path : CStr) :
    ∃ answer, (answer.status, answer.found) =
        Dropletfs.dfsNameiTimeout env.conf.maxRetry replies path w.remote ∧
      (dfsNameiTimeout env path).Runs (perform env) w answer w := by
  obtain ⟨answer, w', ⟨hanswer, rfl⟩, hruns⟩ := @read_runs env Status.retriable (.namei path) (Option Ftype)
    (fun status => dplNamei status path w.remote) w replies (fun x y => (y.1.status, y.1.found) = x ∧ y.2 = w)
    (fun _ => ⟨rfl, rfl⟩) (fun x y h => by rw [← h.1]) (fun _ _ h _ => h.2)
  exact ⟨answer, hanswer, hruns⟩

/-- Changing to a directory. -/
theorem chdir_runs (w : World) (replies : ℕ → Status) (dir : CStr) :
    ∃ answer, answer.status = Dropletfs.dfsChdirTimeout env.conf.maxRetry replies dir w.remote ∧
      (dfsChdirTimeout env dir).Runs (perform env) w answer
        (if answer.status = .success then { w with cwd := dir } else w) := by
  obtain ⟨answer, w', ⟨hstatus, hw'⟩, hruns⟩ := @read_runs env Status.retriableChdir (.chdir dir) Unit
    (fun status => (dplChdir status dir w.remote, ())) w replies
    (fun x y => y.1.status = x.1 ∧ y.2 = if y.1.status = .success then { w with cwd := dir } else w)
    (fun _ => ⟨rfl, rfl⟩) (fun x y h => by rw [h.1]) (fun x y h hretry => by
      have hfailed : y.1.status ≠ .success := by
        rw [h.1]
        intro hsuccess
        rw [hsuccess] at hretry
        cases hretry
      rw [h.2, if_neg hfailed])
  simp only at hw'
  rw [hw'] at hruns
  exact ⟨answer, hstatus, hruns⟩

/-- Listing the current directory. -/
theorem opendir_runs (w : World) (replies : ℕ → Status) (dir : CStr) :
    ∃ answer, answer.status = Dropletfs.dfsOpendirTimeout env.conf.maxRetry replies ∧
      answer.names = w.remote.children w.cwd ∧ (dfsOpendirTimeout env dir).Runs (perform env) w answer w := by
  obtain ⟨answer, w', ⟨hstatus, hnames, rfl⟩, hruns⟩ := @read_runs env Status.retriable (.opendir dir) Unit
    (fun status => (status, ())) w replies
    (fun x y => y.1.status = x.1 ∧ y.1.names = w.remote.children w.cwd ∧ y.2 = w)
    (fun _ => ⟨rfl, rfl, rfl⟩) (fun x y h => by rw [h.1]) (fun _ _ h _ => h.2.2)
  exact ⟨answer, hstatus, hnames, hruns⟩

end Wrappers

section Rename

variable {env : Env}

/-- `tmpstr_printf`. -/
theorem printf_runs {ring ring' : Ring} {dir : StrPtr} {name : CStr} {slot : ℕ} (w : World)
    (h : ring.printf dir name = .done (slot, ring')) :
    (printf ring dir name).Runs (perform env) w (slot, ring') w :=
  .bind (.request w _ .granted) (.ofExec w h)

/-- `dfs_unlink`, and the string it formats once the object is removed. -/
theorem dfsUnlink_runs {w w' : World} {path : CStr} {replies : UnlinkReplies} {ret : ℤ} (ring : Ring)
    (h : Dropletfs.dfsUnlink env w path replies = (ret, w')) :
    (dfsUnlink env ring path).Runs (perform env) w.untraced
      (ret, if ret = 0 then ring.push (cacheName env.conf path) else ring) w'.untraced := by
  obtain ⟨answer, hstatus, hruns⟩ := @write_runs env Status.retriable (.unlink path)
    (fun reply => dplUnlink reply path) w.untraced replies.unlink fun _ _ => rfl
  refine .bind hruns ?_
  unfold Dropletfs.dfsUnlink Dropletfs.dfsUnlinkTimeout at h
  rw [show answer.status = (writeTimeout env.conf.maxRetry Status.retriable
    (fun i => dplUnlink (replies.unlink i) path) w.remote).1 from hstatus]
  simp only at h
  split at h
  · rename_i hfailed
    obtain ⟨rfl, rfl⟩ := Prod.mk.injEq .. ▸ h
    rw [if_pos hfailed]
    exact .done
  · rename_i hsuccess
    rw [if_neg hsuccess]
    refine .bind (.request _ _ .granted) (.bind (.request _ _ ⟨.granted, replies.unlinkCache, replies.junkType⟩) ?_)
    split at h
    · rename_i hnone
      have hnone' : w.untraced.table path = none := hnone
      simp only [Prod.mk.injEq] at h
      obtain ⟨rfl, rfl⟩ := h
      simp only [perform, answered, hnone', if_true]
      exact .done
    · rename_i addr hsome
      have hsome' : w.untraced.table path = some addr := hsome
      simp only [Prod.mk.injEq] at h
      obtain ⟨rfl, rfl⟩ := h
      simp only [perform, answered, hsome', if_true, World.removeDirentOf_untraced, World.remove_untraced]
      exact .done

/-- `dfs_rmdir`. -/
theorem dfsRmdir_runs (w : World) (path : CStr) (replies : RmdirReplies) :
    ∃ ret, (dfsRmdir env path).Runs (perform env) w.untraced ret
      (Dropletfs.dfsRmdir env w path replies).2.untraced := by
  obtain ⟨answer, hstatus, hruns⟩ := @write_runs env Status.retriable (.rmdir path)
    (fun reply => dplRmdir reply path) w.untraced replies.rmdir fun _ _ => rfl
  unfold Dropletfs.dfsRmdir Dropletfs.dfsRmdirTimeout
  simp only
  split
  · rename_i hfailed
    refine ⟨-1, .bind hruns ?_⟩
    rw [if_pos (by rw [hstatus]; exact hfailed)]
    exact .done
  · rename_i hsuccess
    refine ⟨0, .bind hruns ?_⟩
    rw [if_neg (by rw [hstatus]; exact hsuccess)]
    refine .bind (.request _ _ ⟨.granted, true, replies.junkType⟩) ?_
    split
    · rename_i hnone
      have hnone' : w.untraced.table path = none := hnone
      simp only [perform, answered, World.removeDirentOf, Option.bind_some, hnone']
      exact .done
    · simp only [perform, answered, World.removeDirentOf_untraced]
      exact .done

/-- `rename_file`. -/
theorem renameFile_runs {w w' : World} {old new : CStr} {replies : RenameReplies} {ret : ℤ} (ring : Ring)
    (h : Dropletfs.renameFile env w old new replies = (ret, w')) :
    (renameFile env ring old new).Runs (perform env) w.untraced
      (ret, if ret = 0 then ring.push (cacheName env.conf old) else ring) w'.untraced := by
  obtain ⟨answer, hstatus, hruns⟩ := @write_runs env Status.retriable (.fcopy old new)
    (fun reply => dplFcopy reply old new) w.untraced (replies.fcopy old new) fun _ _ => rfl
  refine .bind hruns ?_
  unfold Dropletfs.renameFile Dropletfs.dfsFcopyTimeout at h
  rw [show answer.status = (writeTimeout env.conf.maxRetry Status.retriable
    (fun i => dplFcopy (replies.fcopy old new i) old new) w.remote).1 from hstatus]
  simp only at h
  split at h
  · rename_i hfailed
    obtain ⟨rfl, rfl⟩ := Prod.mk.injEq .. ▸ h
    have hfailed' : (writeTimeout env.conf.maxRetry Status.retriable
        (fun i => dplFcopy (replies.fcopy old new i) old new) w.remote).1 ≠ .success := hfailed
    rw [if_pos hfailed']
    exact .done
  · rename_i hsuccess
    have hsuccess' : ¬ (writeTimeout env.conf.maxRetry Status.retriable
        (fun i => dplFcopy (replies.fcopy old new i) old new) w.remote).1 ≠ .success := hsuccess
    rw [if_neg hsuccess']
    refine .bind (.request _ _ ⟨.granted, true, (replies.unlink old).junkType⟩) ?_
    have hunlinked := dfsUnlink_runs ring h
    rw [World.removeDirentOf_untraced] at hunlinked
    exact hunlinked

/-- `rename_file` on strings of the ring. -/
theorem renameFileAt_runs {s s' : Renaming} {src dst : StrPtr} {replies : RenameReplies} {ret : ℤ}
    (h : renameFileAt env s src dst replies = (ret, s')) :
    (renameFile env s.ring (s.ring.deref src) (s.ring.deref dst)).Runs (perform env) s.world.untraced (ret, s'.ring)
      s'.world.untraced := by
  unfold renameFileAt at h
  cases hmoved : Dropletfs.renameFile env s.world (s.ring.deref src) (s.ring.deref dst) replies with
  | mk ret₁ w =>
    have hruns := renameFile_runs s.ring hmoved
    simp only [hmoved] at h
    split at h
    · rename_i hzero
      obtain ⟨rfl, rfl⟩ := Prod.mk.injEq .. ▸ h
      rw [if_pos hzero] at hruns
      exact hruns
    · rename_i hnonzero
      obtain ⟨rfl, rfl⟩ := Prod.mk.injEq .. ▸ h
      rw [if_neg hnonzero] at hruns
      exact hruns

/-- The new directory is made if there is none. -/
theorem makeMissing_runs (env : Env) (w : World) (new : CStr) (status : Status) (replies : RenameReplies) :
    (makeMissing env new status).Runs (perform env) w.untraced
      (if status = .enoent then Dropletfs.dfsMkdir env w new (replies.mkdir new) else (0, w)).1
      (if status = .enoent then Dropletfs.dfsMkdir env w new (replies.mkdir new) else (0, w)).2.untraced := by
  unfold makeMissing
  split
  · obtain ⟨answer, hstatus, hruns⟩ := @write_runs env Status.retriable (.mkdir new)
      (fun reply => dplMkdir reply new) w.untraced (replies.mkdir new) fun _ _ => rfl
    have hsame : answer.status =
        (Dropletfs.dfsMkdirTimeout env.conf.maxRetry (replies.mkdir new) new w.remote).1 := hstatus
    refine .bind hruns ?_
    rw [hsame]
    exact .done
  · exact .done

/-- The loop goes through a first part of a listing, or there is no listing. -/
inductive Begins : Except ℤ (Ftype × List CStr) → Except ℤ (Ftype × List CStr) → Prop
  | unlisted {ret : ℤ} : Begins (.error ret) (.error ret)
  | listed {type : Ftype} {names : List CStr} (rest : List CStr) :
      Begins (.ok (type, names)) (.ok (type, names ++ rest))

/-- `rename_directory` up to its loop, which goes through a first part of the listing. -/
theorem enterDirectory_runs {w w' : World} {old new : CStr} {replies : RenameReplies}
    {result : Except ℤ (Ftype × List CStr)} (h : Dropletfs.enterDirectory env w old new replies = (result, w')) :
    ∃ listing, (enterDirectory env old new replies.junkEntryType).Runs (perform env) w.untraced listing w'.untraced ∧
      Begins result listing := by
  obtain ⟨found, hfound, hlooks⟩ := @namei_runs env w.untraced (replies.nameiTarget new) new
  have hlookup : Dropletfs.dfsNameiTimeout env.conf.maxRetry (replies.nameiTarget new) new w.remote =
      (found.status, found.found) := hfound.symm
  unfold Dropletfs.enterDirectory at h
  rw [hlookup] at h
  simp only at h
  split at h
  · rename_i hunknown
    obtain ⟨rfl, rfl⟩ := Prod.mk.injEq .. ▸ h
    refine ⟨.error (-1), .bind hlooks ?_, .unlisted⟩
    rw [if_pos hunknown]
    exact .done
  · rename_i hknown
    have hmakes := makeMissing_runs env w new found.status replies
    generalize (if found.status = .enoent then Dropletfs.dfsMkdir env w new (replies.mkdir new) else (0, w)) = made
      at h hmakes
    obtain ⟨ret, w₁⟩ := made
    simp only at h hmakes
    split at h
    · rename_i hret
      obtain ⟨rfl, rfl⟩ := Prod.mk.injEq .. ▸ h
      refine ⟨.error (-1), .bind hlooks ?_, .unlisted⟩
      rw [if_neg hknown]
      refine .bind hmakes ?_
      rw [if_pos hret]
      exact .done
    · rename_i hret
      obtain ⟨entered, hentered, henters⟩ := @chdir_runs env w₁.untraced (replies.chdir old) old
      have hentered' : Dropletfs.dfsChdirTimeout env.conf.maxRetry (replies.chdir old) old w₁.remote =
          entered.status := hentered.symm
      rw [hentered'] at h
      split at h
      · rename_i hrefused
        obtain ⟨rfl, rfl⟩ := Prod.mk.injEq .. ▸ h
        refine ⟨.error (env.statusCode entered.status), .bind hlooks ?_, .unlisted⟩
        rw [if_neg hknown]
        refine .bind hmakes ?_
        rw [if_neg hret]
        refine .bind henters ?_
        rw [if_pos hrefused, if_neg hrefused]
        exact .done
      · rename_i hsuccess
        rw [if_pos (not_not.mp hsuccess)] at henters
        obtain ⟨listed, hlisted, hnames, hlists⟩ :=
          @opendir_runs env { w₁.untraced with cwd := old } (replies.opendir old) old
        rw [← hlisted] at h
        split at h
        · rename_i hrefused
          obtain ⟨rfl, rfl⟩ := Prod.mk.injEq .. ▸ h
          refine ⟨.error (env.statusCode listed.status), .bind hlooks ?_, .unlisted⟩
          rw [if_neg hknown]
          refine .bind hmakes ?_
          rw [if_neg hret]
          refine .bind henters ?_
          rw [if_neg hsuccess]
          refine .bind hlists ?_
          rw [if_pos hrefused]
          exact .done
        · rename_i hopened
          obtain ⟨rfl, rfl⟩ := Prod.mk.injEq .. ▸ h
          refine ⟨.ok (found.found.getD (replies.junkEntryType new), listed.names), .bind hlooks ?_, ?_⟩
          · rw [if_neg hknown]
            refine .bind hmakes ?_
            rw [if_neg hret]
            refine .bind henters ?_
            rw [if_neg hsuccess]
            refine .bind hlists ?_
            rw [if_neg hopened]
            exact .done
          · have hwhole : listed.names = w₁.remote.children old := hnames
            cases replies.readdir old with
            | none =>
              have hnames : listed.names = w₁.remote.children old ++ [] := by rw [hwhole, List.append_nil]
              rw [hnames]
              exact .listed []
            | some count =>
              rw [hwhole.trans (List.take_append_drop count (w₁.remote.children old)).symm]
              exact .listed _

/-- What is done with an entry. -/
theorem renameEntry_runs {replies : RenameReplies} {recurse : Renaming → StrPtr → StrPtr → Exec (ℤ × Renaming)}
    {recurse' : Ring → StrPtr → StrPtr → Request (ℤ × Ring)}
    (hrecurse : ∀ s src dst ret s', recurse s src dst = .done (ret, s') →
      (recurse' s.ring src dst).Runs (perform env) s.world.untraced (ret, s'.ring) s'.world.untraced)
    {s s' : Renaming} {type : Ftype} {src dst : StrPtr} {ret : ℤ}
    (h : Dropletfs.renameEntry env replies recurse s type src dst = .done (ret, s')) :
    (renameEntry env recurse' s.ring type src dst).Runs (perform env) s.world.untraced (ret, s'.ring)
      s'.world.untraced := by
  unfold Dropletfs.renameEntry at h
  unfold renameEntry
  split at h
  · rename_i hdir
    rw [if_pos hdir]
    exact hrecurse _ _ _ _ _ h
  · rename_i hfile
    rw [if_neg hfile]
    exact renameFileAt_runs (Exec.done.inj h)

/-- The loop, which goes through a first part of the listing and then finds its end or fails to read on. -/
theorem renameEntries_runs {replies : RenameReplies} {recurse : Renaming → StrPtr → StrPtr → Exec (ℤ × Renaming)}
    {recurse' : Ring → StrPtr → StrPtr → Request (ℤ × Ring)}
    (hrecurse : ∀ s src dst ret s', recurse s src dst = .done (ret, s') →
      (recurse' s.ring src dst).Runs (perform env) s.world.untraced (ret, s'.ring) s'.world.untraced)
    {old new : StrPtr} (listed rest : List CStr) (type : Ftype) (ret ret' : ℤ) (s s' : Renaming)
    (h : Dropletfs.renameEntries env replies recurse old new listed type ret s = .done (ret', s')) :
    (renameEntries env recurse' old new (listed ++ rest) type ret s.ring).Runs (perform env) s.world.untraced
      (ret', s'.ring) s'.world.untraced := by
  induction listed generalizing type ret s with
  | nil =>
    simp only [Dropletfs.renameEntries, Exec.done.injEq, Prod.mk.injEq] at h
    obtain ⟨rfl, rfl⟩ := h
    cases rest with
    | nil => exact .bind (.request _ _ .granted) .done
    | cons name rest =>
      refine .bind (.request _ _ (.of .failure)) ?_
      exact .done
  | cons name listed ih =>
    simp only [Dropletfs.renameEntries] at h
    refine .bind (.request _ _ .granted) ?_
    rw [if_neg (by simp [perform, answered, StepReply.granted, Reply.granted])]
    split at h
    · rename_i hskipped
      rw [if_pos hskipped]
      exact ih _ _ _ h
    · rename_i hskipped
      rw [if_neg hskipped]
      obtain ⟨⟨src, ring₁⟩, hsrc, h⟩ := Exec.bind_eq_done.mp h
      obtain ⟨⟨dst, ring₂⟩, hdst, h⟩ := Exec.bind_eq_done.mp h
      refine .bind (printf_runs _ hsrc) (.bind (printf_runs _ hdst) ?_)
      simp only at h
      obtain ⟨found, hfound, hlooks⟩ := @namei_runs env s.world.untraced
        (replies.nameiEntry (((ring₂.amend src dropTrailingSlash).amend dst dropTrailingSlash).slots src))
        (((ring₂.amend src dropTrailingSlash).amend dst dropTrailingSlash).slots src)
      refine .bind hlooks ?_
      have hlookup := hfound.symm
      rw [show s.world.untraced.remote = s.world.remote from rfl] at hlookup
      rw [hlookup] at h
      simp only at h
      split at h
      · rename_i hunknown
        rw [if_pos hunknown]
        obtain ⟨rfl, rfl⟩ := Prod.mk.injEq .. ▸ Exec.done.inj h
        exact .done
      · rename_i hknown
        rw [if_neg hknown]
        obtain ⟨⟨ret₁, s₁⟩, hentry, h⟩ := Exec.bind_eq_done.mp h
        exact .bind (renameEntry_runs hrecurse hentry) (ih _ _ _ h)

/-- The rename of a directory. -/
theorem renameDirectory_runs {replies : RenameReplies} (depth : ℕ) (s : Renaming) (old new : StrPtr) (ret : ℤ)
    (s' : Renaming) (h : Dropletfs.renameDirectory env replies depth s old new = .done (ret, s')) :
    (renameDirectory env replies.junkEntryType depth s.ring old new).Runs (perform env) s.world.untraced (ret, s'.ring)
      s'.world.untraced := by
  induction depth generalizing s old new ret s' with
  | zero => cases h
  | succ depth ih =>
    simp only [Dropletfs.renameDirectory] at h
    cases hentered : Dropletfs.enterDirectory env s.world (s.ring.deref old) (s.ring.deref new) replies with
    | mk result w =>
      obtain ⟨listing, henters, hbegins⟩ := enterDirectory_runs hentered
      rw [hentered] at h
      refine .bind henters ?_
      cases hbegins with
      | unlisted =>
        obtain ⟨rfl, rfl⟩ := Prod.mk.injEq .. ▸ Exec.done.inj h
        exact .done
      | @listed type listed rest =>
        simp only at h
        obtain ⟨⟨ret₁, s₁⟩, hloop, h⟩ := Exec.bind_eq_done.mp h
        refine .bind (renameEntries_runs ih listed rest type 0 ret₁ _ s₁ hloop) ?_
        simp only at h
        split at h
        · rename_i hfailed
          obtain ⟨rfl, rfl⟩ := Prod.mk.injEq .. ▸ Exec.done.inj h
          simp only [hfailed, if_true]
          exact .done
        · rename_i hmoved
          obtain ⟨rfl, rfl⟩ := Prod.mk.injEq .. ▸ Exec.done.inj h
          simp only [hmoved, if_false]
          obtain ⟨_, hremoves⟩ := @dfsRmdir_runs env (s₁.world.log (.dfsRmdir (s₁.ring.deref old)))
            (s₁.ring.deref old) (replies.rmdir (s₁.ring.deref old))
          exact .bind hremoves .done

/-- `dfs_rename`. -/
theorem dfsRename_runs {depth : ℕ} {s s' : Renaming} {old new : CStr} {replies : RenameReplies} {ret : ℤ}
    (h : Dropletfs.dfsRename env depth s old new replies = .done (ret, s')) :
    (dfsRename env replies.junkType replies.junkEntryType depth s.ring old new).Runs (perform env) s.world.untraced ret
      s'.world.untraced := by
  obtain ⟨found, hfound, hlooks⟩ := @namei_runs env s.world.untraced replies.namei old
  have hfound' : (Dropletfs.dfsNameiTimeout env.conf.maxRetry replies.namei old s.world.remote).2 = found.found :=
    (congrArg Prod.snd hfound).symm
  simp only [Dropletfs.dfsRename, hfound'] at h
  obtain ⟨⟨ret₁, s₁⟩, hbyType, h⟩ := Exec.bind_eq_done.mp h
  obtain ⟨rfl, rfl⟩ := Prod.mk.injEq .. ▸ Exec.done.inj h
  refine .bind hlooks ?_
  cases htype : found.found.getD replies.junkType with
  | reg =>
    rw [htype] at hbyType
    exact .bind (renameFileAt_runs (Exec.done.inj hbyType)) .done
  | dir =>
    rw [htype] at hbyType
    exact .bind (renameDirectory_runs depth s _ _ ret₁ s₁ hbyType) .done
  | other =>
    rw [htype] at hbyType
    obtain ⟨rfl, rfl⟩ := Prod.mk.injEq .. ▸ Exec.done.inj hbyType
    exact .done

/-- A request for a rename whose calls no other request interleaves with ends with the value and the state of the
rename that makes them one after the other. -/
theorem dfsRename_alone {ι : Type} [DecidableEq ι] {running : Running ι} {i : ι} {depth : ℕ} {s s' : Renaming}
    {old new : CStr} {replies : RenameReplies} {ret : ℤ}
    (hprog : running.prog i =
      (Asked.rename replies.junkType replies.junkEntryType depth s.ring old new).serve env)
    (hshared : running.shared = s.world.untraced)
    (h : Dropletfs.dfsRename env depth s old new replies = .done (ret, s')) :
    ∃ running' : Running ι,
      GuardedRuns.Reaches (Parties.step (perform env) listing.logged) (fun _ next => next.1 = i)
        (fun t => t = running) running' ∧
      running'.prog i = .done ret ∧ running'.shared = s'.world.untraced := by
  apply Parties.reaches_alone
  rw [hprog, hshared]
  exact dfsRename_runs h

end Rename

end Interleaving

end Dropletfs
