import Dropletfs.PlainFiles
import Dropletfs.Unmount

/-!
# Runs beside plain files

A run of the program is followed by plain files, which start out as the files of the store and
undergo what each request changes. The program may be unmounted and mounted again, or die. In
runs of careful requests it shows these files at any time: to a reader, whatever handle he reads
through, and to whoever opens a file on the same store once nobody writes it any more.
-/

namespace Dropletfs

open FileMap (Change Files applyAll)

/-- What a request changes. -/
def Op.changes (env : Env) (s : Session) : Op → List (Change CStr UInt8)
  | .mknod path replies => emptied path ((dfsMknod env s.world path replies).1 = 0)
  | .create path mode flags replies => createChanges env s.world path mode flags replies
  | .open path flags replies => openChanges env s.world path flags replies
  | .write i data offset replies =>
    match s.handles[i]? with
    | none => []
    | some handle =>
      if isRdonly handle.flags then []
      else changesOf (dfsWrite s.world handle.addr data offset replies) fun result =>
        writeChanges handle.path offset data result.1
  | .unlink path replies => unlinkChanges path (dfsUnlink env s.world path replies).1
  | .rename _ _ old new replies =>
    if renameType env s.world old replies = .reg then
      moveChanges old (renameTarget old new) (renameFile env s.world old (renameTarget old new) replies).1
    else []
  | _ => []

/-- A request is not shown to change other files than it says: nothing is made where there is a cache file, what is
downloaded is a file and arrives whole, no directory is renamed, and the store answers honestly. -/
def Transparent (env : Env) (s : Session) : Op → Prop
  | .mkdir path _ => s.world.cached path = none
  | .mknod path replies => s.world.cached path = none ∧ Honest replies
  | .create path _ flags replies => s.world.Fetches path flags replies.opening
  | .open path flags replies => s.world.Fetches path flags replies
  | .unlink _ replies => Honest replies.unlink
  | .rename _ _ old new replies => renameType env s.world old replies ≠ .dir ∧
      (renameType env s.world old replies = .reg → s.world.Moves env s.Written old (renameTarget old new) replies)
  | _ => True

section Step

variable {env : Env} {s s' : Session}

/-- What a request changes is copied onto included paths from included ones only. -/
theorem Op.changes_within {op : Op} (h : Transparent env s op) {change : Change CStr UInt8}
    (hmem : change ∈ op.changes env s) : change.Within env.conf.Includes := by
  have hemptied : ∀ {path ok}, change ∈ emptied path ok → change.Within env.conf.Includes := by
    intro path ok hmem
    rw [emptied_target hmem]
    trivial
  have hopened : ∀ {path flags replies}, change ∈ openChanges env s.world path flags replies →
      change.Within env.conf.Includes := by
    intro path flags replies hmem
    unfold openChanges changesOf at hmem
    split at hmem
    · exact hemptied hmem
    · cases hmem
  have hunlinked : ∀ {path ret}, change ∈ unlinkChanges path ret → change.Within env.conf.Includes := by
    intro path ret hmem
    unfold unlinkChanges at hmem
    split at hmem
    · rw [List.mem_singleton.mp hmem]
      trivial
    · cases hmem
  cases op with
  | mknod path replies => exact hemptied hmem
  | «open» path flags replies => exact hopened hmem
  | create path mode flags replies =>
    simp only [Op.changes, createChanges] at hmem
    split at hmem
    · cases hmem
    · exact hopened hmem
  | write i data offset replies =>
    simp only [Op.changes, changesOf, writeChanges] at hmem
    split at hmem
    · cases hmem
    · split at hmem
      · cases hmem
      · split at hmem
        · split at hmem
          · cases hmem
          · rw [List.mem_singleton.mp hmem]
            trivial
        · cases hmem
  | unlink path replies => exact hunlinked hmem
  | rename depth ring old new replies =>
    simp only [Op.changes, moveChanges] at hmem
    split at hmem
    · rename_i hreg
      split at hmem
      · cases hmem
      · rcases List.mem_cons.mp hmem with rfl | hmem
        · exact fun hincluded => ((h.2 hreg).source hincluded).1
        · exact hunlinked hmem
    · cases hmem
  | getattr | opendir | mkdir | read | release | rmdir | gc => cases hmem

/-- One request makes the changes it should. -/
theorem Session.step_makes {op : Op} (haes : env.conf.usesAes = false) (hsound : s.world.Sound env)
    (hsecured : s.world.Secured env s.Written) (hcounts : s.world.Counts s.holders)
    (hentry : ∀ handle ∈ s.handles, ∀ pe, s.world.heap handle.addr = some pe →
      s.world.HasFile handle.path handle.addr pe)
    (hfiles : s.world.FilesOnly) (hcareful : Careful env s op) (hplain : Transparent env s op)
    (hstep : s.step env op = .done s') : s.world.Makes env s'.world (op.changes env s) := by
  have hsame : s.world.Makes env s.world [] := .of_passesBy hfiles fun other => .refl s.world other
  cases op with
  | getattr path replies =>
    obtain ⟨looked, hcall, hdone⟩ := Exec.bind_eq_done.mp hstep
    obtain rfl := Exec.done.inj hdone
    exact dfsGetattr_makes hsound hfiles hcall
  | opendir path replies =>
    obtain rfl := Exec.done.inj hstep
    exact dfsOpendir_makes hsound hfiles
  | mkdir path replies =>
    obtain rfl := Exec.done.inj hstep
    exact dfsMkdir_makes hfiles hplain
  | mknod path replies =>
    obtain rfl := Exec.done.inj hstep
    exact dfsMknod_makes hfiles hplain.1 hplain.2
  | create path mode flags replies =>
    obtain ⟨created, hcall, hdone⟩ := Exec.bind_eq_done.mp hstep
    obtain rfl := Exec.done.inj hdone
    exact dfsCreate_makes hsound hsecured hfiles hcareful.2 hplain hcall
  | «open» path flags replies =>
    obtain ⟨opened, hcall, hdone⟩ := Exec.bind_eq_done.mp hstep
    obtain rfl := Exec.done.inj hdone
    simp only [Op.changes, openChanges, hcall, changesOf]
    exact dfsOpen_makes hsound hsecured hfiles hcareful.2 hplain hcall
  | read i size offset replies =>
    simp only [Session.step] at hstep
    split at hstep
    · obtain rfl := Exec.done.inj hstep
      exact hsame
    · obtain ⟨_, -, hdone⟩ := Exec.bind_eq_done.mp hstep
      obtain rfl := Exec.done.inj hdone
      exact hsame
  | write i data offset replies =>
    cases hget : s.handles[i]? with
    | none =>
      simp only [Session.step, hget] at hstep
      obtain rfl := Exec.done.inj hstep
      simp only [Op.changes, hget]
      exact hsame
    | some handle =>
      simp only [Session.step, hget] at hstep
      simp only [Op.changes, hget]
      split at hstep
      · rename_i hrdonly
        obtain rfl := Exec.done.inj hstep
        rw [if_pos hrdonly]
        exact hsame
      · rename_i hrdonly
        obtain ⟨⟨ret, w⟩, hcall, hdone⟩ := Exec.bind_eq_done.mp hstep
        obtain rfl := Exec.done.inj hdone
        obtain ⟨pe, hheap⟩ : ∃ pe, s.world.heap handle.addr = some pe := by
          cases hheap : s.world.heap handle.addr with
          | some pe => exact ⟨pe, rfl⟩
          | none =>
            rw [dfsWrite, hheap] at hcall
            cases hcall
        rw [if_neg hrdonly, hcall]
        exact dfsWrite_makes hsecured hfiles (hentry handle (List.mem_of_getElem? hget) pe hheap) hcall
  | release i replies =>
    simp only [Session.step] at hstep
    split at hstep
    · obtain rfl := Exec.done.inj hstep
      exact hsame
    · rename_i handle hget
      obtain ⟨released, hcall, hdone⟩ := Exec.bind_eq_done.mp hstep
      obtain rfl := Exec.done.inj hdone
      obtain ⟨pe, hheap⟩ := Option.isSome_iff_exists.mp (dfsRelease_alive hcall)
      refine dfsRelease_makes hsecured hfiles (hentry handle (List.mem_of_getElem? hget) pe hheap) ?_ hcall
      exact fun hwrite hincluded => (hcareful handle pe hget hheap hincluded).spared hwrite
  | unlink path replies =>
    obtain rfl := Exec.done.inj hstep
    exact dfsUnlink_makes path hsound hfiles hplain
  | rmdir path replies =>
    obtain rfl := Exec.done.inj hstep
    exact dfsRmdir_makes hfiles
  | rename depth ring old new replies =>
    obtain ⟨⟨ret, renamed⟩, hcall, hdone⟩ := Exec.bind_eq_done.mp hstep
    obtain rfl := Exec.done.inj hdone
    obtain ⟨⟨ret', renamed'⟩, htype, hdone'⟩ := Exec.bind_eq_done.mp hcall
    obtain ⟨-, rfl⟩ := Prod.mk.inj (Exec.done.inj hdone')
    obtain ⟨hnotDir, hmoves⟩ := hplain
    simp only [Op.changes]
    change renameByType env depth ⟨s.world, ring⟩ (renameType env s.world old replies) old (renameTarget old new)
      replies = _ at htype
    cases hcase : renameType env s.world old replies with
    | dir => exact absurd hcase hnotDir
    | other =>
      rw [hcase] at htype
      obtain ⟨-, rfl⟩ := Prod.mk.inj (Exec.done.inj htype)
      exact hsame
    | reg =>
      rw [hcase] at htype
      have hworld := (renameFileAt_caller env ⟨s.world, ring⟩ old (renameTarget old new) replies).2
      rw [Exec.done.inj htype] at hworld
      rw [if_pos rfl, hworld]
      exact renameFile_makes haes hsound hsecured hfiles (hmoves hcase)
  | gc path replies =>
    obtain ⟨w, hcall, hdone⟩ := Exec.bind_eq_done.mp hstep
    obtain rfl := Exec.done.inj hdone
    exact gcCallback_makes haes hsound hsecured hfiles
      (fun addr pe hheap hcount => hcounts.unwritten hheap hcount) hcall

end Step

/-- The local files once the program has exited. -/
def LocalFs.exited (fs : LocalFs) : LocalFs := { fs with files := fun _ => none }

/-- A request, or the program being unmounted or dying, and mounted again. An unmount is `dfs_destroy` as far as the
table goes: with the read of the freed settings the program is taken to be over. -/
inductive Turn where
  | request (op : Op)
  | unmount (keys : List CStr) (replies : CStr → Bool)
  | crash

/-- What a turn changes: a mount starts on the store as it is, with no handle. -/
def Session.turn (env : Env) (s : Session) : Turn → Exec Session
  | .request op => s.step env op
  | .unmount keys replies => do
    let w ← destroyTable env keys replies s.world
    return .start w.fs.exited w.remote
  | .crash => .done (.start s.world.fs.exited s.world.remote)

/-- Nobody writes the path. -/
def Session.Unwritten (s : Session) (path : CStr) : Prop :=
  ∀ addr pe, s.world.HasFile path addr pe → pe.locked = false ∧ ¬ s.Written addr

/-- A session with the plain files that undergo the same changes. -/
abbrev Mirrored := Session × Files CStr UInt8

/-- What a turn makes of the plain files. -/
def Turn.note (env : Env) (s : Session) (turn : Turn) (files : Files CStr UInt8) : Files CStr UInt8 :=
  match turn with
  | .request op => applyAll 0 files (op.changes env s)
  | _ => files

/-- A request is careful and changes no other files than it says, and the program ends while nobody writes. -/
def Mirrored.Guard (env : Env) (t : Mirrored) : Turn → Prop
  | .request op => Careful env t.1 op ∧ Transparent env t.1 op
  | .unmount keys _ => t.1.world.Keys keys ∧ ∀ path, env.conf.Includes path → t.1.Unwritten path
  | .crash => ∀ path, env.conf.Includes path → t.1.Unwritten path

/-- The runs beside plain files, which are at first those of the store. -/
def Mirrored.Reached (env : Env) : Mirrored → Prop :=
  GuardedRuns.Reaches (GuardedRuns.recorded (Session.turn env) fun s turn _ files => turn.note env s files)
    (Mirrored.Guard env) fun t => t.1.Initial ∧ t.2 = t.1.world.remote.fileAt env

/-- Since it was last mounted, the program has met careful requests. The included paths show the plain files, and
those with a cache file are no directories of the store. -/
structure Mirrored.Shows (env : Env) (t : Mirrored) : Prop where
  careful : t.1.Reached env (Careful env)
  shown : ∀ path, env.conf.Includes path → t.1.world.shown env path = t.2 path
  filesOnly : t.1.world.FilesOnly

section Mirrored

variable {env : Env} {s : Session} {t : Mirrored} {path : CStr}

/-- A run goes on. -/
theorem Mirrored.Reached.next (op : Op) (h : Mirrored.Reached env t) (hguard : Mirrored.Guard env t (.request op))
    (hstep : t.1.step env op = .done s) : Mirrored.Reached env (s, applyAll 0 t.2 (op.changes env t.1)) :=
  .step h hguard (GuardedRuns.recorded_eq_done.mpr ⟨hstep, rfl⟩)

/-- The handles of a session are on entries with descriptors. -/
theorem Session.Reached.hasFile {guard : Session → Op → Prop} (h : s.Reached env guard) {handle : Handle}
    (hmem : handle ∈ s.handles) {pe : Pentry} (hheap : s.world.heap handle.addr = some pe) :
    s.world.HasFile handle.path handle.addr pe := by
  obtain ⟨htable, hfd⟩ := h.handle_entry hmem hheap
  exact ⟨htable, hheap, hfd⟩

/-- A program that has just been mounted shows the files of the store. -/
theorem Session.start_shows (env : Env) (fs : LocalFs) (r : Remote) :
    Mirrored.Shows env (Session.start fs r, r.fileAt env) where
  careful := .start (Session.start_initial fs r)
  shown := fun _ _ => World.shown_of_remote rfl
  filesOnly := fun _ h => absurd rfl h

/-- Once nobody writes an included path, the store has the file it shows. -/
theorem Mirrored.Shows.stored (haes : env.conf.usesAes = false) (hzlib : Zlib.Reliable env) (h : t.Shows env)
    (hincluded : env.conf.Includes path) (hunwritten : t.1.Unwritten path) :
    t.1.world.remote.fileAt env path = t.2 path := by
  rw [← h.shown path hincluded]
  cases hcached : t.1.world.cached path with
  | none => exact (World.shown_of_remote hcached).symm
  | some content =>
    obtain ⟨addr, pe, hfile⟩ := World.hasFile_of_cached hcached
    obtain ⟨content', hcached', hkeeps⟩ := (h.careful.secured hzlib).cached hfile
    obtain rfl := Option.some.inj (hcached.symm.trans hcached')
    have hexclude : pe.exclude = false := by
      by_contra hexcluded
      have hmatched := h.careful.sound.exclude path addr pe hfile.table hfile.heap (by simpa using hexcluded)
      rw [hincluded] at hmatched
      cases hmatched
    obtain ⟨hlocked, hwritten⟩ := hunwritten addr pe hfile
    obtain ⟨obj, hobj, hgives⟩ := hkeeps ⟨hexclude, hlocked, hwritten⟩
    have hftype : obj.ftype ≠ .dir := by
      have hnot := h.filesOnly path (by simp [hcached])
      rw [hobj] at hnot
      simpa using hnot
    rw [World.shown_of_cached hcached, Remote.fileAt_of_lookup hobj, hgives.file haes hftype]

/-- A program that is mounted again when nobody writes shows what it showed. -/
theorem Mirrored.Shows.mounted (haes : env.conf.usesAes = false) (hzlib : Zlib.Reliable env) (h : t.Shows env)
    (hunwritten : ∀ path, env.conf.Includes path → t.1.Unwritten path) (fs : LocalFs) :
    Mirrored.Shows env (Session.start fs t.1.world.remote, t.2) where
  careful := .start (Session.start_initial fs t.1.world.remote)
  shown := fun path hincluded => ((Session.start_shows env fs t.1.world.remote).shown path hincluded).trans
    (h.stored haes hzlib hincluded (hunwritten path hincluded))
  filesOnly := (Session.start_shows env fs t.1.world.remote).filesOnly

/-- A request keeps it so. -/
theorem Mirrored.Shows.request {op : Op} {s' : Session} (haes : env.conf.usesAes = false) (hzlib : Zlib.Reliable env)
    (h : t.Shows env) (hcareful : Careful env t.1 op) (hplain : Transparent env t.1 op)
    (hstep : t.1.step env op = .done s') : Mirrored.Shows env (s', applyAll 0 t.2 (op.changes env t.1)) := by
  have hcounts := Session.Reached.counts (GuardedRuns.Reaches.mono (fun _ _ hcareful => hcareful.holds) h.careful)
  have hmakes := Session.step_makes haes h.careful.sound (h.careful.secured hzlib) hcounts
    (fun handle hmem pe hheap => h.careful.hasFile hmem hheap) h.filesOnly hcareful hplain hstep
  refine ⟨.step h.careful hcareful hstep, fun path hincluded => ?_, hmakes.filesOnly⟩
  rw [hmakes.shown path hincluded]
  exact FileMap.applyAll_congr (fun change hmem => Op.changes_within hplain hmem) h.shown hincluded

/-- Emptying the table leaves the store alone. -/
theorem destroyTable_remote {keys : List CStr} {replies : CStr → Bool} {w w' : World} (hpresent : w.Present)
    (h : destroyTable env keys replies w = .done w') : w'.remote = w.remote := by
  obtain ⟨fs, hforeach, -⟩ := hashForeach_spec env replies hpresent keys
  rw [destroyTable, hforeach] at h
  obtain rfl := Exec.done.inj h
  exact hashRemoveAll_preserves (P := fun w' => w'.remote = w.remote)
    (fun w' path hw => (w'.remove_remote path).trans hw) keys rfl

/-- In every such run the program shows the plain files. -/
theorem Mirrored.Reached.shows (haes : env.conf.usesAes = false) (hzlib : Zlib.Reliable env)
    (h : Mirrored.Reached env t) : t.Shows env := by
  refine GuardedRuns.Reaches.invariant (Mirrored.Shows env) ?_ ?_ h
  · rintro t ⟨hinitial, hfiles⟩
    have hcached : ∀ path, t.1.world.cached path = none := fun path => World.cached_of_table (hinitial.table path)
    exact ⟨.start hinitial, fun path _ => by rw [World.shown_of_remote (hcached path), hfiles],
      fun path h => absurd (hcached path) h⟩
  · rintro ⟨s, files⟩ turn ⟨s', files'⟩ _ hshows hguard hstep
    obtain ⟨hnext, rfl⟩ := GuardedRuns.recorded_eq_done.mp hstep
    cases turn with
    | request op => exact hshows.request haes hzlib hguard.1 hguard.2 hnext
    | unmount keys replies =>
      obtain ⟨w, hdestroy, hdone⟩ := Exec.bind_eq_done.mp hnext
      obtain rfl := Exec.done.inj hdone
      rw [destroyTable_remote hshows.careful.present hdestroy]
      exact hshows.mounted haes hzlib hguard.2 w.fs.exited
    | crash =>
      obtain rfl := Exec.done.inj hnext
      exact hshows.mounted haes hzlib hguard s.world.fs.exited

end Mirrored

end Dropletfs
