import Dropletfs.Securing
import Dropletfs.Sweeps

/-!
# Durability against garbage collection

A release marks the entry clean and unlocks it also when the upload has failed, and the
collector then drops the cache file, which is all there was. In runs in which every upload
goes through, and which neither mix up cache files nor replace or remove objects behind
their entries, what a release marks clean has been stored, and what the collector unlinks
is on the store.
-/

namespace Dropletfs

/-- A handle that may write is open on the address. -/
def Session.Written (s : Session) (addr : ℕ) : Prop :=
  ∃ handle ∈ s.handles, handle.addr = addr ∧ isRdonly handle.flags = false

/-- A request neither loses an upload nor gives up what backs the cache file of an exposed entry. -/
def Careful (env : Env) (s : Session) : Op → Prop
  | .mknod path replies => s.world.ExposedAt s.Written path → ∀ i, (replies i).applied = false
  | .create path mode flags replies =>
    (replies.opening.semPost = true ∧ replies.opening.lock = true) ∧
      (CreateRefused env s.world path mode replies ∨ CreateSafe env s.world path flags replies.opening)
  | .open path flags replies => (replies.semPost = true ∧ replies.lock = true) ∧ OpenSafe env s.world path flags replies
  | .release i replies => ∀ handle pe, s.handles[i]? = some handle → s.world.heap handle.addr = some pe →
      pe.exclude = false → ReleaseSafe env s.world handle.path handle.flags pe replies
  | .unlink path replies => s.world.UnlinkSafe env s.Written path replies
  | .rmdir path replies => s.world.RmdirSafe s.Written path replies.rmdir
  | .rename _ _ _ _ replies => s.world.RenameSafe env s.Written replies
  | _ => True

/-- When a release of a handle that may write marks an entry clean that is not excluded, the upload of the cache
file has succeeded; when the collector unlinks the cache file of such an entry, the store keeps its content. -/
def Session.Durable (env : Env) (s : Session) : Op → Prop
  | .release i replies => ∀ handle pe released pe', s.handles[i]? = some handle → s.world.heap handle.addr = some pe →
      pe.exclude = false → isRdonly handle.flags = false →
      dfsRelease env s.world handle.addr handle.path handle.flags replies = .done released →
      released.world.heap handle.addr = some pe' → pe'.flag = .clean →
      ∃ content, s.world.fs.contentAt (cacheName env.conf handle.path) = some content ∧ released.ret = 0 ∧
        released.world.remote.Keeps env handle.path content
  | .gc path replies => ∀ addr pe w' content, s.world.table path = some addr → s.world.heap addr = some pe →
      pe.exclude = false → gcCallback env s.world path replies = .done w' →
      s.world.fs.contentAt (cacheName env.conf path) = some content →
      w'.fs.contentAt (cacheName env.conf path) = none → s.world.remote.Keeps env path content
  | _ => True

section Step

variable {env : Env} {s s' : Session}

/-- The files are secured when more handles may write. -/
theorem Session.opened_secured {path : CStr} {flags : BitVec 32} {opened : Opened}
    (h : opened.world.Secured env s.Written) :
    (s.opened path flags opened).world.Secured env (s.opened path flags opened).Written := by
  refine h.leaves fun other => (World.Leaves.refl env s.Written opened.world other).more ?_
  rintro addr ⟨handle, hmem, hwrites⟩
  refine ⟨handle, ?_, hwrites⟩
  unfold Session.opened
  simp only
  split
  · exact List.mem_append_right _ hmem
  · exact hmem

/-- A handle other than the one released stays. -/
theorem Session.mem_released {w : World} {i : ℕ} {handle other : Handle} (hget : s.handles[i]? = some handle)
    (hmem : other ∈ s.handles) (hne : other ≠ handle) : other ∈ (Session.mk w (s.handles.eraseIdx i)).handles := by
  obtain ⟨j, hj⟩ := List.mem_iff_getElem?.mp hmem
  refine List.mem_eraseIdx_iff_getElem?.mpr ⟨j, ?_, hj⟩
  rintro rfl
  exact hne (Option.some.inj (hj.symm.trans hget))

/-- One careful request keeps the files secured. -/
theorem Session.step_secured {op : Op} (hsound : s.world.Sound env) (hrooted : s.world.Rooted)
    (hentry : ∀ handle ∈ s.handles, ∀ pe, s.world.heap handle.addr = some pe →
      s.world.table handle.path = some handle.addr ∧ 0 ≤ pe.fd)
    (hzlib : Zlib.Reliable env) (h : s.world.Secured env s.Written) (hcareful : Careful env s op)
    (hstep : s.step env op = .done s') : s'.world.Secured env s'.Written := by
  cases op with
  | getattr path replies =>
    obtain ⟨looked, hcall, hdone⟩ := Exec.bind_eq_done.mp hstep
    obtain rfl := Exec.done.inj hdone
    exact h.leaves (dfsGetattr_leaves hsound hcall)
  | opendir path replies =>
    obtain rfl := Exec.done.inj hstep
    exact h.leaves fun other => (dfsOpendir_grown env s.world path replies).leaves hsound
  | mkdir path replies =>
    obtain rfl := Exec.done.inj hstep
    exact h.leaves (dfsMkdir_leaves h hsound path replies)
  | mknod path replies =>
    obtain rfl := Exec.done.inj hstep
    exact h.leaves (dfsMknod_leaves hsound hcareful)
  | create path mode flags replies =>
    obtain ⟨created, hcall, hdone⟩ := Exec.bind_eq_done.mp hstep
    obtain rfl := Exec.done.inj hdone
    obtain ⟨⟨-, hlock⟩, hsafe⟩ := hcareful
    exact Session.opened_secured (dfsCreate_secured h hsound hlock hsafe hcall)
  | «open» path flags replies =>
    obtain ⟨opened, hcall, hdone⟩ := Exec.bind_eq_done.mp hstep
    obtain rfl := Exec.done.inj hdone
    exact Session.opened_secured (dfsOpen_secured h hsound hcareful.2 hcall)
  | read i size offset replies =>
    simp only [Session.step] at hstep
    split at hstep
    · obtain rfl := Exec.done.inj hstep
      exact h
    · obtain ⟨_, -, hdone⟩ := Exec.bind_eq_done.mp hstep
      obtain rfl := Exec.done.inj hdone
      exact h
  | write i data offset replies =>
    simp only [Session.step] at hstep
    split at hstep
    · obtain rfl := Exec.done.inj hstep
      exact h
    · rename_i handle hget
      split at hstep
      · obtain rfl := Exec.done.inj hstep
        exact h
      · rename_i hflags
        obtain ⟨⟨ret, w⟩, hcall, hdone⟩ := Exec.bind_eq_done.mp hstep
        obtain rfl := Exec.done.inj hdone
        exact dfsWrite_secured h hsound hrooted
          ⟨handle, List.mem_of_getElem? hget, rfl, by simpa using hflags⟩ hcall
  | release i replies =>
    simp only [Session.step] at hstep
    split at hstep
    · obtain rfl := Exec.done.inj hstep
      exact h
    · rename_i handle hget
      obtain ⟨released, hcall, hdone⟩ := Exec.bind_eq_done.mp hstep
      obtain rfl := Exec.done.inj hdone
      obtain ⟨pe, hheap⟩ := Option.isSome_iff_exists.mp (dfsRelease_alive hcall)
      obtain ⟨htable, hfd⟩ := hentry handle (List.mem_of_getElem? hget) pe hheap
      refine dfsRelease_secured h hsound hzlib ⟨htable, hheap, hfd⟩ (hcareful handle pe hget hheap) ?_ ?_ hcall
      · rintro addr hne ⟨other, hmem, rfl, hwrites⟩
        refine ⟨other, Session.mem_released hget hmem ?_, rfl, hwrites⟩
        rintro rfl
        exact hne rfl
      · rintro hrdonly ⟨other, hmem, haddr, hwrites⟩
        refine ⟨other, Session.mem_released hget hmem ?_, haddr, hwrites⟩
        rintro rfl
        rw [hwrites] at hrdonly
        cases hrdonly
  | unlink path replies =>
    obtain rfl := Exec.done.inj hstep
    exact h.leaves (dfsUnlink_leaves hsound hcareful)
  | rmdir path replies =>
    obtain rfl := Exec.done.inj hstep
    exact h.leaves (dfsRmdir_leaves hcareful)
  | rename depth ring old new replies =>
    obtain ⟨⟨ret, renamed⟩, hcall, hdone⟩ := Exec.bind_eq_done.mp hstep
    obtain rfl := Exec.done.inj hdone
    exact h.leaves (dfsRename_leaves (s := ⟨s.world, ring⟩) h hsound hcareful hcall)
  | gc path replies =>
    obtain ⟨w, hcall, hdone⟩ := Exec.bind_eq_done.mp hstep
    obtain rfl := Exec.done.inj hdone
    exact h.leaves (gcCallback_leaves h hsound hcall)

end Step

/-- In a run of careful requests, the files are secured. -/
theorem Session.Reached.secured {env : Env} {s : Session} (hzlib : Zlib.Reliable env)
    (h : s.Reached env (Careful env)) : s.world.Secured env s.Written := by
  refine GuardedRuns.Reaches.invariant (fun s => s.world.Secured env s.Written) ?_ ?_ h
  · intro s hs
    have hnone : ∀ path addr pe, ¬ s.world.HasFile path addr pe := by
      intro path addr pe hfile
      have htable := hfile.table
      rw [hs.table] at htable
      cases htable
    exact ⟨fun path addr pe hfile => absurd hfile (hnone path addr pe),
      fun path addr pe hfile => absurd hfile (hnone path addr pe)⟩
  · intro s op s' hreached hs hcareful hstep
    exact Session.step_secured (Session.Reached.sound hreached) (Session.Reached.rooted hreached)
      (fun handle hmem pe hheap => Session.Reached.handle_entry hreached hmem hheap) hzlib hs hcareful hstep

/-- Careful requests post the semaphore and lock the mutex. -/
theorem Careful.holds {env : Env} {s : Session} {op : Op} (h : Careful env s op) : op.Holds := by
  cases op with
  | create => exact h.1
  | «open» => exact h.1
  | getattr | opendir | mkdir | mknod | read | write | release | unlink | rmdir | rename | gc => trivial

/-- An entry that nobody counts is open for writing on no handle. -/
theorem World.Counts.unwritten {s : Session} {addr : ℕ} {pe : Pentry} (h : s.world.Counts s.holders)
    (hheap : s.world.heap addr = some pe) (hcount : pe.refcount = 0) : ¬ s.Written addr := by
  rintro ⟨handle, hmem, haddr, -⟩
  have hle := h.le addr pe hheap
  have hpos : 0 < s.holders addr := List.countP_pos_iff.mpr ⟨handle, hmem, by simpa using haddr⟩
  omega

/-- In every run of careful requests, what a release marks clean has been stored, and what the collector unlinks
is on the store. -/
theorem reached_durable (env : Env) (s : Session) (op : Op) (hzlib : Zlib.Reliable env)
    (h : s.Reached env (Careful env)) (hcareful : Careful env s op) : s.Durable env op := by
  have hsecured := Session.Reached.secured hzlib h
  cases op with
  | release i replies =>
    intro handle pe released pe' hget hheap hincluded hwrite hcall _ _
    obtain ⟨htable, hfd⟩ := Session.Reached.handle_entry h (List.mem_of_getElem? hget) hheap
    exact dfsRelease_stores hsecured hzlib ⟨htable, hheap, hfd⟩ hincluded (hcareful handle pe hget hheap hincluded)
      hwrite hcall
  | gc path replies =>
    intro addr pe w' content htable hheap hincluded hcall hcontent hgone
    have hcounts := Session.Reached.counts (h.mono fun s op hcareful => hcareful.holds)
    cases gcCallback_outcome hcall with
    | untouched =>
      rw [hcontent] at hgone
      cases hgone
    | kept =>
      rw [World.put_fs, hcontent] at hgone
      cases hgone
    | collected htable' hheap' hcount hfree hfd =>
      obtain rfl := Option.some.inj (htable.symm.trans htable')
      obtain rfl := Option.some.inj (hheap.symm.trans hheap')
      have hfile : s.world.HasFile path addr pe :=
        ⟨htable, hheap, ((Session.Reached.sound h).rewound addr pe hheap).usable.resolve_left hfd⟩
      obtain ⟨-, file, content', hcached, hkeeps⟩ := hsecured.backed path addr pe hfile
      have hsame : s.world.fs.contentAt (cacheName env.conf path) = some content' :=
        LocalFs.contentAt_eq_some.mpr ⟨_, hcached.name, hcached.holds.content⟩
      obtain rfl := Option.some.inj (hcontent.symm.trans hsame)
      exact hkeeps ⟨hincluded, hfree, hcounts.unwritten hheap hcount⟩
  | getattr | opendir | mkdir | mknod | create | «open» | read | write | unlink | rmdir | rename => trivial

/-- A file is opened for writing, written, and released; the collector then unlinks its cache file. -/
theorem reached_durable_collected :
    ∃ (s : Session) (w : World), s.Reached Env.plain (Careful Env.plain) ∧
      gcCallback Env.plain s.world "/f".toList (.granted 1000000) = .done w ∧
      s.world.fs.contentAt (cacheName Env.plain.conf "/f".toList) = some [65] ∧
      w.fs.contentAt (cacheName Env.plain.conf "/f".toList) = none ∧
      s.world.remote.Keeps Env.plain "/f".toList [65] := by
  have hzlib : Zlib.Reliable Env.plain := fun huses => absurd huses (by decide)
  have hopen : Careful Env.plain (Session.start .empty ∅) (.open "/f".toList oWronly (.granted 3)) := by
    refine ⟨⟨rfl, rfl⟩, ⟨rfl, by decide⟩, ?_, fun hmode => absurd hmode (by decide)⟩
    intro other addr pe _ hfile
    cases hfile.table
  obtain ⟨s₂, s₃, w, hreached, hhandles, hexamined, hrelease, hheap, hgc, hcontent, hgone⟩ :
      ∃ (s₂ s₃ : Session) (w : World), s₂.Reached Env.plain (Careful Env.plain) ∧
        s₂.handles = [⟨0, "/f".toList, oWronly⟩] ∧
        (∀ pe, s₂.world.heap 0 = some pe →
          (s₂.world.fs.fstat pe.fd (ReleaseReplies.granted 4).fstat).isSome = true) ∧
        s₂.step Env.plain (.release 0 (.granted 4)) = .done s₃ ∧
        (∃ pe, s₃.world.table "/f".toList = some 0 ∧ s₃.world.heap 0 = some pe ∧ pe.exclude = false) ∧
        gcCallback Env.plain s₃.world "/f".toList (.granted 1000000) = .done w ∧
        s₃.world.fs.contentAt (cacheName Env.plain.conf "/f".toList) = some [65] ∧
        w.fs.contentAt (cacheName Env.plain.conf "/f".toList) = none :=
    ⟨_, _, _, .step (i := .write 0 [65] 0 ⟨some 1, 1, by decide⟩)
      (.step (.start (Session.start_initial ..)) hopen rfl) trivial rfl, rfl,
      fun _ hpe => by obtain rfl := Option.some.inj hpe; rfl, rfl, ⟨_, rfl, rfl, rfl⟩, rfl, rfl, rfl⟩
  obtain ⟨pe, htable, hpe, hincluded⟩ := hheap
  have hsafe : Careful Env.plain s₂ (.release 0 (.granted 4)) := by
    intro handle pe hget hpe hexclude
    rw [hhandles] at hget
    obtain rfl := Option.some.inj hget
    exact ⟨hexamined pe hpe, fun _ => ⟨rfl, fun _ => rfl, fun _ => rfl, rfl, fun h => absurd h (by decide),
      fun _ => rfl, fun _ => rfl, fun h => absurd h (by decide)⟩, fun _ h => absurd h (by decide)⟩
  have hreached' : s₃.Reached Env.plain (Careful Env.plain) := .step hreached hsafe hrelease
  exact ⟨s₃, w, hreached', hgc, hcontent, hgone, reached_durable Env.plain s₃
    (.gc "/f".toList (.granted 1000000)) hzlib hreached' trivial 0 pe w [65] htable hpe hincluded hgc hcontent hgone⟩

/-- A file is written, and the store refuses its upload. The release marks it clean all the same, and the collector
unlinks the only copy. -/
theorem failed_upload_collected :
    ∃ (s s' : Session) (replies : ReleaseReplies), s.Reached Env.plain GuardedRuns.unguarded ∧
      ¬ s.Durable Env.plain (.release 0 replies) ∧ s.step Env.plain (.release 0 replies) = .done s' ∧
      ¬ s'.Durable Env.plain (.gc "/f".toList (.granted 1000000)) := by
  obtain ⟨s, s', w, released, pe, pe', hreached, hhandles, hheap, hincluded, hcall, hheap', hclean, hret, hstep, htable,
      hafter, hincluded', hgc, hcontent, hgone, habsent⟩ :
      ∃ (s s' : Session) (w : World) (released : Released) (pe pe' : Pentry),
        s.Reached Env.plain GuardedRuns.unguarded ∧ s.handles = [⟨0, "/f".toList, oWronly⟩] ∧
        s.world.heap 0 = some pe ∧ pe.exclude = false ∧
        dfsRelease Env.plain s.world 0 "/f".toList oWronly { ReleaseReplies.granted 4 with openwrite := .failure } =
          .done released ∧ released.world.heap 0 = some pe' ∧ pe'.flag = .clean ∧ released.ret ≠ 0 ∧
        s.step Env.plain (.release 0 { ReleaseReplies.granted 4 with openwrite := .failure }) = .done s' ∧
        s'.world.table "/f".toList = some 0 ∧ s'.world.heap 0 = some pe' ∧ pe'.exclude = false ∧
        gcCallback Env.plain s'.world "/f".toList (.granted 1000000) = .done w ∧
        s'.world.fs.contentAt (cacheName Env.plain.conf "/f".toList) = some [65] ∧
        w.fs.contentAt (cacheName Env.plain.conf "/f".toList) = none ∧ s'.world.remote.lookup "/f".toList = none :=
    ⟨_, _, _, _, _, _, .step (i := .write 0 [65] 0 ⟨some 1, 1, by decide⟩)
      (.step (i := .open "/f".toList oWronly (.granted 3)) (.start (Session.start_initial .empty ∅)) trivial rfl)
      trivial rfl, rfl, rfl, rfl, rfl, rfl, rfl, by decide, rfl, rfl, rfl, rfl, rfl, rfl, rfl, rfl⟩
  refine ⟨s, s', _, hreached, fun hdurable => ?_, hstep, fun hdurable => ?_⟩
  · obtain ⟨_, -, hzero, -⟩ := hdurable ⟨0, "/f".toList, oWronly⟩ pe released pe' (by rw [hhandles]; rfl) hheap
      hincluded (by decide) hcall hheap' hclean
    exact hret hzero
  · obtain ⟨obj, hobj, -⟩ := hdurable 0 pe' w [65] htable hafter hincluded' hgc hcontent hgone
    rw [habsent] at hobj
    cases hobj

end Dropletfs
