import Dropletfs.EntryStates

/-!
# The entries behind open handles

An entry is destroyed when the table gives its path up, so every entry that is there is in
the table. A handle is given out on the entry of the path that was opened, with a
descriptor. As long as that entry is there it is the one the table has for the path, and it
has a descriptor.
-/

namespace Dropletfs

/-- Every entry is in the table. -/
def World.Rooted (w : World) : Prop := ∀ addr pe, w.heap addr = some pe → ∃ path, w.table path = some addr

namespace World.Rooted

variable {w w' : World}

/-- The table is as before, and no entry has come up. -/
theorem same (h : w.Rooted) (htable : w'.table = w.table)
    (hheap : ∀ addr pe', w'.heap addr = some pe' → ∃ pe, w.heap addr = some pe) : w'.Rooted := by
  intro addr pe' hheap'
  obtain ⟨pe, hbefore⟩ := hheap addr pe' hheap'
  rw [htable]
  exact h addr pe hbefore

/-- A quiet change. -/
theorem quiet (h : w.Rooted) (hquiet : w.Quiet w') : w'.Rooted := by
  refine h.same hquiet.table fun addr pe' hheap' => ?_
  obtain ⟨pe, hheap, -⟩ := hquiet.heap_after hheap'
  exact ⟨pe, hheap⟩

/-- Storing an entry where there is one, together with changes outside of the table. -/
theorem put {addr : ℕ} {pe pe' : Pentry} {fs : LocalFs} {remote : Remote} {trace : List Event} (h : w.Rooted)
    (hheap : w.heap addr = some pe) :
    (({ w with fs := fs, remote := remote, trace := trace } : World).put addr pe').Rooted := by
  refine h.same rfl fun other qe hqe => ?_
  by_cases hother : other = addr
  · exact ⟨pe, hother ▸ hheap⟩
  · rw [put_heap_ne _ _ hother] at hqe
    exact ⟨qe, hqe⟩

/-- One more entry at most. -/
theorem grown {path : CStr} (h : w.Rooted) (hgrown : w.Grown path w') : w'.Rooted := by
  cases hgrown with
  | same => exact h
  | more hnone _ =>
    intro addr pe hheap
    simp only [insert, Function.update_apply] at hheap ⊢
    split at hheap
    · rename_i haddr
      exact ⟨path, by rw [if_pos rfl, haddr]⟩
    · obtain ⟨other, hother⟩ := h addr pe hheap
      refine ⟨other, ?_⟩
      rw [if_neg, hother]
      rintro rfl
      rw [hnone] at hother
      cases hother

/-- A path is removed with its entry. -/
theorem remove (h : w.Rooted) (path : CStr) : (w.remove path).Rooted := by
  unfold World.remove
  split
  · exact h
  · rename_i addr htable
    have hother : ∀ other pe, other ≠ addr → w.heap other = some pe →
        ∃ p, Function.update w.table path none p = some other := by
      intro other pe hne hheap
      obtain ⟨p, hp⟩ := h other pe hheap
      refine ⟨p, ?_⟩
      rw [Function.update_of_ne, hp]
      rintro rfl
      exact hne (Option.some.inj (hp.symm.trans htable))
    unfold World.free
    split
    · rename_i hnone
      intro other pe hheap
      refine hother other pe ?_ hheap
      rintro rfl
      rw [hheap] at hnone
      cases hnone
    · intro other pe hheap
      simp only [Function.update_apply] at hheap ⊢
      split at hheap
      · cases hheap
      · rename_i hne
        simpa only [Function.update_apply] using hother other pe hne hheap

end World.Rooted

section Requests

variable {env : Env} {w : World}

/-- Opening a path. -/
theorem dfsOpen_rooted {path : CStr} {flags : BitVec 32} {replies : OpenReplies} {opened : Opened}
    (h : w.Rooted) (hopen : dfsOpen env w path flags replies = .done opened) : opened.world.Rooted := by
  cases dfsOpen_outcome hopen with
  | noEntry => exact h
  | lockFailed hfound => exact (h.grown (findOrPopulate_grown hfound.lookup)).put hfound.heap
  | failed hfound => exact (h.grown (findOrPopulate_grown hfound.lookup)).put hfound.heap
  | succeeded hfound => exact (h.grown (findOrPopulate_grown hfound.lookup)).put hfound.heap

/-- Creating a path. -/
theorem dfsCreate_rooted {path : CStr} {mode flags : BitVec 32} {replies : CreateReplies} {created : Opened}
    (h : w.Rooted) (hcreate : dfsCreate env w path mode flags replies = .done created) : created.world.Rooted := by
  cases dfsCreate_outcome hcreate with
  | refused => exact h
  | noEntry _ hopen =>
    have hopened := dfsOpen_rooted h hopen
    exact hopened
  | entry _ hopen _ hheap hentry =>
    obtain ⟨-, fs, remote, trace, metadata, -, -, hworld⟩ := createEntry_frame hentry
    rw [hworld]
    exact (dfsOpen_rooted h hopen).put hheap

/-- Releasing a handle. -/
theorem dfsRelease_rooted {addr : ℕ} {path : CStr} {flags : BitVec 32} {replies : ReleaseReplies}
    {released : Released} (h : w.Rooted) (hrelease : dfsRelease env w addr path flags replies = .done released) :
    released.world.Rooted := by
  cases dfsRelease_outcome hrelease with
  | unusable hheap => exact h.put hheap
  | readOnly hheap => exact h.put hheap
  | excluded hheap => exact h.put hheap
  | uploaded hheap _ _ _ _ hupload =>
    obtain ⟨fs, remote, trace, rfl⟩ := upload_frame hupload
    exact h.put hheap

/-- Unlinking a path. -/
theorem dfsUnlink_rooted (path : CStr) (replies : UnlinkReplies) (h : w.Rooted) :
    (dfsUnlink env w path replies).2.Rooted := by
  have houtcome := dfsUnlink_outcome env w path replies
  generalize dfsUnlink env w path replies = unlinked at houtcome ⊢
  cases houtcome with
  | failed => exact h
  | absent => exact h
  | destroyed _ _ hquiet => exact (World.Rooted.remove (w := w.unlinked env path replies) h path).quiet hquiet

/-- Visiting a path. -/
theorem gcCallback_rooted {path : CStr} {replies : GcReplies} {w' : World} (h : w.Rooted)
    (hgc : gcCallback env w path replies = .done w') : w'.Rooted := by
  cases gcCallback_outcome hgc with
  | untouched => exact h
  | kept _ hheap => exact h.put hheap
  | collected =>
    exact World.Rooted.remove (w := { w with fs := w.fs.unlink (cacheName env.conf path) replies.unlinkCache }) h path

/-- Renaming a path. -/
theorem dfsRename_rooted {depth : ℕ} {s s' : Renaming} {old new : CStr} {replies : RenameReplies} {ret : ℤ}
    (h : s.world.Rooted) (hrename : dfsRename env depth s old new replies = .done (ret, s')) :
    s'.world.Rooted := by
  refine dfsRename_preserves (P := World.Rooted) ?_ h hrename
  exact {
    log := fun _ _ hw => hw
    cwd := fun _ _ hw => hw
    fcopy := fun _ _ _ hw => hw
    dirent := fun w dir path junk hw => hw.quiet (w.removeDirentOf_quiet dir path junk)
    unlink := fun _ path hw => dfsUnlink_rooted path _ hw
    mkdir := fun _ _ hw => hw
    rmdir := fun w path hw => hw.quiet (dfsRmdir_quiet env w path _).1 }

end Requests

/-- One request keeps every entry in the table. -/
theorem Session.step_rooted {env : Env} {s s' : Session} {op : Op} (h : s.world.Rooted)
    (hstep : s.step env op = .done s') : s'.world.Rooted := by
  cases op with
  | getattr path replies =>
    obtain ⟨looked, hcall, hdone⟩ := Exec.bind_eq_done.mp hstep
    obtain rfl := Exec.done.inj hdone
    obtain ⟨-, w₁, hgrown, hquiet⟩ := dfsGetattr_grown hcall
    exact (h.grown hgrown).quiet hquiet
  | opendir path replies =>
    obtain rfl := Exec.done.inj hstep
    exact h.grown (dfsOpendir_grown env s.world path replies)
  | mkdir path replies =>
    obtain rfl := Exec.done.inj hstep
    exact h
  | mknod path replies =>
    obtain rfl := Exec.done.inj hstep
    exact h
  | create path mode flags replies =>
    obtain ⟨created, hcall, hdone⟩ := Exec.bind_eq_done.mp hstep
    obtain rfl := Exec.done.inj hdone
    exact dfsCreate_rooted h hcall
  | «open» path flags replies =>
    obtain ⟨opened, hcall, hdone⟩ := Exec.bind_eq_done.mp hstep
    obtain rfl := Exec.done.inj hdone
    exact dfsOpen_rooted h hcall
  | read i size offset replies =>
    simp only [Session.step] at hstep
    split at hstep
    · obtain rfl := Exec.done.inj hstep
      exact h
    · obtain ⟨_, -, hdone⟩ := Exec.bind_eq_done.mp hstep
      obtain rfl := Exec.done.inj hdone
      exact h
  | write i data offset replies =>
    simp only [Session.step] at hstep
    split at hstep
    · obtain rfl := Exec.done.inj hstep
      exact h
    · split at hstep
      · obtain rfl := Exec.done.inj hstep
        exact h
      · obtain ⟨⟨ret, w⟩, hcall, hdone⟩ := Exec.bind_eq_done.mp hstep
        obtain rfl := Exec.done.inj hdone
        obtain ⟨fs, hw⟩ := dfsWrite_frame hcall
        exact h.same (by rw [hw]) fun addr pe hpe => ⟨pe, by simpa only [hw] using hpe⟩
  | release i replies =>
    simp only [Session.step] at hstep
    split at hstep
    · obtain rfl := Exec.done.inj hstep
      exact h
    · obtain ⟨released, hcall, hdone⟩ := Exec.bind_eq_done.mp hstep
      obtain rfl := Exec.done.inj hdone
      exact dfsRelease_rooted h hcall
  | unlink path replies =>
    obtain rfl := Exec.done.inj hstep
    exact dfsUnlink_rooted path replies h
  | rmdir path replies =>
    obtain rfl := Exec.done.inj hstep
    exact h.quiet (dfsRmdir_quiet env s.world path replies).1
  | rename depth ring old new replies =>
    obtain ⟨⟨ret, renamed⟩, hcall, hdone⟩ := Exec.bind_eq_done.mp hstep
    obtain rfl := Exec.done.inj hdone
    exact dfsRename_rooted (s := ⟨s.world, ring⟩) h hcall
  | gc path replies =>
    obtain ⟨w, hcall, hdone⟩ := Exec.bind_eq_done.mp hstep
    obtain rfl := Exec.done.inj hdone
    exact gcCallback_rooted h hcall

/-- In every run, every entry is in the table. -/
theorem Session.Reached.rooted {env : Env} {guard : Session → Op → Prop} {s : Session}
    (h : s.Reached env guard) : s.world.Rooted := by
  refine GuardedRuns.Reaches.invariant (fun s => s.world.Rooted) ?_ ?_ h
  · intro s hs addr pe hheap
    rw [hs.heap] at hheap
    cases hheap
  · intro s op s' _ hrooted _ hstep
    exact Session.step_rooted hrooted hstep

/-- The address of the handle was handed out, at most for the path of the handle, and the entry that is there has
a descriptor. -/
structure Handle.Fits (w : World) (handle : Handle) : Prop where
  lt : handle.addr < w.nextAddr
  path : ∀ path, w.table path = some handle.addr → path = handle.path
  fd : ∀ pe, w.heap handle.addr = some pe → 0 ≤ pe.fd

/-- A handle on the entry of its path, which has a descriptor. -/
theorem World.Sound.fits {env : Env} {w : World} {path : CStr} {addr : ℕ} {pe : Pentry} (h : w.Sound env)
    (htable : w.table path = some addr) (hheap : w.heap addr = some pe) (hfd : 0 ≤ pe.fd) (flags : BitVec 32) :
    Handle.Fits w ⟨addr, path, flags⟩ where
  lt := h.table_lt path addr htable
  path := fun other hother => h.table_inj other path addr hother htable
  fd := by
    intro pe' hheap'
    obtain rfl := Option.some.inj (hheap.symm.trans hheap')
    exact hfd

/-- A successful open leaves an entry with a descriptor in `info->fh`. -/
theorem dfsOpen_fits {env : Env} {w : World} {path : CStr} {flags : BitVec 32} {replies : OpenReplies}
    {opened : Opened} {addr : ℕ} (hsound : w.Sound env)
    (hopen : dfsOpen env w path flags replies = .done opened) (hret : opened.ret = 0)
    (hfh : opened.fh = some addr) : Handle.Fits opened.world ⟨addr, path, flags⟩ := by
  obtain ⟨-, pe, file, base, hholds, -⟩ := dfsOpen_base hsound hopen hret hfh
  exact (dfsOpen_sound hsound hopen).fits (dfsOpen_table hopen hfh) hholds.heap hholds.fd flags

/-- A successful create does too. -/
theorem dfsCreate_fits {env : Env} {w : World} {path : CStr} {mode flags : BitVec 32} {replies : CreateReplies}
    {created : Opened} {addr : ℕ} (hsound : w.Sound env)
    (hcreate : dfsCreate env w path mode flags replies = .done created) (hret : created.ret = 0)
    (hfh : created.fh = some addr) : Handle.Fits created.world ⟨addr, path, flags⟩ := by
  have hsound' := dfsCreate_sound hsound hcreate
  cases dfsCreate_outcome hcreate with
  | refused => cases hfh
  | noEntry => cases hfh
  | @entry opened _ addr' pe _ hopen hfh' hheap hentry =>
    obtain ⟨hfh'', fs, remote, trace, metadata, -, -, hworld⟩ := createEntry_frame hentry
    obtain rfl : addr' = addr := Option.some.inj (hfh''.symm.trans hfh)
    have hne : pe.fd ≠ -1 := by
      intro hnone
      simp only [createEntry, hnone, if_true, Exec.done.injEq] at hentry
      rw [← hentry] at hret
      simp at hret
    have hfd : 0 ≤ pe.fd := ((dfsOpen_sound hsound hopen).rewound addr' pe hheap).usable.resolve_left hne
    have htable : created.world.table path = some addr' := by
      rw [hworld]
      exact dfsOpen_table hopen hfh'
    have hstored : created.world.heap addr' = some
        { pe with exclude := reMatcher env.conf.regex path, metadata := metadata } := by
      rw [hworld]
      exact World.put_heap_self ..
    exact hsound'.fits htable hstored hfd flags

/-- One request lets a handle fit. -/
theorem Session.step_fits {env : Env} {s s' : Session} {op : Op} {handle : Handle} (hsound : s.world.Sound env)
    (h : handle.Fits s.world) (hstep : s.step env op = .done s') : handle.Fits s'.world := by
  obtain ⟨hlt, hfd⟩ := Session.step_keeps_fd hsound h.lt h.fd hstep
  refine ⟨hlt, fun path htable => ?_, hfd⟩
  obtain ⟨w₁, hadded, hchanged⟩ := Session.step_changed trivial_opening (fun _ _ _ => trivial_lookups) hsound hstep
  have htable₁ := hchanged.table path _ htable
  cases hadded with
  | same => exact h.path path htable₁
  | more =>
    simp only [World.insert, Function.update_apply] at htable₁
    split at htable₁
    · have haddr := Option.some.inj htable₁
      have := h.lt
      omega
    · exact h.path path htable₁

/-- The handles of an opened session are those there were and at most the new one. -/
theorem Session.mem_opened {s : Session} {path : CStr} {flags : BitVec 32} {opened : Opened} {handle : Handle}
    (h : handle ∈ (s.opened path flags opened).handles) :
    handle ∈ s.handles ∨ ∃ addr, opened.ret = 0 ∧ opened.fh = some addr ∧ handle = ⟨addr, path, flags⟩ := by
  unfold Session.opened at h
  simp only at h
  split at h
  · rename_i hret
    cases hfh : opened.fh with
    | none =>
      rw [hfh] at h
      exact .inl h
    | some addr =>
      rw [hfh] at h
      rcases List.mem_cons.mp h with rfl | hbefore
      · exact .inr ⟨addr, hret, rfl, rfl⟩
      · exact .inl hbefore
  · exact .inl h

/-- A handle after a request was there before, or is the one that an open or a create handed out. -/
inductive HandleOrigin (env : Env) (s s' : Session) (op : Op) (handle : Handle) : Prop
  | before : handle ∈ s.handles → HandleOrigin env s s' op handle
  | opened {replies : OpenReplies} {opened : Opened} : op = .open handle.path handle.flags replies →
      dfsOpen env s.world handle.path handle.flags replies = .done opened → opened.ret = 0 →
      opened.fh = some handle.addr → s'.world = opened.world → HandleOrigin env s s' op handle
  | created {mode : BitVec 32} {replies : CreateReplies} {created : Opened} :
      op = .create handle.path mode handle.flags replies →
      dfsCreate env s.world handle.path mode handle.flags replies = .done created → created.ret = 0 →
      created.fh = some handle.addr → s'.world = created.world → HandleOrigin env s s' op handle

/-- Every handle after a request has such an origin. -/
theorem Session.step_handles {env : Env} {s s' : Session} {op : Op} {handle : Handle}
    (hstep : s.step env op = .done s') (hmem : handle ∈ s'.handles) : HandleOrigin env s s' op handle := by
  cases op with
  | getattr path replies =>
    obtain ⟨looked, -, hdone⟩ := Exec.bind_eq_done.mp hstep
    obtain rfl := Exec.done.inj hdone
    exact .before hmem
  | opendir | mkdir | mknod | unlink | rmdir =>
    obtain rfl := Exec.done.inj hstep
    exact .before hmem
  | create path mode flags replies =>
    obtain ⟨created, hcall, hdone⟩ := Exec.bind_eq_done.mp hstep
    obtain rfl := Exec.done.inj hdone
    rcases Session.mem_opened hmem with hold | ⟨addr, hret, hfh, rfl⟩
    · exact .before hold
    · exact .created rfl hcall hret hfh rfl
  | «open» path flags replies =>
    obtain ⟨opened, hcall, hdone⟩ := Exec.bind_eq_done.mp hstep
    obtain rfl := Exec.done.inj hdone
    rcases Session.mem_opened hmem with hold | ⟨addr, hret, hfh, rfl⟩
    · exact .before hold
    · exact .opened rfl hcall hret hfh rfl
  | read i size offset replies =>
    simp only [Session.step] at hstep
    split at hstep
    · obtain rfl := Exec.done.inj hstep
      exact .before hmem
    · obtain ⟨_, -, hdone⟩ := Exec.bind_eq_done.mp hstep
      obtain rfl := Exec.done.inj hdone
      exact .before hmem
  | write i data offset replies =>
    simp only [Session.step] at hstep
    split at hstep
    · obtain rfl := Exec.done.inj hstep
      exact .before hmem
    · split at hstep
      · obtain rfl := Exec.done.inj hstep
        exact .before hmem
      · obtain ⟨_, -, hdone⟩ := Exec.bind_eq_done.mp hstep
        obtain rfl := Exec.done.inj hdone
        exact .before hmem
  | release i replies =>
    simp only [Session.step] at hstep
    split at hstep
    · obtain rfl := Exec.done.inj hstep
      exact .before hmem
    · obtain ⟨released, -, hdone⟩ := Exec.bind_eq_done.mp hstep
      obtain rfl := Exec.done.inj hdone
      exact .before (List.mem_of_mem_eraseIdx hmem)
  | rename depth ring old new replies =>
    obtain ⟨_, -, hdone⟩ := Exec.bind_eq_done.mp hstep
    obtain rfl := Exec.done.inj hdone
    exact .before hmem
  | gc path replies =>
    obtain ⟨_, -, hdone⟩ := Exec.bind_eq_done.mp hstep
    obtain rfl := Exec.done.inj hdone
    exact .before hmem

/-- One request lets all handles fit, those it hands out included. -/
theorem Session.step_all_fit {env : Env} {s s' : Session} {op : Op} (hsound : s.world.Sound env)
    (h : ∀ handle ∈ s.handles, handle.Fits s.world) (hstep : s.step env op = .done s') :
    ∀ handle ∈ s'.handles, handle.Fits s'.world := by
  intro handle hmem
  cases Session.step_handles hstep hmem with
  | before hold => exact Session.step_fits hsound (h handle hold) hstep
  | opened _ hcall hret hfh hworld =>
    rw [hworld]
    exact dfsOpen_fits hsound hcall hret hfh
  | created _ hcall hret hfh hworld =>
    rw [hworld]
    exact dfsCreate_fits hsound hcall hret hfh

/-- In every run, the handles fit. -/
theorem Session.Reached.fits {env : Env} {guard : Session → Op → Prop} {s : Session} (h : s.Reached env guard) :
    ∀ handle ∈ s.handles, handle.Fits s.world := by
  refine GuardedRuns.Reaches.invariant (fun s => ∀ handle ∈ s.handles, handle.Fits s.world) ?_ ?_ h
  · intro s hs handle hmem
    rw [hs.handles] at hmem
    cases hmem
  · intro s op s' hreached hfits _ hstep
    exact Session.step_all_fit (Session.Reached.sound hreached) hfits hstep

/-- In every run, a handle whose entry is there is on the entry the table has for its path. -/
theorem Session.Reached.handle_entry {env : Env} {guard : Session → Op → Prop} {s : Session} {handle : Handle}
    {pe : Pentry} (h : s.Reached env guard) (hmem : handle ∈ s.handles)
    (hheap : s.world.heap handle.addr = some pe) : s.world.table handle.path = some handle.addr ∧ 0 ≤ pe.fd := by
  have hfits := Session.Reached.fits h handle hmem
  obtain ⟨path, htable⟩ := Session.Reached.rooted h handle.addr pe hheap
  obtain rfl := hfits.path path htable
  exact ⟨htable, hfits.fd pe hheap⟩

end Dropletfs
