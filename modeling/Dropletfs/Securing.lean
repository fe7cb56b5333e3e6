import Dropletfs.Backing
import Dropletfs.Handles

/-!
# Requests that change a cache file

Opening, creating, writing and releasing change the file of one path and leave those of the
others alone, provided these have names of their own. The file of that path is backed
afterwards: an open for reading has fetched it, an open for writing holds the mutex, a write
comes through a handle that may write, and a release has stored it.
-/

namespace Dropletfs

/-- The names an open works on: the cache file, and for a download of a compressed object the scratch file. -/
def OpenNames (env : Env) (w : World) (path : CStr) (flags : BitVec 32) (name : CStr) : Prop :=
  name = collapse (cacheName env.conf path) ∨
    (getModeFromFlags flags ≠ .creat ∧ w.cached path = none ∧
      (∃ obj, w.remote.lookup path = some obj ∧ obj.compressed = true) ∧
      name = collapse (scratchName (cacheName env.conf path)))

/-- An open works on no cache file of another path, and what it downloads for reading is all there is. -/
structure OpenSafe (env : Env) (w : World) (path : CStr) (flags : BitVec 32) (replies : OpenReplies) : Prop where
  placed : Placed env.conf path
  spared : w.OthersSpared env path (OpenNames env w path flags)
  fetches : getModeFromFlags flags = .rdonly → w.cached path = none → ∀ obj, w.remote.lookup path = some obj →
    obj.compressed = true → replies.copy.unpack.rename = true ∧ replies.copy.unpack.fclose = none

/-- A create opens the path safely, and not read-only unless the path is excluded. -/
structure CreateSafe (env : Env) (w : World) (path : CStr) (flags : BitVec 32) (replies : OpenReplies) : Prop where
  opening : OpenSafe env w path flags replies
  mode : reMatcher env.conf.regex path = false → getModeFromFlags flags ≠ .rdonly

/-- A release of a handle on an entry that is not excluded can examine the file, and if the handle may write, the
upload goes through and its scratch file is no cache file of another path. -/
structure ReleaseSafe (env : Env) (w : World) (path : CStr) (flags : BitVec 32) (pe : Pentry)
    (replies : ReleaseReplies) : Prop where
  examined : (w.fs.fstat pe.fd replies.fstat).isSome = true
  sends : isRdonly flags = false → replies.Sends env w.fs (cacheName env.conf path)
  spared : isRdonly flags = false → env.conf.usesZlib = true →
    w.OthersSpared env path (· = collapse (scratchName (cacheName env.conf path)))

/-- An object that is not compressed is downloaded as it is. -/
theorem Obj.fetched_of_plain {env : Env} {obj : Obj} (h : obj.compressed = false) (replies replies' : UnpackReplies) :
    obj.fetched env replies = obj.fetched env replies' := by
  unfold Obj.compressed at h
  unfold Obj.fetched
  cases hlabel : obj.label with
  | none => rfl
  | some label =>
    simp only [hlabel, Bool.and_eq_false_iff, Bool.not_eq_false'] at h ⊢
    rcases h with hnone | hzlib
    · rw [if_pos hnone, if_pos hnone]
    · rw [if_pos hzlib, if_pos hzlib]

section Open

variable {env : Env} {written : ℕ → Prop} {w w' : World} {path : CStr} {flags : BitVec 32}

/-- A mode's function works on the cache file, and on the scratch file when it downloads a compressed object. -/
theorem openByMode_frame {N : CStr → Prop} {fs fs' : LocalFs} {r : Remote} {pe pe' : Pentry} {mode : StateMode}
    {replies : OpenReplies} {ret : ℤ} (hplaced : Placed env.conf path)
    (hname : N (collapse (cacheName env.conf path)))
    (hscratch : mode ≠ .creat → pe.fd < 0 → ∀ obj, r.lookup path = some obj → obj.compressed = true →
      N (collapse (scratchName (cacheName env.conf path))))
    (h : openByMode env fs r pe path mode replies = .done (ret, fs', pe')) : fs.Frame N fs' := by
  have hexisting : ∀ {flags : OpenFlags} {ret fs' pe'}, mode ≠ .creat →
      openExisting env fs r pe path flags replies = .done (ret, fs', pe') → fs.Frame N fs' := by
    intro flags ret fs' pe' hmode h
    unfold openExisting at h
    split at h
    · rename_i hfd
      obtain ⟨⟨fd, fs₁, pe₁⟩, hcopy, hdone⟩ := Exec.bind_eq_done.mp h
      have hframe := dfsGetLocalCopy_frame_of (hplaced.collapse_copyName ▸ hname)
        (fun obj hobj hcompressed => hplaced.collapse_copyScratch ▸ hscratch hmode hfd obj hobj hcompressed) hcopy
      simp only [pure] at hdone
      split at hdone <;> obtain ⟨-, rfl, -⟩ := Exec.done.inj hdone <;> exact hframe
    · obtain ⟨-, rfl, -⟩ := Exec.done.inj h
      exact .refl N _
  have hwronly : ∀ {flags : OpenFlags}, mode ≠ .creat →
      openWronly env fs r pe path flags replies = .done (ret, fs', pe') → fs.Frame N fs' := by
    intro flags hmode h
    obtain ⟨⟨ret₁, fs₁, pe₁⟩, hcall, hdone⟩ := Exec.bind_eq_done.mp h
    have hframe := hexisting hmode hcall
    simp only [pure] at hdone
    split at hdone <;> obtain ⟨-, rfl, -⟩ := Exec.done.inj hdone <;> exact hframe
  cases mode with
  | rdonly => exact hexisting (by decide) h
  | wronly => exact hwronly (by decide) h
  | rdwr => exact hwronly (by decide) h
  | creat =>
    simp only [openByMode, openCreat, Exec.done.injEq] at h
    split at h
    · obtain ⟨-, rfl, -⟩ := h
      exact .refl N _
    · rename_i name htree
      split at h
      · obtain ⟨-, rfl, -⟩ := h
        exact .refl N _
      · rename_i hopen
        obtain ⟨-, rfl, -⟩ := h
        exact (LocalFs.Frame.refl N fs).openFile (.inl (hplaced.collapse_buildCacheTree htree ▸ hname)) hopen

/-- Once a mode's function has run safely on the entry of a path, the file of that path is backed. -/
theorem ModeOutcome.backedAt {fs : LocalFs} {pe pe' pe'' : Pentry} {addr : ℕ} {replies : OpenReplies} {ret : ℤ}
    (houtcome : ModeOutcome env w.fs w.remote pe path (getModeFromFlags flags) replies ret fs pe')
    (hplaced : Placed env.conf path)
    (hfetches : getModeFromFlags flags = .rdonly → pe.fd = -1 → ∀ obj, w.remote.lookup path = some obj →
      obj.compressed = true → replies.copy.unpack.rename = true ∧ replies.copy.unpack.fclose = none)
    (htable : w.table path = some addr) (hfd : pe''.fd = pe'.fd)
    (hlocked : pe''.locked = false → getModeFromFlags flags = .rdonly)
    (hkept : fs = w.fs → pe''.fd = pe.fd →
      w.Leaves env written written (({ w with fs := fs } : World).put addr pe'') path)
    (hbacked : w.BackedAt env written path) :
    (({ w with fs := fs } : World).put addr pe'').BackedAt env written path := by
  -- a file there can only be that of this entry
  have hself : ∀ {other qe}, (({ w with fs := fs } : World).put addr pe'').HasFile path other qe →
      other = addr ∧ qe = pe'' := by
    intro other qe hfile
    have hother : other = addr := Option.some.inj (hfile.table.symm.trans htable)
    have hheap := hfile.heap
    rw [hother, World.put_heap_self] at hheap
    exact ⟨hother, (Option.some.inj hheap).symm⟩
  cases houtcome with
  | failed hfs =>
    rcases hfs with hfs | ⟨hnone, -⟩
    · exact (hkept hfs hfd).backedAt hbacked
    · intro other qe hfile
      obtain ⟨-, rfl⟩ := hself hfile
      have := hfile.fd
      simp only at hfd
      omega
  | kept => exact (hkept rfl hfd).backedAt hbacked
  | @fetched _ obj bytes fd metadata digest hmode hnone _ _ hlookup hfetched hopen =>
    obtain ⟨ino, hname, hfile, hcontent⟩ := hopen
    rw [hplaced.collapse_copyName] at hname
    intro other qe hqe
    obtain ⟨rfl, rfl⟩ := hself hqe
    refine ⟨hplaced, _, bytes, ⟨World.holds_put (w := { w with fs := fs }) other hfd hfile rfl hcontent, hname⟩,
      fun hexposed => ?_⟩
    refine ⟨obj, hlookup, .inr ?_⟩
    cases hcompressed : obj.compressed with
    | false => exact (Obj.fetched_of_plain hcompressed _ _).trans hfetched
    | true =>
      obtain ⟨hrename, hfclose⟩ := hfetches (hlocked hexposed.locked) hnone obj hlookup hcompressed
      exact Obj.fetched_granted hrename hfclose hfetched
  | @created _ name fd hcreat htree hopen =>
    obtain ⟨-, ino, hfile, hname⟩ := LocalFs.openFile_file hopen
    rw [hplaced.collapse_buildCacheTree htree] at hname
    intro other qe hqe
    obtain ⟨rfl, rfl⟩ := hself hqe
    refine ⟨hplaced, _, _, ⟨World.holds_put (w := { w with fs := fs }) other hfd hfile rfl rfl, hname⟩,
      fun hexposed => ?_⟩
    rw [hlocked hexposed.locked] at hcreat
    cases hcreat

/-- Opening a path safely. -/
theorem dfsOpen_secured {replies : OpenReplies} {opened : Opened} (h : w.Secured env written) (hsound : w.Sound env)
    (hsafe : OpenSafe env w path flags replies) (hopen : dfsOpen env w path flags replies = .done opened) :
    opened.world.Secured env written := by
  have hmode : ∀ {addr w' pe fs pe' ret pe''}, Found w path replies addr w' pe →
      openByMode env w'.fs w'.remote (pe.held replies.semPost (getModeFromFlags flags)) path
        (getModeFromFlags flags) replies = .done (ret, fs, pe') → pe''.fd = pe'.fd → pe''.locked = pe'.locked →
      pe''.exclude = pe'.exclude → (({ w' with fs := fs } : World).put addr pe'').Secured env written := by
    intro addr w' pe fs pe' ret pe'' hfound hcall hfd hlocked hexclude
    obtain ⟨hcached, -, hremote⟩ := hfound.cached
    have hgrown := findOrPopulate_grown hfound.lookup
    have hsound' := hsound.grown hgrown
    have hleft : ∀ other, w.Leaves env written written w' other := fun other => hgrown.leaves hsound
    have h' := h.leaves hleft
    obtain ⟨hheldFd, hheldExclude⟩ := pe.held_fd replies.semPost (getModeFromFlags flags)
    have hheldLocked := pe.held_locked replies.semPost (getModeFromFlags flags)
    generalize pe.held replies.semPost (getModeFromFlags flags) = held at hcall hheldFd hheldExclude hheldLocked
    have husable : held.Usable := by
      rw [Pentry.Usable, hheldFd]
      exact (hsound'.rewound addr pe hfound.heap).usable
    have houtcome := openByMode_outcome husable hcall
    have hframe : w'.fs.Frame (OpenNames env w path flags) fs := by
      refine openByMode_frame hsafe.placed (.inl rfl) (fun hcreat hneg obj hobj hcompressed => ?_) hcall
      refine .inr ⟨hcreat, ?_, ⟨obj, hremote ▸ hobj, hcompressed⟩, rfl⟩
      rw [hcached, if_pos (by omega)]
    have hspared : ∀ other, other ≠ path → ∀ a qe, w'.HasFile other a qe →
        ¬ OpenNames env w path flags (collapse (cacheName env.conf other)) := by
      intro other hne a qe hfile
      obtain ⟨qe₀, hfile₀⟩ := (hleft other).hasFile hfile
      exact hsafe.spared other a qe₀ hne hfile₀
    obtain ⟨fd, flag, metadata, digest, hentry⟩ := openByMode_entry hcall
    have hlock : pe''.locked = (pe.locked || getModeFromFlags flags ≠ .rdonly) := by
      rw [hlocked, hentry]
      exact hheldLocked
    have hput : ∀ other, (other = path → fs = w'.fs ∧ pe''.fd = pe.fd) →
        w'.Leaves env written written (({ w' with fs := fs } : World).put addr pe'') other := by
      intro other hown
      refine hsound'.put_leaves hfound.heap hframe.files ?_ (fun _ _ _ _ hexposed => ⟨hexposed, rfl⟩) ?_
      · intro htable _
        obtain rfl := hsound'.table_inj other path addr htable hfound.table
        refine ⟨(hown rfl).2, fun hexposed => ⟨⟨?_, ?_, hexposed.unwritten⟩, rfl⟩⟩
        · rw [← hheldExclude, ← hexposed.exclude, hexclude, hentry]
        · have hfree := hexposed.locked
          rw [hlock, Bool.or_eq_false_iff] at hfree
          exact hfree.1
      · intro a qe hfile
        by_cases hother : other = path
        · rw [(hown hother).1]
          exact .refl _ _
        · exact hframe.spares (hspared other hother a qe hfile)
    refine h'.renew path (fun other hne => hput other fun heq => absurd heq hne) ?_ ?_
    · refine houtcome.backedAt hsafe.placed ?_ hfound.table hfd ?_ ?_ (h'.backed path)
      · intro hrdonly hnone obj hobj
        refine hsafe.fetches hrdonly ?_ obj (hremote ▸ hobj)
        rw [hcached, if_pos (by omega)]
      · intro hfree
        rw [hlock, Bool.or_eq_false_iff] at hfree
        simpa using hfree.2
      · intro hfs hsame
        exact hput path fun _ => ⟨hfs, hsame.trans hheldFd⟩
    · intro _ _ _ other a qe hne hfile hsame
      exact hspared other hne a qe hfile (.inl hsame)
  cases dfsOpen_outcome hopen with
  | noEntry => exact h
  | lockFailed hfound _ _ hwait =>
    have hgrown := findOrPopulate_grown hfound.lookup
    have hsound' := hsound.grown hgrown
    obtain ⟨rfl, -⟩ := Pentry.decRefcount_eq hwait
    refine (h.leaves fun other => hgrown.leaves hsound).leaves fun other => ?_
    refine hsound'.put_leaves hfound.heap (fun _ _ h => h) ?_ (fun _ _ _ _ hexposed => ⟨hexposed, rfl⟩)
      fun _ _ _ => .refl _ _
    intro _ _
    cases replies.semPost <;>
      exact ⟨rfl, fun hexposed => ⟨⟨hexposed.exclude, hexposed.locked, hexposed.unwritten⟩, rfl⟩⟩
  | failed hfound _ hcall => exact hmode hfound hcall rfl rfl rfl
  | succeeded hfound _ hcall => exact hmode hfound hcall rfl rfl rfl

/-- An open that takes the mutex leaves it held on the entry in `info->fh`. -/
theorem dfsOpen_holds {replies : OpenReplies} {opened : Opened} {addr : ℕ} {pe : Pentry}
    (hopen : dfsOpen env w path flags replies = .done opened) (hmode : getModeFromFlags flags ≠ .rdonly)
    (hlock : replies.lock = true) (hfh : opened.fh = some addr) (hheap : opened.world.heap addr = some pe) :
    pe.locked = true := by
  cases dfsOpen_outcome hopen with
  | noEntry => cases hfh
  | lockFailed _ _ hfailed =>
    rw [hlock] at hfailed
    cases hfailed
  | failed _ _ hcall =>
    obtain rfl := Option.some.inj hfh
    rw [World.put_heap_self] at hheap
    obtain ⟨fd, flag, metadata, digest, hentry⟩ := openByMode_entry hcall
    rw [← Option.some.inj hheap, hentry, Pentry.held_locked]
    simp [hmode]
  | succeeded _ _ hcall =>
    obtain rfl := Option.some.inj hfh
    rw [World.put_heap_self] at hheap
    obtain ⟨fd, flag, metadata, digest, hentry⟩ := openByMode_entry hcall
    rw [← Option.some.inj hheap, hentry]
    simp only [Pentry.held_locked]
    simp [hmode]

/-- Creating a path safely. -/
theorem dfsCreate_secured {mode : BitVec 32} {replies : CreateReplies} {created : Opened}
    (h : w.Secured env written) (hsound : w.Sound env) (hlock : replies.opening.lock = true)
    (hsafe : CreateRefused env w path mode replies ∨ CreateSafe env w path flags replies.opening)
    (hcreate : dfsCreate env w path mode flags replies = .done created) : created.world.Secured env written := by
  cases dfsCreate_outcome hcreate with
  | refused => exact h
  | noEntry hnot hopen =>
    have hopened := dfsOpen_secured h hsound (hsafe.resolve_left hnot).opening hopen
    exact hopened
  | @entry opened _ addr pe hnot hopen hfh hheap hentry =>
    have hsafe := hsafe.resolve_left hnot
    have hsound' := dfsOpen_sound hsound hopen
    have htable := dfsOpen_table hopen hfh
    obtain ⟨-, fs, remote, trace, metadata, hfs, hremote, hworld⟩ := createEntry_frame hentry
    refine (dfsOpen_secured h hsound hsafe.opening hopen).leaves fun other => ?_
    rw [hworld]
    have hunexposed : ¬ Exposed written addr
        { pe with exclude := reMatcher env.conf.regex path, metadata := metadata } := by
      intro hexposed
      have hheld := dfsOpen_holds hopen (hsafe.mode hexposed.exclude) hlock hfh hheap
      rw [hexposed.locked] at hheld
      cases hheld
    refine hsound'.put_leaves hheap ?_ (fun _ _ => ⟨rfl, fun hexposed => absurd hexposed hunexposed⟩) ?_ ?_
    · rcases hfs with rfl | rfl
      · exact fun _ _ h => h
      · rw [LocalFs.Keeps, LocalFs.fchmod_keeps]
        exact fun _ _ h => h
    · intro a qe hfile hne hexposed
      refine ⟨hexposed, ?_⟩
      rcases hremote with rfl | ⟨-, rfl⟩
      · rfl
      · refine dfsMknodTimeout_lookup ?_
        rintro rfl
        exact absurd (Option.some.inj (hfile.table.symm.trans htable)) hne
    · intro _ _ _
      rcases hfs with rfl | rfl
      · exact .refl _ _
      · obtain ⟨hnames, hcontent⟩ := opened.world.fs.fchmod_content pe.fd.toNat mode replies.fchmod
        exact ⟨by rw [hnames], fun ino _ => hcontent ino⟩

end Open

section Write

variable {env : Env} {written written' : ℕ → Prop} {w w' : World} {path : CStr} {addr : ℕ}

/-- A `pwrite` that takes something replaces the content behind the descriptor. -/
theorem LocalFs.pwrite_eq {fs fs' : LocalFs} {fd offset count : ℕ} {data : Bytes} {reply : Option ℕ}
    (h : fs.pwrite fd data offset reply = some (count, fs')) :
    ∃ file bytes, fs.files fd = some file ∧ fs' = fs.setContent file.ino bytes := by
  unfold pwrite at h
  split at h
  · rename_i file _ hfile
    split at h
    · obtain ⟨-, rfl⟩ := Prod.mk.inj (Option.some.inj h)
      exact ⟨file, _, hfile, rfl⟩
    · cases h
  · cases h

/-- Writing through a handle that may write. -/
theorem dfsWrite_secured {data : Bytes} {offset : ℕ} {replies : WriteReplies} {ret : ℤ}
    (h : w.Secured env written) (hsound : w.Sound env) (hrooted : w.Rooted) (hwritten : written addr)
    (hwrite : dfsWrite w addr data offset replies = .done (ret, w')) : w'.Secured env written := by
  unfold dfsWrite at hwrite
  split at hwrite
  · cases hwrite
  · rename_i pe hheap
    split at hwrite
    · obtain ⟨-, rfl⟩ := Prod.mk.inj (Exec.done.inj hwrite)
      exact h
    · rename_i hfd
      split at hwrite
      · obtain ⟨-, rfl⟩ := Prod.mk.inj (Exec.done.inj hwrite)
        exact h
      · rename_i count fs hpwrite
        obtain ⟨-, rfl⟩ := Prod.mk.inj (Exec.done.inj hwrite)
        obtain ⟨file, bytes, hfile, rfl⟩ := LocalFs.pwrite_eq hpwrite
        obtain ⟨path, htable⟩ := hrooted addr pe hheap
        have hown : w.HasFile path addr pe := ⟨htable, hheap, by omega⟩
        obtain ⟨hplaced, file', content, hcached, -⟩ := h.backed path addr pe hown
        obtain rfl := Option.some.inj (hcached.holds.isOpen.symm.trans hfile)
        refine h.renew path (fun other hne => ?_) ?_ fun _ _ hafter =>
          h.apart path _ _ ⟨hafter.table, hafter.heap, hafter.fd⟩
        · refine hsound.frame_leaves (fun _ _ h => h) (fun a qe hqe => ⟨rfl, fun ino hname => ?_⟩) fun _ _ _ _ => rfl
          have hino : ino ≠ file'.ino := by
            rintro rfl
            exact h.apart path addr pe hown other a qe hne hqe (w.fs.names_inj _ _ _ hname hcached.name)
          simp only [LocalFs.setContent, Function.update_of_ne hino]
        · intro a qe hafter
          obtain rfl : a = addr := Option.some.inj (hafter.table.symm.trans htable)
          obtain rfl := Option.some.inj (hafter.heap.symm.trans hheap)
          exact ⟨hplaced, file', _, hcached.transfer hheap rfl rfl rfl rfl, fun hexposed =>
            absurd hwritten hexposed.unwritten⟩

end Write

section Release

variable {env : Env} {written written' : ℕ → Prop} {w w' : World} {path : CStr} {addr : ℕ} {flags : BitVec 32}

/-- An upload of a rewound descriptor touches the scratch file only, and that only when it compresses. -/
theorem upload_touches {fd : ℕ} {file : OpenFile} {st : Stat} {replies : ReleaseReplies} {ok : Bool}
    (h : upload env w path fd st replies = .done (ok, w')) (hfile : w.fs.files fd = some file)
    (hoffset : file.offset = 0) :
    w.fs.Frame (fun name => env.conf.usesZlib = true ∧ name = collapse (scratchName (cacheName env.conf path)))
      w'.fs := by
  cases hzlib : env.conf.usesZlib with
  | true => exact (upload_files h hfile hoffset).mono fun _ hname => ⟨rfl, hname⟩
  | false =>
    obtain ⟨packed, hpack, -, rfl⟩ := upload_eq_done h
    obtain ⟨-, hstreams, -⟩ := pack_frame hpack
    obtain ⟨hfs, hscratch⟩ := pack_scratch_of_plain hzlib hpack
    refine cleanUp_frame ?_ hfile hoffset hstreams fun name hname => ?_
    · rw [hfs]
      exact .refl _ _
    · rw [hscratch] at hname
      cases hname

/-- An upload leaves the objects under other paths alone. -/
theorem upload_lookup_ne {fd : ℕ} {st : Stat} {replies : ReleaseReplies} {ok : Bool} {other : CStr}
    (h : upload env w path fd st replies = .done (ok, w')) (hne : other ≠ path) :
    w'.remote.lookup other = w.remote.lookup other := by
  obtain ⟨packed, -, -, rfl⟩ := upload_eq_done h
  simp only [pushPacked]
  split
  · rfl
  · unfold push
    simp only
    split
    · rfl
    · split
      · exact AList.lookup_insert_ne hne
      · rfl

/-- Releasing a handle on the entry of its path safely. Other entries are written by no fewer handles than
before, and this one too if the handle was read-only. -/
theorem dfsRelease_secured {pe : Pentry} {replies : ReleaseReplies} {released : Released}
    (h : w.Secured env written) (hsound : w.Sound env) (hzlib : Zlib.Reliable env)
    (hfile : w.HasFile path addr pe)
    (hsafe : pe.exclude = false → ReleaseSafe env w path flags pe replies)
    (hothers : ∀ other, other ≠ addr → written other → written' other)
    (hsame : isRdonly flags = true → written addr → written' addr)
    (hrelease : dfsRelease env w addr path flags replies = .done released) :
    released.world.Secured env written' := by
  obtain ⟨hplaced, file, content, hcached, -⟩ := h.backed path addr pe hfile
  have hexposed : ∀ {other qe}, other ≠ addr → Exposed written' other qe → Exposed written other qe :=
    fun hne h => ⟨h.exclude, h.locked, fun hw => h.unwritten (hothers _ hne hw)⟩
  -- the local files and the store are as they were, and the entry is exposed only if it was
  have hleft : ∀ pe', pe'.fd = pe.fd → (Exposed written' addr pe' → Exposed written addr pe) →
      (w.put addr pe').Secured env written' := by
    intro pe' hfd hown
    refine h.leaves fun other => hsound.put_leaves hfile.heap (fun _ _ h => h) (fun _ _ => ⟨hfd, fun hexposed' =>
      ⟨hown hexposed', rfl⟩⟩) (fun _ _ _ hne hexposed' => ⟨hexposed hne hexposed', rfl⟩) fun _ _ _ => .refl _ _
  cases dfsRelease_outcome hrelease with
  | unusable hheap hstat hfs =>
    obtain rfl := Option.some.inj (hfile.heap.symm.trans hheap)
    have hexclude : ∀ {pe' : Pentry}, pe'.exclude = pe.exclude → ¬ Exposed written' addr pe' := by
      intro pe' hsame hexposed'
      have hexamined := (hsafe (hsame ▸ hexposed'.exclude)).examined
      rw [hstat] at hexamined
      cases hexamined
    have hfs' : _ = w.fs := hfs.elim id fun h =>
      h.2.trans (LocalFs.seek_zero hcached.holds.isOpen hcached.holds.offset)
    rw [hfs']
    exact hleft _ rfl fun hexposed' => absurd hexposed' (hexclude rfl)
  | readOnly hheap _ hwait hrdonly =>
    obtain rfl := Option.some.inj (hfile.heap.symm.trans hheap)
    obtain ⟨rfl, -⟩ := Pentry.decRefcount_eq hwait
    exact hleft _ rfl fun hexposed' =>
      ⟨hexposed'.exclude, hexposed'.locked, fun hw => hexposed'.unwritten (hsame hrdonly hw)⟩
  | excluded hheap _ hwait _ hexcluded =>
    obtain rfl := Option.some.inj (hfile.heap.symm.trans hheap)
    obtain ⟨rfl, -⟩ := Pentry.decRefcount_eq hwait
    refine hleft _ rfl fun hexposed' => ?_
    have hincluded : pe.exclude = false := hexposed'.exclude
    rw [hexcluded] at hincluded
    cases hincluded
  | uploaded hheap _ hwait hwrite hincluded hupload =>
    obtain rfl := Option.some.inj (hfile.heap.symm.trans hheap)
    obtain ⟨rfl, -⟩ := Pentry.decRefcount_eq hwait
    have hsafe := hsafe hincluded
    have hframe := upload_touches hupload hcached.holds.isOpen hcached.holds.offset
    obtain ⟨-, hkeeps⟩ := upload_keeps hcached hplaced (hsafe.sends hwrite) hzlib hupload
    obtain ⟨hfiles, hnames, hcontent⟩ := upload_cached hplaced hcached hupload
    have hlookup : ∀ other, other ≠ path → _ := fun other hne => upload_lookup_ne hupload hne
    obtain ⟨fs, remote, trace, rfl⟩ := upload_frame hupload
    refine h.renew path (fun other hne => ?_) ?_ fun _ _ _ => h.apart path addr pe hfile
    · refine hsound.put_leaves hheap hframe.files (fun htable _ => ?_) (fun _ _ hqe hne' hexposed' =>
        ⟨hexposed hne' hexposed', hlookup other hne⟩) fun a qe hqe => ?_
      · exact absurd (hsound.table_inj other path addr htable hfile.table) hne
      · exact hframe.spares fun hname => hsafe.spared hwrite hname.1 other a qe hne hqe hname.2
    · intro a qe hafter
      obtain rfl : a = addr := Option.some.inj (hafter.table.symm.trans hfile.table)
      have hqe := hafter.heap
      rw [World.put_heap_self] at hqe
      obtain rfl := Option.some.inj hqe
      exact ⟨hplaced, file, content, hcached.transfer (World.put_heap_self ..) rfl hfiles hnames hcontent,
        fun _ => hkeeps⟩

/-- A safe release of a handle that may write stores the content of the cache file. -/
theorem dfsRelease_stores {pe : Pentry} {replies : ReleaseReplies} {released : Released}
    (h : w.Secured env written) (hzlib : Zlib.Reliable env) (hfile : w.HasFile path addr pe)
    (hincluded : pe.exclude = false) (hsafe : ReleaseSafe env w path flags pe replies)
    (hwrite : isRdonly flags = false) (hrelease : dfsRelease env w addr path flags replies = .done released) :
    ∃ content, w.fs.contentAt (cacheName env.conf path) = some content ∧ released.ret = 0 ∧
      released.world.remote.Keeps env path content := by
  obtain ⟨hplaced, file, content, hcached, -⟩ := h.backed path addr pe hfile
  refine ⟨content, LocalFs.contentAt_eq_some.mpr ⟨_, hcached.name, hcached.holds.content⟩, ?_⟩
  cases dfsRelease_outcome hrelease with
  | unusable hheap hstat =>
    obtain rfl := Option.some.inj (hfile.heap.symm.trans hheap)
    have hexamined := hsafe.examined
    rw [hstat] at hexamined
    cases hexamined
  | readOnly _ _ _ hrdonly =>
    rw [hwrite] at hrdonly
    cases hrdonly
  | excluded hheap _ _ _ hexcluded =>
    obtain rfl := Option.some.inj (hfile.heap.symm.trans hheap)
    rw [hincluded] at hexcluded
    cases hexcluded
  | uploaded hheap _ _ _ _ hupload =>
    obtain rfl := Option.some.inj (hfile.heap.symm.trans hheap)
    obtain ⟨hok, hkeeps⟩ := upload_keeps hcached hplaced (hsafe.sends hwrite) hzlib hupload
    exact ⟨if_pos hok, hkeeps⟩

end Release

end Dropletfs
