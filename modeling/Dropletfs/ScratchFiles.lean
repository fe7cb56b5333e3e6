import Dropletfs.Progress
import Dropletfs.Session

/-!
# The scratch files next to other cache files

A release that compresses and a download that decompresses work on a scratch file whose name
is that of the cache file with a suffix. All cache files share one directory, so the scratch
file of one path can be the cache file of another. The two functions leave the cache file of
another path as it is exactly when its name is none of those they work on.
-/

namespace Dropletfs

/-- The names that a release of a path and a download of it work on. -/
def TouchedNames (conf : Conf) (path name : CStr) : Prop :=
  CopyNames conf path name ∨ (conf.usesZlib = true ∧ name = collapse (scratchName (cacheName conf path)))

/-- In every reachable state, a release of a path and a download of it leave the cache file of another
path as it is: it exists as before, with the same content. -/
structure SparesOther (env : Env) (path other : CStr) : Prop where
  release : ∀ s : Session, s.Reached env GuardedRuns.unguarded → ∀ addr flags replies released,
    dfsRelease env s.world addr path flags replies = .done released →
    released.world.fs.contentAt (cacheName env.conf other) = s.world.fs.contentAt (cacheName env.conf other)
  copy : ∀ s : Session, s.Reached env GuardedRuns.unguarded → ∀ pe flags replies fd fs pe',
    dfsGetLocalCopy env s.world.fs s.world.remote pe path flags replies = .done (fd, fs, pe') →
    fs.contentAt (cacheName env.conf other) = s.world.fs.contentAt (cacheName env.conf other)

section Spared

variable {env : Env} {path : CStr}

/-- Cleaning up after an upload leaves the files other than the scratch file alone. -/
theorem cleanUp_contentAt {fs : LocalFs} {fd : ℕ} {streams : List ℕ} {scratch : Option CStr} {reply : Bool}
    {name : CStr} (h : ∀ other, scratch = some other → collapse name ≠ collapse other) :
    (cleanUp fs fd streams scratch reply).contentAt name = fs.contentAt name := by
  have hclosed : ((fs.closeAll streams).seek fd 0).contentAt name = fs.contentAt name := by
    rw [LocalFs.closeAll_eq]
    rfl
  unfold cleanUp
  cases scratch with
  | none => exact hclosed
  | some other =>
    simp only
    unfold LocalFs.unlink
    split
    · rw [← hclosed]
      simp only [LocalFs.contentAt, LocalFs.resolve, LocalFs.forget, Function.update_of_ne (h other rfl)]
    · exact hclosed

/-- A scratch file is named only by a configuration that compresses. -/
theorem pack_scratch_of_plain {fs : LocalFs} {name : CStr} {plain : Outgoing} {replies : ReleaseReplies}
    {packed : Packed} (hzlib : env.conf.usesZlib = false) (h : pack env fs name plain replies = .done packed) :
    packed.fs = fs ∧ packed.scratch = none := by
  rw [pack, if_pos hzlib] at h
  obtain rfl := Exec.done.inj h
  exact ⟨rfl, rfl⟩

/-- A release leaves all files alone but the scratch file of a configuration that compresses. -/
theorem dfsRelease_contentAt {w : World} {addr : ℕ} {flags : BitVec 32} {replies : ReleaseReplies}
    {released : Released} {name : CStr}
    (hname : env.conf.usesZlib = true → collapse name ≠ collapse (scratchName (cacheName env.conf path)))
    (h : dfsRelease env w addr path flags replies = .done released) :
    released.world.fs.contentAt name = w.fs.contentAt name := by
  cases dfsRelease_outcome h with
  | unusable _ _ hfs =>
    rcases hfs with rfl | ⟨-, rfl⟩
    · rfl
    · rfl
  | readOnly => rfl
  | excluded => rfl
  | uploaded _ _ _ _ _ hupload =>
    obtain ⟨packed, hpack, -, rfl⟩ := upload_eq_done hupload
    simp only [World.put_fs]
    cases hzlib : env.conf.usesZlib with
    | false =>
      obtain ⟨hfs, hscratch⟩ := pack_scratch_of_plain hzlib hpack
      rw [cleanUp_contentAt (by rw [hscratch]; exact fun _ hnone => by cases hnone), hfs]
    | true =>
      obtain ⟨hframe, -, hscratch⟩ := pack_frame hpack
      have hother := hname hzlib
      rw [cleanUp_contentAt (fun other hsome => by rw [hscratch other hsome]; exact hother)]
      exact hframe.contentAt hother

/-- The cache file of a path is left as it is when its name is none of those worked on. -/
theorem sparesOther_of_untouched {other : CStr}
    (h : ¬ TouchedNames env.conf path (collapse (cacheName env.conf other))) : SparesOther env path other where
  release := by
    intro s _ addr flags replies released hrelease
    exact dfsRelease_contentAt (fun hzlib hname => h (.inr ⟨hzlib, hname⟩)) hrelease
  copy := by
    intro s _ pe flags replies fd fs pe' hcopy
    exact (dfsGetLocalCopy_frame hcopy).contentAt fun hname => h (.inl hname)

end Spared

section Touched

variable {env : Env} {path other : CStr}

/-- One file and no descriptor. -/
def LocalFs.file (proc : Process) (name : CStr) (content : Bytes) : LocalFs :=
  (LocalFs.empty.create proc name 0).setContent 0 content

/-- The one file is there. -/
theorem LocalFs.file_names (proc : Process) (name : CStr) (content : Bytes) :
    (LocalFs.file proc name content).names (collapse name) = some 0 :=
  Function.update_self ..

/-- The one file has its content. -/
theorem LocalFs.file_contentAt (proc : Process) (name : CStr) (content : Bytes) :
    (LocalFs.file proc name content).contentAt name = some content :=
  LocalFs.contentAt_eq_some.mpr ⟨0, LocalFs.file_names proc name content, by
    simp only [LocalFs.file, LocalFs.setContent, Function.update_self]⟩

/-- Nothing is left under a name that was unlinked. -/
theorem LocalFs.unlink_contentAt {fs : LocalFs} {name other : CStr} (h : collapse other = collapse name) :
    (fs.unlink name true).contentAt other = none := by
  simp only [LocalFs.unlink, if_true, LocalFs.contentAt, LocalFs.resolve, LocalFs.forget, h,
    Function.update_self, Option.map_none]

/-- A download through a new entry, the calls up to it succeeding, is what comes after them. -/
theorem dfsGetLocalCopy_granted {fs : LocalFs} {obj : Obj} (replies : CopyReplies) (flags : OpenFlags)
    (hnamei : ∀ i, replies.namei i = .success) (hnewDict : replies.newDict = true)
    (hextract : replies.extract = .success) (hset : replies.setMetadata = ⟨true, .success⟩) :
    ∃ pe metadata, dfsGetLocalCopy env fs ((∅ : Remote).insert path obj) pentryNew path flags replies =
      fetchCopy env fs ((∅ : Remote).insert path obj) pe path flags metadata replies := by
  have hexists : (Remote.ftype ((∅ : Remote).insert path obj) path).isSome = true := by
    unfold Remote.ftype
    split
    · rfl
    · rw [AList.lookup_insert]
      rfl
  have hfound := dfsNameiTimeout_granted env.conf.maxRetry hnamei hexists
  obtain ⟨headers, hheaders⟩ : ∃ headers, downloadHeaders env.conf.maxRetry ((∅ : Remote).insert path obj)
      path replies = some headers := ⟨_, by rw [downloadHeaders, if_neg (not_not.mpr hfound)]⟩
  refine ⟨{ pentryNew with metadata := some (getMetadataFromHeaders replies.extract headers) },
    getMetadataFromHeaders replies.extract headers, ?_⟩
  simp only [dfsGetLocalCopy, hheaders, hnewDict, hextract, Pentry.setMetadata, hset, compareDigests, pentryNew,
    Bool.true_eq_false, reduceCtorEq, if_false, ne_eq, not_false_eq_true, if_true, Bool.false_eq_true]

/-- A download first unlinks the file of its own name. -/
theorem copy_touches (h : collapse (cacheName env.conf other) = collapse (copyName env.conf path)) :
    ¬ SparesOther env path other := by
  intro hspares
  obtain ⟨fs, hfs⟩ : ∃ fs, fs = LocalFs.file env.proc (cacheName env.conf other) [] := ⟨_, rfl⟩
  have hnames : fs.names (collapse (copyName env.conf path)) = some 0 := by
    rw [← h, hfs]
    exact LocalFs.file_names ..
  obtain ⟨pe, metadata, hcopy⟩ : ∃ pe metadata, dfsGetLocalCopy env fs (.file path []) pentryNew path readOnly
      { CopyReplies.granted 3 with create := none } = fetchCopy env fs (.file path []) pe path readOnly metadata
        { CopyReplies.granted 3 with create := none } :=
    dfsGetLocalCopy_granted _ _ (fun _ => rfl) rfl rfl rfl
  have hfetch : fetchCopy env fs (.file path []) pe path readOnly metadata
      { CopyReplies.granted 3 with create := none } =
      .done (-1, fs.unlink (copyName env.conf path) true, pe) := by
    simp [fetchCopy, CopyReplies.granted, LocalFs.resolve, hnames, LocalFs.openFile]
  have hsame := hspares.copy (.start fs (.file path [])) (.start (Session.start_initial ..)) _ _ _ _ _ _
    (hcopy.trans hfetch)
  rw [LocalFs.unlink_contentAt h] at hsame
  simp only [Session.start, World.start, hfs, LocalFs.file_contentAt] at hsame
  cases hsame

/-- Decompressing a file that cannot be read puts out nothing. -/
theorem unzip_unreadable (z : Zlib) (source : Bytes) (writeFails : ℕ → Bool) :
    ∃ zret, unzip z source ⟨fun _ => true, writeFails⟩ = .done (zret, []) ∧ zret ≠ .ok := by
  unfold unzip
  by_cases hinit : z.inflateInit ≠ .ok
  · exact ⟨z.inflateInit, if_pos hinit, hinit⟩
  · exact ⟨.errno, by rw [if_neg hinit]; rfl, by decide⟩

/-- Names that resolve alike have the same content. -/
theorem LocalFs.contentAt_congr (fs : LocalFs) {name other : CStr} (h : collapse name = collapse other) :
    fs.contentAt name = fs.contentAt other := by
  unfold LocalFs.contentAt LocalFs.resolve
  rw [h]

/-- An empty object that is labelled as compressed. -/
def Obj.labelled : Obj := ⟨.reg, [], some (Dict.new.updateValue "compression".toList "zlib".toList), none⟩

/-- Every call of a download succeeds, but the files it decompresses cannot be read. -/
def CopyReplies.unreadable : CopyReplies :=
  { CopyReplies.granted 3 with
    access := false
    unpack := { (CopyReplies.granted 3).unpack with io := ⟨fun _ => true, fun _ => false⟩ } }

/-- A decompression that fails leaves an empty scratch file. -/
theorem fetchCopy_unreadable {fs : LocalFs} (pe : Pentry) (metadata : Dict) (hfree : fs.files = fun _ => none) :
    ∃ fs', fetchCopy env fs ((∅ : Remote).insert path .labelled) pe path readOnly metadata .unreadable =
        .done (-1, fs', pe) ∧ fs'.contentAt (scratchName (copyName env.conf path)) = some [] := by
  obtain ⟨name, hname⟩ : ∃ name, name = copyName env.conf path := ⟨_, rfl⟩
  -- the file of the download
  obtain ⟨fs₁, hcreate, hfiles₁⟩ : ∃ fs₁, fs.openFile env.proc name createTruncated 0o600 (some 3) =
      some (3, fs₁) ∧ ∀ other, other ≠ 3 → fs₁.files other = fs.files other :=
    LocalFs.openFile_picks _ _ (by rw [hfree]) (.inr rfl)
  obtain ⟨-, ino, hfile, hresolve⟩ := LocalFs.openFile_file hcreate
  have hempty := LocalFs.openFile_trunc rfl hcreate
  simp only [LocalFs.fdContent, hfile, Option.map_some, Option.some.injEq] at hempty
  have hwritten := LocalFs.append_empty [] hfile hempty
  have hfiles₂ : ∀ other, other ≠ 3 → (fs₁.append 3 []).files other = none := by
    intro other hother
    rw [hwritten]
    simp only [LocalFs.seek, LocalFs.setContent, Function.update_of_ne hother, hfiles₁ other hother, hfree]
  -- its two streams
  obtain ⟨fs₃, hsource, hfiles₃⟩ : ∃ fs₃, (fs₁.append 3 []).openFile env.proc name readOnly 0o666 (some 4) =
      some (4, fs₃) ∧ ∀ other, other ≠ 4 → fs₃.files other = (fs₁.append 3 []).files other :=
    LocalFs.openFile_picks _ _ (hfiles₂ 4 (by decide)) (.inl (by
      rw [hwritten]
      simp only [LocalFs.seek, LocalFs.setContent, hresolve, Option.isSome_some]))
  obtain ⟨fs₄, hscratch, -⟩ : ∃ fs₄, fs₃.openFile env.proc (scratchName name) createTruncated 0o666 (some 5) =
      some (5, fs₄) ∧ ∀ other, other ≠ 5 → fs₄.files other = fs₃.files other :=
    LocalFs.openFile_picks _ _ (by rw [hfiles₃ 5 (by decide), hfiles₂ 5 (by decide)]) (.inr rfl)
  obtain ⟨-, ino', hfile', hresolve'⟩ := LocalFs.openFile_file hscratch
  have hempty' := LocalFs.openFile_trunc rfl hscratch
  simp only [LocalFs.fdContent, hfile', Option.map_some, Option.some.injEq] at hempty'
  -- nothing is read, so nothing is flushed to the scratch file
  obtain ⟨zret, hunzip, hfailed⟩ := unzip_unreadable env.zlib (fs₄.unread 4) fun _ => false
  refine ⟨closeStreams fs₄ 4 5 [] none, ?_, ?_⟩
  · have hunpack : unpackInto env fs₄ name 3 4 5 CopyReplies.unreadable.unpack =
        .done ⟨-1, closeStreams fs₄ 4 5 [] none, some 3⟩ := by
      simp only [unpackInto, CopyReplies.unreadable, hunzip, Exec.done_bind, ne_eq, hfailed, not_false_eq_true,
        if_true]
      rfl
    have hcompression : handleCompression env (fs₁.append 3 []) name 3 (Obj.labelled.metadata.getD Dict.new)
        CopyReplies.unreadable.unpack = .done ⟨-1, closeStreams fs₄ 4 5 [] none, some 3⟩ := by
      have hlabel : Obj.labelled.metadata.getD Dict.new "compression".toList = some "zlib".toList := by
        simp [Obj.labelled, Dict.updateValue]
      have hnone : strncmpEq "none".toList "zlib".toList = false := by decide
      have hzlib : strncmpEq "zlib".toList "zlib".toList = true := by decide
      simp only [handleCompression, hlabel, hnone, hzlib, Bool.false_eq_true, Bool.true_eq_false, if_false]
      simpa only [CopyReplies.unreadable, CopyReplies.granted, hsource, hscratch] using hunpack
    have hread : dplOpenread env.cipher ((∅ : Remote).insert path .labelled) path false fs₁ 3 metadata
        CopyReplies.unreadable.openread =
        (.success, fs₁.append 3 [], Obj.labelled.metadata.getD Dict.new) := by
      simp only [dplOpenread, AList.lookup_insert]
      rfl
    have hreply : CopyReplies.unreadable.create = some 3 ∧ CopyReplies.unreadable.access = false := ⟨rfl, rfl⟩
    simp only [fetchCopy, checkEncryptionFlag_eq_false, ← hname, hreply, Bool.false_and, Bool.false_eq_true,
      if_false, hcreate, hread, ne_eq, not_true_eq_false, hcompression, Exec.done_bind, openCopy, if_true]
    rfl
  · rw [← hname, closeStreams_eq 4 [] none hfile' hempty']
    exact LocalFs.contentAt_eq_some.mpr ⟨ino', hresolve', by
      simp only [LocalFs.close, LocalFs.seek, LocalFs.setContent, Function.update_self, flushed]⟩

/-- A download that decompresses empties its scratch file. -/
theorem copyScratch_touches
    (h : collapse (cacheName env.conf other) = collapse (scratchName (copyName env.conf path))) :
    ¬ SparesOther env path other := by
  intro hspares
  obtain ⟨pe, metadata, hcopy⟩ : ∃ pe metadata, dfsGetLocalCopy env
      (.file env.proc (cacheName env.conf other) [65]) ((∅ : Remote).insert path .labelled) pentryNew path readOnly
      .unreadable = fetchCopy env (.file env.proc (cacheName env.conf other) [65])
        ((∅ : Remote).insert path .labelled) pe path readOnly metadata .unreadable :=
    dfsGetLocalCopy_granted _ _ (fun _ => rfl) rfl rfl rfl
  obtain ⟨fs', hfetch, hempty⟩ : ∃ fs', fetchCopy env (.file env.proc (cacheName env.conf other) [65])
      ((∅ : Remote).insert path .labelled) pe path readOnly metadata .unreadable = .done (-1, fs', pe) ∧
      fs'.contentAt (scratchName (copyName env.conf path)) = some [] :=
    fetchCopy_unreadable pe metadata rfl
  have hsame := hspares.copy (.start (.file env.proc (cacheName env.conf other) [65])
    ((∅ : Remote).insert path .labelled)) (.start (Session.start_initial ..)) _ _ _ _ _ _ (hcopy.trans hfetch)
  rw [LocalFs.contentAt_congr _ h, hempty] at hsame
  simp only [Session.start, World.start, LocalFs.file_contentAt] at hsame
  cases hsame

/-- An open for writing from scratch of a path that has no entry, its calls succeeding. -/
theorem dfsOpen_creates {fs : LocalFs} {remote : Remote} (hfree : fs.files = fun _ => none) :
    ∃ w addr pe file, dfsOpen env (.start fs remote) path oWronly (.granted 3) = .done ⟨0, some addr, w⟩ ∧
      w.heap addr = some pe ∧ pe.fd = 3 ∧ pe.refcount = 1 ∧ pe.exclude = false ∧ w.fs.files 3 = some file ∧
      (w.fs.inodes file.ino).content = [] ∧ ∀ name, fs.names name ≠ none → w.fs.names name ≠ none := by
  obtain ⟨name, hname⟩ : ∃ name, buildCacheTree env.conf path true = some name := ⟨_, rfl⟩
  obtain ⟨fs', hopen, -⟩ : ∃ fs', fs.openFile env.proc name (openFlags .creat) 0o644 (some 3) = some (3, fs') ∧
      ∀ other, other ≠ 3 → fs'.files other = fs.files other :=
    LocalFs.openFile_picks _ _ (by rw [hfree]) (.inr rfl)
  obtain ⟨-, ino, hfile, -⟩ := LocalFs.openFile_file hopen
  have hempty := LocalFs.openFile_trunc rfl hopen
  simp only [LocalFs.fdContent, hfile, Option.map_some, Option.some.injEq] at hempty
  have hkept : ∀ name, fs.names name ≠ none → fs'.names name ≠ none := by
    intro other hother
    cases (LocalFs.openFile_outcome hopen).2 with
    | existing => exact hother
    | created _ hnone _ =>
      simp only [LocalFs.bind, LocalFs.create, Function.update_apply]
      split
      · simp
      · exact hother
  -- the new entry is counted and locked, and then gets the descriptor
  obtain ⟨pe, hpe⟩ : ∃ pe : Pentry, pe = { pentryNew with path := some path, refcount := 1, locked := true } :=
    ⟨_, rfl⟩
  have hentry : dfsOpen env (.start fs remote) path oWronly (.granted 3) =
      openEntry env ((World.start fs remote).insert path { pentryNew with path := some path }).2 0 pe path .creat
        (.granted 3) := by
    rw [hpe]
    rfl
  have hmode : openByMode env fs remote pe path .creat (.granted 3) =
      .done (0, fs', { pe with fd := 3, flag := .dirty }) := by
    simp only [openByMode, openCreat, OpenReplies.granted, hname, hopen]
    rfl
  obtain ⟨w, hw⟩ : ∃ w, w = { ((World.start fs remote).insert path { pentryNew with path := some path }).2 with
      fs := fs' }.put 0 { pe with fd := 3, flag := .dirty, ondisk := .localFile } := ⟨_, rfl⟩
  refine ⟨w, 0, { pe with fd := 3, flag := .dirty, ondisk := .localFile }, ⟨ino, 0, (openFlags .creat).write⟩,
    ?_, ?_, rfl, ?_, ?_, ?_, ?_, ?_⟩
  · rw [hentry, openEntry]
    simp only [World.insert, World.start, hmode, Exec.done_bind]
    rw [hw]
    rfl
  · rw [hw, World.put_heap_self]
  · rw [hpe]
  · rw [hpe]
    rfl
  all_goals
    rw [hw]
    assumption

/-- The session after a first open is reached. -/
theorem Session.reached_opened {env : Env} {fs : LocalFs} {remote : Remote} {opened : Opened} {flags : BitVec 32}
    {replies : OpenReplies} (h : dfsOpen env (.start fs remote) path flags replies = .done opened) :
    ((Session.start fs remote).opened path flags opened).Reached env GuardedRuns.unguarded := by
  have hstep : (Session.start fs remote).step env (.open path flags replies) =
      .done ((Session.start fs remote).opened path flags opened) := by
    simp only [Session.step, Session.start, h, Exec.done_bind]
    rfl
  exact .step (.start (Session.start_initial ..)) trivial hstep

/-- A release removes its scratch file, also when it could not be made. -/
theorem releaseScratch_touches (hzlib : env.conf.usesZlib = true)
    (h : collapse (cacheName env.conf other) = collapse (scratchName (cacheName env.conf path))) :
    ¬ SparesOther env path other := by
  intro hspares
  obtain ⟨w, addr, pe, file, hopen, hheap, hfd, hcount, hexclude, hfile, hempty, hkept⟩ :=
    @dfsOpen_creates env path (.file env.proc (cacheName env.conf other) []) ∅ rfl
  obtain ⟨replies, hreplies⟩ : ∃ replies, replies = { ReleaseReplies.granted 4 with fopenSource := none } :=
    ⟨_, rfl⟩
  have hstat : ∃ st, w.fs.fstat pe.fd replies.fstat = some st := by
    simp [LocalFs.fstat, hfd, hfile, hempty, hreplies, ReleaseReplies.granted]
  obtain ⟨st, hstat⟩ := hstat
  have hpack : pack env w.fs (cacheName env.conf path) ⟨3, st.size.toNat, fillMetadataFromStat Dict.new st⟩
      replies = .done ⟨w.fs, none, [], some (scratchName (cacheName env.conf path))⟩ := by
    rw [pack, if_neg (by simp [hzlib])]
    simp only [hreplies, LocalFs.openFile]
  have hupload : upload env w path pe.fd.toNat st replies = .done (false, { w with
      fs := (w.fs.seek 3 0).unlink (scratchName (cacheName env.conf path)) true }) := by
    have hthree : pe.fd.toNat = 3 := by rw [hfd]; rfl
    simp only [upload, hthree, hpack, Exec.done_bind, pushPacked]
    rw [hreplies]
    rfl
  have hrelease : dfsRelease env w addr path oWronly replies = .done ⟨-1, { w with
      fs := (w.fs.seek 3 0).unlink (scratchName (cacheName env.conf path)) true }.put addr
        ({ pe with refcount := pe.refcount - 1 }.markClean true)⟩ := by
    have hneg : ¬ pe.fd < 0 := by omega
    have hflags : isRdonly oWronly = false := by decide
    have hwait : pe.decRefcount replies.semWait = .done { pe with refcount := pe.refcount - 1 } := by
      rw [Pentry.decRefcount, hreplies]
      simp [ReleaseReplies.granted, hcount]
    simp only [dfsRelease, hheap, hneg, if_false, hstat, releaseCounted, hwait, Exec.done_bind, hflags,
      Bool.false_eq_true, hexclude, hupload]
    rw [hreplies]
    rfl
  have hsame := hspares.release _ (Session.reached_opened hopen) addr oWronly replies _ hrelease
  simp only [World.put_fs, LocalFs.unlink_contentAt h, Session.opened] at hsame
  have hthere : w.fs.names (collapse (cacheName env.conf other)) ≠ none :=
    hkept _ (by rw [LocalFs.file_names]; exact Option.some_ne_none 0)
  simp [LocalFs.contentAt, LocalFs.resolve, hthere] at hsame

/-- A cache file whose name is worked on is not left alone. -/
theorem touched_not_spared (h : TouchedNames env.conf path (collapse (cacheName env.conf other))) :
    ¬ SparesOther env path other := by
  rcases h with (hcopy | hscratch) | ⟨hzlib, hscratch⟩
  · exact copy_touches hcopy
  · exact copyScratch_touches hscratch
  · exact releaseScratch_touches hzlib hscratch

end Touched

/-- Releases and downloads of a path leave the cache file of another path as it is, in every reachable
state, exactly when its name is none of those they work on. -/
theorem sparesOther_iff (env : Env) (path other : CStr) :
    SparesOther env path other ↔ ¬ TouchedNames env.conf path (collapse (cacheName env.conf other)) := by
  constructor
  · intro hspares htouched
    exact touched_not_spared htouched hspares
  · exact sparesOther_of_untouched

/-- The scratch file of `/a` is the cache file of `/a.tmp`. -/
theorem scratch_overwrites_other :
    "/a".toList.head? = some '/' ∧ "/a.tmp".toList.head? = some '/' ∧ "/a".toList ≠ "/a.tmp".toList ∧
      ¬ SparesOther Env.plain "/a".toList "/a.tmp".toList := by
  refine ⟨rfl, rfl, by decide, touched_not_spared (.inl (.inr ?_))⟩
  decide

end Dropletfs
