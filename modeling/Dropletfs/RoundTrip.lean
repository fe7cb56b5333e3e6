import Dropletfs.Progress

/-!
# Uploading a file and fetching it again

While one path is opened, written and released again and again, the descriptor of its entry
stays at the start of the cache file. A release therefore uploads that file, and a download
through an entry that has no copy yet gives it back, unless it was encrypted: the flag that
makes the library decipher an object is never passed.
-/

namespace Dropletfs

open Overlay (Write)

/-- An open, or a create with a successful open inside, that can post the semaphore. -/
inductive Opens (env : Env) (w : World) (path : CStr) (flags : BitVec 32) : Opened → Prop
  | opened {replies : OpenReplies} {opened : Opened} : replies.semPost = true →
      dfsOpen env w path flags replies = .done opened → Opens env w path flags opened
  | created {mode : BitVec 32} {replies : CreateReplies} {inner opened : Opened} :
      replies.opening.semPost = true → dfsOpen env w path flags replies.opening = .done inner →
      inner.ret = 0 → dfsCreate env w path mode flags replies = .done opened →
      Opens env w path flags opened

/-- A path is looked up, or opened, written and released, any number of times. -/
inductive Cycles (env : Env) (path : CStr) : World → World → Prop
  | zero {w : World} : Cycles env path w w
  | looked {w w₁ : World} {replies : GetattrReplies} {looked : Lookup} : Cycles env path w w₁ →
      dfsGetattr env w₁ path replies = .done looked → Cycles env path w looked.world
  | next {w w₁ w₂ : World} {flags : BitVec 32} {opened : Opened} {addr : ℕ} {writes : List (Write UInt8)}
      {replies : ReleaseReplies} {released : Released} : Cycles env path w w₁ →
      Opens env w₁ path flags opened → opened.ret = 0 → opened.fh = some addr →
      Writes addr opened.world writes w₂ → dfsRelease env w₂ addr path flags replies = .done released →
      Cycles env path w released.world

/-- The descriptor of the entry of a path, if it has one, is at the start of the cache file. -/
def World.Linked (env : Env) (w : World) (path : CStr) : Prop :=
  ∀ addr pe, w.table path = some addr → w.heap addr = some pe → 0 ≤ pe.fd →
    ∃ file content, w.Cached env addr path pe file content

/-- A handle of a path that is not excluded, on an entry whose descriptor is at the start of the cache
file. -/
structure World.Ready (env : Env) (w : World) (path : CStr) (addr : ℕ) (pe : Pentry) (file : OpenFile)
    (content : Bytes) : Prop where
  table : w.table path = some addr
  cached : w.Cached env addr path pe file content
  counted : 0 < pe.refcount
  included : pe.exclude = false

section Cycles

variable {env : Env} {w w' : World} {path : CStr} {flags : BitVec 32}

/-- A mode's function leaves a new descriptor at the start of the cache file. -/
theorem ModeOutcome.linked {fs fs' : LocalFs} {r : Remote} {pe pe' : Pentry} {mode : StateMode}
    {replies : OpenReplies} {ret : ℤ} (h : ModeOutcome env fs r pe path mode replies ret fs' pe')
    (hplaced : Placed env.conf path) (hret : ret ≠ -1)
    (hbefore : 0 ≤ pe.fd → ∃ file, fs.files pe.fd.toNat = some file ∧
      fs.names (collapse (cacheName env.conf path)) = some file.ino) :
    ∃ file, fs'.files pe'.fd.toNat = some file ∧
      fs'.names (collapse (cacheName env.conf path)) = some file.ino := by
  cases h with
  | failed => exact absurd rfl hret
  | kept _ hfd => exact hbefore hfd
  | fetched _ _ _ _ _ _ hopen =>
    obtain ⟨ino, hname, hfile, -⟩ := hopen
    rw [hplaced.collapse_copyName] at hname
    exact ⟨_, by rw [Int.toNat_natCast]; exact hfile, hname⟩
  | created _ htree hopen =>
    obtain ⟨-, ino, hfile, hname⟩ := LocalFs.openFile_file hopen
    rw [hplaced.collapse_buildCacheTree htree] at hname
    exact ⟨_, by rw [Int.toNat_natCast]; exact hfile, hname⟩

/-- A cache file stays one as long as its entry, its descriptor and its name do. -/
theorem World.Cached.transfer {addr : ℕ} {pe pe' : Pentry} {file : OpenFile} {content content' : Bytes}
    (h : w.Cached env addr path pe file content) (hheap : w'.heap addr = some pe') (hfd : pe'.fd = pe.fd)
    (hfiles : w'.fs.files pe.fd.toNat = w.fs.files pe.fd.toNat)
    (hnames : w'.fs.names (collapse (cacheName env.conf path)) = w.fs.names (collapse (cacheName env.conf path)))
    (hcontent : (w'.fs.inodes file.ino).content = content') : w'.Cached env addr path pe' file content' where
  holds := ⟨hheap, by rw [hfd]; exact h.holds.fd, by rw [hfd, hfiles]; exact h.holds.isOpen, h.holds.offset,
    hcontent⟩
  name := hnames.trans h.name

/-- A successful open that counts its handle leaves that handle ready. -/
theorem dfsOpen_ready {replies : OpenReplies} {opened : Opened} {addr : ℕ} (hplaced : Placed env.conf path)
    (hexclude : reMatcher env.conf.regex path = false) (hsound : w.Sound env) (hlinked : w.Linked env path)
    (hpost : replies.semPost = true) (hopen : dfsOpen env w path flags replies = .done opened)
    (hret : opened.ret = 0) (hfh : opened.fh = some addr) :
    ∃ pe file content, opened.world.Ready env path addr pe file content := by
  have htable := dfsOpen_table hopen hfh
  obtain ⟨-, pe, file, content, hholds, -⟩ := dfsOpen_base hsound hopen hret hfh
  obtain ⟨pe₁, -, hheap₁, hcount, -⟩ := dfsOpen_success hopen hret hfh
  obtain rfl := Option.some.inj (hholds.heap.symm.trans hheap₁)
  have hincluded : pe.exclude = false := by
    by_contra hexcluded
    have hmatch := (dfsOpen_sound hsound hopen).exclude path addr pe htable hheap₁ (by simpa using hexcluded)
    rw [hexclude] at hmatch
    cases hmatch
  refine ⟨pe, file, content, htable, ⟨hholds, ?_⟩, by rw [hcount, hpost]; exact Nat.succ_pos _, hincluded⟩
  cases dfsOpen_outcome hopen with
  | noEntry => simp at hret
  | lockFailed => simp at hret
  | failed => simp at hret
  | @succeeded _ w₁ before after fs ret hfound _ hmode hne =>
    obtain rfl : _ = addr := Option.some.inj hfh
    obtain ⟨hheld, -⟩ := before.held_fd replies.semPost (getModeFromFlags flags)
    have hrewound := (hsound.grown (findOrPopulate_grown hfound.lookup)).rewound _ _ hfound.heap
    have husable : (before.held replies.semPost (getModeFromFlags flags)).Usable := by
      rw [Pentry.Usable, hheld]
      exact hrewound.usable
    obtain ⟨file', hfile', hname'⟩ := (openByMode_outcome husable hmode).linked hplaced hne (by
      rw [hheld]
      intro hpos
      rcases findOrPopulate_cases hfound.lookup with ⟨htable', rfl⟩ | ⟨-, rfl, rfl⟩
      · obtain ⟨file, _, hcached⟩ := hlinked _ before htable' hfound.heap hpos
        exact ⟨file, hcached.holds.isOpen, hcached.name⟩
      · have hnew := hfound.heap
        simp only [World.insert, Function.update_self, Option.some.injEq] at hnew
        rw [← hnew] at hpos
        simp [pentryNew] at hpos)
    obtain rfl : pe = { after with ondisk := .localFile } :=
      Option.some.inj (hholds.heap.symm.trans (World.put_heap_self ..))
    obtain rfl : file' = file := Option.some.inj (hfile'.symm.trans hholds.isOpen)
    exact hname'

/-- Changing the mode of a file leaves names and contents alone. -/
theorem LocalFs.fchmod_content (fs : LocalFs) (fd : ℕ) (mode : BitVec 32) (reply : Bool) :
    (fs.fchmod fd mode reply).names = fs.names ∧
      ∀ ino, ((fs.fchmod fd mode reply).inodes ino).content = (fs.inodes ino).content := by
  unfold LocalFs.fchmod
  split
  · rename_i file _
    refine ⟨rfl, fun ino => ?_⟩
    simp only [Function.update_apply]
    split
    · rename_i heq
      rw [heq]
    · rfl
  · exact ⟨rfl, fun _ => rfl⟩

/-- A successful open or create leaves its handle ready. -/
theorem Opens.ready {opened : Opened} {addr : ℕ} (h : Opens env w path flags opened)
    (hplaced : Placed env.conf path) (hexclude : reMatcher env.conf.regex path = false)
    (hsound : w.Sound env) (hlinked : w.Linked env path) (hret : opened.ret = 0) (hfh : opened.fh = some addr) :
    opened.world.Sound env ∧ ∃ pe file content, opened.world.Ready env path addr pe file content := by
  cases h with
  | opened hpost hopen =>
    exact ⟨dfsOpen_sound hsound hopen, dfsOpen_ready hplaced hexclude hsound hlinked hpost hopen hret hfh⟩
  | @created mode replies inner _ hpost hinner hinnerRet hcreate =>
    refine ⟨dfsCreate_sound hsound hcreate, ?_⟩
    cases dfsCreate_outcome hcreate with
    | refused => cases hfh
    | noEntry => cases hfh
    | @entry opened' _ addr' pe _ hopen hfh' hheap hentry =>
      obtain rfl := Exec.done.inj (hinner.symm.trans hopen)
      obtain ⟨hfh'', fs, remote, trace, metadata, hfs, -, hworld⟩ := createEntry_frame hentry
      obtain rfl : addr' = addr := Option.some.inj (hfh''.symm.trans hfh)
      obtain ⟨pe', file, content, hready⟩ :=
        dfsOpen_ready hplaced hexclude hsound hlinked hpost hopen hinnerRet hfh'
      obtain rfl := Option.some.inj (hheap.symm.trans hready.cached.holds.heap)
      have hsame : fs.files = inner.world.fs.files ∧ fs.names = inner.world.fs.names ∧
          ∀ ino, (fs.inodes ino).content = (inner.world.fs.inodes ino).content := by
        rcases hfs with rfl | rfl
        · exact ⟨rfl, rfl, fun _ => rfl⟩
        · exact ⟨LocalFs.fchmod_keeps .., LocalFs.fchmod_content ..⟩
      refine ⟨{ pe with exclude := reMatcher env.conf.regex path, metadata := metadata }, file, content, ?_, ?_,
        hready.counted, hexclude⟩
      · rw [hworld]
        exact hready.table
      · rw [hworld]
        refine hready.cached.transfer (World.put_heap_self ..) rfl ?_ ?_ ?_
        · exact congrFun hsame.1 _
        · exact congrFun hsame.2.1 _
        · exact (hsame.2.2 _).trans hready.cached.holds.content

/-- A write changes the content of one file. -/
theorem dfsWrite_names {addr : ℕ} {data : Bytes} {offset : ℕ} {replies : WriteReplies} {ret : ℤ}
    (h : dfsWrite w addr data offset replies = .done (ret, w')) : w'.fs.names = w.fs.names := by
  unfold dfsWrite at h
  split at h
  · cases h
  · split at h
    · simp only [Exec.done.injEq, Prod.mk.injEq] at h
      rw [← h.2]
    · split at h
      · simp only [Exec.done.injEq, Prod.mk.injEq] at h
        rw [← h.2]
      · rename_i count fs hpwrite
        simp only [Exec.done.injEq, Prod.mk.injEq] at h
        obtain ⟨-, rfl⟩ := h
        unfold LocalFs.pwrite at hpwrite
        split at hpwrite
        · split at hpwrite
          · simp only [Option.some.injEq, Prod.mk.injEq] at hpwrite
            rw [← hpwrite.2]
            rfl
          · cases hpwrite
        · cases hpwrite

/-- Writes through a ready handle leave it ready. -/
theorem Writes.ready {addr : ℕ} {pe : Pentry} {file : OpenFile} {content : Bytes}
    {writes : List (Write UInt8)} (hwrites : Writes addr w writes w')
    (h : w.Ready env path addr pe file content) :
    w'.Ready env path addr pe file (Overlay.writeAll 0 content writes) := by
  obtain ⟨fs, rfl⟩ := hwrites.frame
  have hnames : fs.names = w.fs.names := by
    clear h
    generalize hw' : ({ w with fs := fs } : World) = w' at hwrites
    have hsame : w'.fs.names = w.fs.names := by
      clear hw'
      induction hwrites with
      | nil => rfl
      | cons hwrite _ _ ih => exact ih.trans (dfsWrite_names hwrite)
    rw [← hw'] at hsame
    exact hsame
  exact ⟨h.table, ⟨hwrites.holds h.cached.holds, by rw [← h.cached.name]; exact congrFun hnames _⟩, h.counted,
    h.included⟩

/-- Writes keep the state sound. -/
theorem Writes.sound {addr : ℕ} {writes : List (Write UInt8)} (hwrites : Writes addr w writes w')
    (h : w.Sound env) : w'.Sound env := by
  induction hwrites with
  | nil => exact h
  | cons hwrite _ _ ih => exact ih (dfsWrite_sound h hwrite)

/-- An upload does not touch the cache file. -/
theorem upload_cached {addr : ℕ} {pe : Pentry} {file : OpenFile} {content : Bytes} {st : Stat}
    {replies : ReleaseReplies} {ok : Bool} (hplaced : Placed env.conf path)
    (h : w.Cached env addr path pe file content)
    (hupload : upload env w path pe.fd.toNat st replies = .done (ok, w')) :
    w'.fs.files pe.fd.toNat = w.fs.files pe.fd.toNat ∧
      w'.fs.names (collapse (cacheName env.conf path)) = w.fs.names (collapse (cacheName env.conf path)) ∧
      (w'.fs.inodes file.ino).content = content := by
  have hframe := upload_files hupload h.holds.isOpen h.holds.offset
  refine ⟨(hframe.files _ _ h.holds.isOpen).trans h.holds.isOpen.symm,
    hframe.names _ hplaced.scratch_ne.symm, ?_⟩
  rw [hframe.inodes file.ino (w.fs.names_lt _ _ h.name), h.holds.content]
  rintro name rfl hname
  exact hplaced.scratch_ne (w.fs.names_inj _ _ _ hname h.name)

/-- A release leaves the descriptor of its entry at the start of the cache file. -/
theorem dfsRelease_linked {addr : ℕ} {pe : Pentry} {file : OpenFile} {content : Bytes}
    {replies : ReleaseReplies} {released : Released} (hplaced : Placed env.conf path)
    (h : w.Ready env path addr pe file content)
    (hrelease : dfsRelease env w addr path flags replies = .done released) : released.world.Linked env path := by
  have hlinked : ∀ {w₁ : World} {pe' : Pentry}, w₁.table = w.table → pe'.fd = pe.fd →
      w₁.fs.files pe.fd.toNat = w.fs.files pe.fd.toNat →
      w₁.fs.names (collapse (cacheName env.conf path)) = w.fs.names (collapse (cacheName env.conf path)) →
      (w₁.put addr pe').Linked env path := by
    intro w₁ pe' htable hfd hfiles hnames addr₁ pe₁ htable₁ hheap₁ _
    rw [World.put_table, htable] at htable₁
    obtain rfl : addr = addr₁ := Option.some.inj (h.table.symm.trans htable₁)
    rw [World.put_heap_self] at hheap₁
    obtain rfl := Option.some.inj hheap₁
    exact ⟨file, _, h.cached.transfer (World.put_heap_self ..) hfd hfiles hnames rfl⟩
  cases dfsRelease_outcome hrelease with
  | unusable hheap _ hfs =>
    obtain rfl := Option.some.inj (hheap.symm.trans h.cached.holds.heap)
    rcases hfs with rfl | ⟨-, rfl⟩
    · exact hlinked rfl rfl rfl rfl
    · rw [LocalFs.seek_zero h.cached.holds.isOpen h.cached.holds.offset]
      exact hlinked rfl rfl rfl rfl
  | readOnly hheap _ hwait _ =>
    obtain rfl := Option.some.inj (hheap.symm.trans h.cached.holds.heap)
    obtain ⟨rfl, -⟩ := Pentry.decRefcount_eq hwait
    exact hlinked rfl rfl rfl rfl
  | excluded hheap _ hwait _ _ =>
    obtain rfl := Option.some.inj (hheap.symm.trans h.cached.holds.heap)
    obtain ⟨rfl, -⟩ := Pentry.decRefcount_eq hwait
    exact hlinked rfl rfl rfl rfl
  | uploaded hheap _ hwait _ _ hupload =>
    obtain rfl := Option.some.inj (hheap.symm.trans h.cached.holds.heap)
    obtain ⟨rfl, -⟩ := Pentry.decRefcount_eq hwait
    obtain ⟨hfiles, hnames, -⟩ := upload_cached hplaced h.cached hupload
    obtain ⟨fs, remote, trace, rfl⟩ := upload_frame hupload
    exact hlinked rfl rfl hfiles hnames

/-- A new entry has no descriptor. -/
theorem World.Linked.grown {other : CStr} (h : w.Linked env path) (hgrown : w.Grown other w') :
    w'.Linked env path := by
  cases hgrown with
  | same => exact h
  | @more fresh _ hfresh =>
    intro addr pe htable hheap hfd
    have hne : addr ≠ w.nextAddr := by
      rintro rfl
      simp only [World.insert, Function.update_self, Option.some.injEq] at hheap
      rw [← hheap, hfresh.fd] at hfd
      omega
    have hbefore : w.heap addr = some pe := by
      simpa only [World.insert, Function.update_of_ne hne] using hheap
    have hsame : w.table path = some addr := by
      by_cases hpath : path = other
      · simp only [World.insert, hpath, Function.update_self, Option.some.injEq] at htable
        exact absurd htable.symm hne
      · simpa only [World.insert, Function.update_of_ne hpath] using htable
    obtain ⟨file, content, hcached⟩ := h addr pe hsame hbefore hfd
    exact ⟨file, content, hcached.transfer hheap rfl rfl rfl hcached.holds.content⟩

/-- A quiet change leaves the descriptor where it is. -/
theorem World.Linked.quiet (h : w.Linked env path) (hquiet : w.Quiet w') : w'.Linked env path := by
  intro addr pe htable hheap hfd
  rw [hquiet.table] at htable
  obtain ⟨before, hbefore, hcore⟩ := hquiet.heap_after hheap
  have hsame : pe.fd = before.fd := congrArg Core.fd hcore
  obtain ⟨file, content, hcached⟩ := h addr before htable hbefore (by omega)
  exact ⟨file, content, hcached.transfer hheap hsame (by rw [hquiet.fs]) (by rw [hquiet.fs])
    (by rw [hquiet.fs]; exact hcached.holds.content)⟩

/-- After any number of cycles the descriptor of the entry is at the start of the cache file. -/
theorem Cycles.linked (hcycles : Cycles env path w w') (hplaced : Placed env.conf path)
    (hexclude : reMatcher env.conf.regex path = false) (hsound : w.Sound env) (hlinked : w.Linked env path) :
    w'.Sound env ∧ w'.Linked env path := by
  induction hcycles with
  | zero => exact ⟨hsound, hlinked⟩
  | looked _ hlook ih =>
    obtain ⟨hsound₁, hlinked₁⟩ := ih
    obtain ⟨-, w₂, hgrown, hquiet⟩ := dfsGetattr_grown hlook
    exact ⟨(hsound₁.grown hgrown).quiet hquiet, (hlinked₁.grown hgrown).quiet hquiet⟩
  | next _ hopens hret hfh hwrites hrelease ih =>
    obtain ⟨hsound₁, hlinked₁⟩ := ih
    obtain ⟨hsound₂, pe, file, content, hready⟩ := hopens.ready hplaced hexclude hsound₁ hlinked₁ hret hfh
    have hready' := hwrites.ready hready
    exact ⟨dfsRelease_sound (hwrites.sound hsound₂) hrelease, dfsRelease_linked hplaced hready' hrelease⟩

/-- A handle opened after any number of cycles, and then written through, is ready, and its content is what the
path has cached. -/
theorem Cycles.ready {start : World} {opened : Opened} {addr : ℕ} {writes : List (Write UInt8)}
    {content : Bytes} (hplaced : Placed env.conf path) (hexclude : reMatcher env.conf.regex path = false)
    (hsound : start.Sound env) (hlinked : start.Linked env path) (hcycles : Cycles env path start w)
    (hopens : Opens env w path flags opened) (hret : opened.ret = 0) (hfh : opened.fh = some addr)
    (hwrites : Writes addr opened.world writes w') (hcontent : w'.cached path = some content) :
    ∃ pe file, w'.Ready env path addr pe file content := by
  obtain ⟨hsound₁, hlinked₁⟩ := hcycles.linked hplaced hexclude hsound hlinked
  obtain ⟨-, pe, file, content', hready⟩ := hopens.ready hplaced hexclude hsound₁ hlinked₁ hret hfh
  have hready' := hwrites.ready hready
  have hholds := hready'.cached.holds
  have hpos := hholds.fd
  have hsame : w'.cached path = some (Overlay.writeAll 0 content' writes) := by
    simp [World.cached, World.entry, hready'.table, hholds.heap, LocalFs.fdContent, hholds.isOpen,
      hholds.content, show ¬ pe.fd < 0 by omega]
  obtain rfl := Option.some.inj (hcontent.symm.trans hsame)
  exact ⟨pe, file, hready'⟩

end Cycles

section Fetch

variable {up down : Env} {path : CStr} {content : Bytes}

/-- A download through an entry without a copy, all of its calls succeeding, ends with a descriptor at the
start of a cache file with this content. -/
def Yields (env : Env) (r : Remote) (path : CStr) (fs : LocalFs) (pe : Pentry) (flags : OpenFlags)
    (replies : CopyReplies) (content : Bytes) : Prop :=
  ∃ (fd : ℕ) (fs' : LocalFs) (pe' : Pentry), dfsGetLocalCopy env fs r pe path flags replies =
    .done (fd, fs', pe') ∧ fs'.OpenAt (copyName env.conf path) fd flags.write content

/-- The circumstances of such a download. -/
structure FreshDownload (fs : LocalFs) (pe : Pentry) (flags : OpenFlags) (replies : CopyReplies) : Prop where
  fd : pe.fd = -1
  ondisk : pe.ondisk ≠ .localFile
  trunc : flags.trunc = false
  creat : flags.creat = false
  smooth : replies.Smooth fs

/-- The download yields what there is to fetch. -/
theorem FreshDownload.yields_iff {r : Remote} {fs : LocalFs} {pe : Pentry} {flags : OpenFlags}
    {replies : CopyReplies} {obj : Obj} (h : FreshDownload fs pe flags replies)
    (hplaced : Placed down.conf path) (hlookup : r.lookup path = some obj) :
    Yields down r path fs pe flags replies content ↔ obj.fetched down replies.unpack = some content := by
  refine dfsGetLocalCopy_yields_iff h.smooth ?_ hlookup h.fd h.ondisk h.trunc h.creat
  rw [hplaced.collapse_copyScratch, hplaced.collapse_copyName]
  exact hplaced.scratch_ne

/-- What is fetched of a stored object: its bytes, or their decompression when it is labelled `zlib`. -/
theorem fetched_of_label {io : ZipIo} {obj : Obj} {payload : Bytes} {dict : Dict} {replies : UnpackReplies}
    (hlabel : obj.label = dict "compression".toList) (hzlib : down.zlib = up.zlib)
    (hpayload : Payload up io content dict payload) (hrename : replies.rename = true)
    (hclose : replies.fclose = none) :
    obj.fetched down replies = some content ↔
      (up.compresses = false → obj.content = content) ∧
      (up.compresses = true → unzip up.zlib obj.content replies.io = .done (.ok, content)) := by
  unfold Obj.fetched
  cases huses : up.compresses with
  | false =>
    rw [hlabel, (hpayload.plain huses).1]
    simp
  | true =>
    rw [hlabel, (hpayload.zlib huses).1]
    have hnone : strncmpEq "none".toList "zlib".toList = false := by decide
    have hmatch : strncmpEq "zlib".toList "zlib".toList = true := by decide
    simp only [hnone, hmatch, Bool.false_eq_true, Bool.true_eq_false, if_false, hrename, hclose, if_true,
      flushed, hzlib, false_implies, true_implies, true_and]
    cases unzip up.zlib obj.content replies.io with
    | blocked => simp
    | undefined => simp
    | done result =>
      obtain ⟨zret, out⟩ := result
      cases zret <;> simp

end Fetch

/-- A file uploaded by a release after any number of cycles on its path, and then fetched through an entry
without a copy, has the bytes it had, and its `size` is their number. -/
theorem upload_download (up down : Env) (path : CStr) (s : Session) (w w₁ : World) (flags : BitVec 32)
    (opened : Opened) (addr : ℕ) (writes : List (Write UInt8)) (content : Bytes) (replies : ReleaseReplies)
    (haes : up.conf.usesAes = false) (hzlib : down.zlib = up.zlib) (hplaced : Placed up.conf path)
    (hplaced' : Placed down.conf path) (hexclude : reMatcher up.conf.regex path = false)
    (hreached : s.Reached up GuardedRuns.unguarded) (hlinked : s.world.Linked up path)
    (hcycles : Cycles up path s.world w) (hopens : Opens up w path flags opened) (hret : opened.ret = 0)
    (hfh : opened.fh = some addr) (hwrites : Writes addr opened.world writes w₁)
    (hcontent : w₁.cached path = some content) (hlength : content.length ≤ LocalFs.offMax)
    (hserves : Zlib.Serves up content) (hflags : isRdonly flags = false) (hsmooth : replies.Smooth w₁.fs) :
    ∃ w₂ obj dict, dfsRelease up w₁ addr path flags replies = .done ⟨0, w₂⟩ ∧
      w₂.remote.lookup path = some obj ∧ obj.metadata = some dict ∧
      dict "size".toList = some (decimal content.length) ∧
      ∀ fs pe flags' copyReplies, FreshDownload fs pe flags' copyReplies →
        Yields down w₂.remote path fs pe flags' copyReplies content := by
  obtain ⟨pe, file, hready⟩ := Cycles.ready hplaced hexclude hreached.sound hlinked hcycles hopens hret hfh hwrites
    hcontent
  obtain ⟨w₂, hrelease, dict, payload, hpayload, hlookup⟩ := dfsRelease_done hready.cached hplaced hsmooth hserves
    hlength hready.counted hready.included hflags
  have hobj : storedObject up dict payload replies = ⟨.reg, payload, some dict, replies.etag⟩ := by
    simp [storedObject, haes]
  rw [hobj] at hlookup
  refine ⟨w₂, _, dict, hrelease, hlookup, rfl, hpayload.size, ?_⟩
  intro fs pe' flags' copyReplies hdownload
  rw [hdownload.yields_iff hplaced' hlookup]
  have hunpack := hdownload.smooth.fds
  obtain ⟨download, _, _, _, _, _, hunpack, -⟩ := hunpack
  rw [fetched_of_label rfl hzlib hpayload hunpack.rename hunpack.fclose]
  refine ⟨fun huses => (hpayload.plain huses).2, fun huses => ?_⟩
  obtain ⟨-, -, hunzip⟩ := hpayload.zlib huses
  exact hunzip _ hunpack.readFails hunpack.writeFails

/-- The descriptors of a granted release are not in use. -/
theorem ReleaseReplies.granted_smooth {fs : LocalFs} {fd : ℕ} (hfd : fs.files fd = none)
    (hfd' : fs.files (fd + 1) = none) : (ReleaseReplies.granted fd).Smooth fs where
  fstat := rfl
  semWait := rfl
  newDict := rfl
  readFails _ := rfl
  writeFails _ := rfl
  fflush := rfl
  fileno := rfl
  fstatScratch := rfl
  lseekScratch := rfl
  update := rfl
  openwrite := rfl
  read _ := rfl
  write _ := rfl
  close := rfl
  fds := ⟨fd, fd + 1, ⟨rfl, hfd⟩, ⟨rfl, hfd'⟩, by omega, by omega⟩

/-- No entry has a descriptor at the start. -/
theorem World.start_linked (env : Env) (fs : LocalFs) (r : Remote) (path : CStr) :
    (World.start fs r).Linked env path := by
  intro addr pe htable
  cases htable

/-- A file that was looked up, created and written is compressed, uploaded and fetched. -/
theorem upload_download_letter :
    ∃ (looked : Lookup) (opened : Opened) (w₁ w₂ : World) (obj : Obj) (dict : Dict),
      dfsGetattr Env.zipping (.start .empty ∅) "/f".toList .granted = .done looked ∧
      dfsCreate Env.zipping looked.world "/f".toList (sIfreg ||| 0o644) (oWronly ||| oCreat) (.granted 3) =
        .done opened ∧
      Writes 0 opened.world [⟨0, [65]⟩] w₁ ∧ w₁.cached "/f".toList = some [65] ∧
      dfsRelease Env.zipping w₁ 0 "/f".toList (oWronly ||| oCreat) (.granted 4) = .done ⟨0, w₂⟩ ∧
      w₂.remote.lookup "/f".toList = some obj ∧ obj.metadata = some dict ∧
      dict "size".toList = some (decimal 1) ∧
      ∀ fs pe flags' copyReplies, FreshDownload fs pe flags' copyReplies →
        Yields { Env.plain with zlib := .onFile [65] letterStream } w₂.remote "/f".toList fs pe flags' copyReplies
          [65] := by
  have hwrites : ∀ w w', dfsWrite w 0 [65] 0 ⟨some 1, 1, Nat.one_pos⟩ = .done (1, w') →
      Writes 0 w [⟨0, [65]⟩] w' := fun w w' h => .cons h (by decide) .nil
  obtain ⟨w₂, obj, dict, hresult⟩ := upload_download Env.zipping
    { Env.plain with zlib := .onFile [65] letterStream } "/f".toList (.start .empty ∅) _ _ (oWronly ||| oCreat) _ 0
    [⟨0, [65]⟩] [65] (.granted 4) rfl rfl ⟨rfl, by decide⟩ ⟨rfl, by decide⟩ rfl
    (.start (Session.start_initial ..)) (World.start_linked _ _ _ _) (@Cycles.looked _ _ _ _ .granted _ .zero rfl)
    (@Opens.created _ _ _ _ (sIfreg ||| 0o644) (.granted 3) _ _ rfl rfl rfl rfl) rfl rfl (hwrites _ _ rfl) rfl
    (by decide) (fun _ => Zlib.onFile_undoes _ (by decide)) rfl (ReleaseReplies.granted_smooth rfl rfl)
  exact ⟨_, _, _, w₂, obj, dict, rfl, rfl, hwrites _ _ rfl, rfl, hresult⟩

/-- What was sent encrypted, read as if it were not, gives the content. -/
def ReadsUndeciphered (env : Env) (content : Bytes) (replies : ReleaseReplies) (io : ZipIo) : Prop :=
  (env.compresses = false → env.cipher.encrypt replies.salt content = content) ∧
    (env.compresses = true → ∀ stream,
      zip env.zlib env.conf.zlibLevel content replies.zip = .done (.ok, stream) →
      unzip env.zlib (env.cipher.encrypt replies.salt stream) io = .done (.ok, content))

/-- With AES selected on both sides, the flag is the one the metadata call for exactly when they call for
none, and a file that was uploaded is fetched with the bytes it had exactly when its ciphertext, read as
if it were no ciphertext, gives these. -/
theorem encrypted_upload_download_iff (up down : Env) (path : CStr) (s : Session) (w w₁ : World)
    (flags : BitVec 32) (opened : Opened) (addr : ℕ) (writes : List (Write UInt8)) (content : Bytes)
    (replies : ReleaseReplies) (haes : up.conf.usesAes = true) (hzlib : down.zlib = up.zlib)
    (hplaced : Placed up.conf path) (hplaced' : Placed down.conf path)
    (hexclude : reMatcher up.conf.regex path = false) (hreached : s.Reached up GuardedRuns.unguarded)
    (hlinked : s.world.Linked up path) (hcycles : Cycles up path s.world w)
    (hopens : Opens up w path flags opened) (hret : opened.ret = 0) (hfh : opened.fh = some addr)
    (hwrites : Writes addr opened.world writes w₁) (hcontent : w₁.cached path = some content)
    (hlength : content.length ≤ LocalFs.offMax) (hserves : Zlib.Serves up content)
    (hflags : isRdonly flags = false) (hsmooth : replies.Smooth w₁.fs) :
    (∀ dict, checkEncryptionFlag down.conf dict = dict.encrypted ↔ dict.encrypted = false) ∧
    ∃ w₂, dfsRelease up w₁ addr path flags replies = .done ⟨0, w₂⟩ ∧
      ∀ fs pe flags' copyReplies, FreshDownload fs pe flags' copyReplies →
        (Yields down w₂.remote path fs pe flags' copyReplies content ↔
          ReadsUndeciphered up content replies copyReplies.unpack.io) := by
  refine ⟨fun dict => by rw [checkEncryptionFlag_eq_false, eq_comm], ?_⟩
  obtain ⟨pe, file, hready⟩ := Cycles.ready hplaced hexclude hreached.sound hlinked hcycles hopens hret hfh hwrites
    hcontent
  obtain ⟨w₂, hrelease, dict, payload, hpayload, hlookup⟩ := dfsRelease_done hready.cached hplaced hsmooth hserves
    hlength hready.counted hready.included hflags
  refine ⟨w₂, hrelease, ?_⟩
  intro fs pe' flags' copyReplies hdownload
  have hlabel : (storedObject up dict payload replies).label = dict "compression".toList := by
    simp only [storedObject, haes, if_true, Obj.label, Option.getD_some, Dict.updateValue]
    rw [Function.update_of_ne (by decide), Function.update_of_ne (by decide)]
  have hobj : (storedObject up dict payload replies).content = up.cipher.encrypt replies.salt payload := by
    simp [storedObject, haes]
  obtain ⟨download, _, _, _, _, _, hunpack, -⟩ := hdownload.smooth.fds
  rw [hdownload.yields_iff hplaced' hlookup,
    fetched_of_label hlabel hzlib hpayload hunpack.rename hunpack.fclose, hobj]
  constructor
  · rintro ⟨hplain, hzip⟩
    refine ⟨fun huses => ?_, fun huses stream hstream => ?_⟩
    · rw [(hpayload.plain huses).2] at hplain
      exact hplain huses
    · have hsame := Exec.done.inj (hstream.symm.trans (hpayload.zlib huses).2.1)
      obtain rfl : stream = payload := congrArg Prod.snd hsame
      exact hzip huses
  · rintro ⟨hplain, hzip⟩
    refine ⟨fun huses => ?_, fun huses => hzip huses _ (hpayload.zlib huses).2.1⟩
    rw [(hpayload.plain huses).2]
    exact hplain huses

/-- Settings that encrypt, with a cipher that puts a salt in front of what it is given. -/
def Env.encrypting : Env where
  __ := Env.plain
  conf := { Env.plain.conf with encryptionMethod := "aes".toList }
  cipher := ⟨fun salt plain => UInt8.ofNat salt :: plain, List.tail, fun _ _ => rfl⟩

/-- Every call of a granted download succeeds when the descriptors are not in use. -/
theorem CopyReplies.granted_smooth {fs : LocalFs} {fd : ℕ} (hfd : fs.files fd = none)
    (hfd' : fs.files (fd + 1) = none) (hfd'' : fs.files (fd + 2) = none) :
    (CopyReplies.granted fd).Smooth fs where
  namei _ := rfl
  newDict := rfl
  extract := rfl
  setMetadata := rfl
  openread := rfl
  writes := List.not_mem_nil
  close := rfl
  fds := ⟨fd, fd, fd + 1, fd + 2, ⟨rfl, hfd⟩, ⟨rfl, hfd⟩,
    ⟨fun _ => rfl, fun _ => rfl, rfl, rfl, rfl, fd + 1, fd + 2, fd, ⟨rfl, hfd'⟩, ⟨rfl, hfd''⟩, rfl, .inl rfl,
      by omega, by omega, by omega⟩, rfl, by omega, rfl, by omega⟩

/-- The flag is not passed for an object whose metadata say that it is encrypted, so a file that was
created with encryption and fetched comes with its salt. -/
theorem encrypted_upload_download_salted :
    (∃ dict : Dict, dict.encrypted = true ∧ checkEncryptionFlag Env.encrypting.conf dict = false) ∧
    ∃ (w₁ w₂ : World) (addr : ℕ) (opened : Opened), dfsCreate Env.encrypting (.start .empty ∅) "/f".toList
        (sIfreg ||| 0o644) (oWronly ||| oCreat) (.granted 3) = .done opened ∧ opened.ret = 0 ∧
      opened.fh = some addr ∧ Writes addr opened.world [⟨0, [65]⟩] w₁ ∧ w₁.cached "/f".toList = some [65] ∧
      dfsRelease Env.encrypting w₁ addr "/f".toList (oWronly ||| oCreat) (.granted 4) = .done ⟨0, w₂⟩ ∧
      FreshDownload .empty pentryNew readOnly (.granted 3) ∧
      ¬ Yields Env.encrypting w₂.remote "/f".toList .empty pentryNew readOnly (.granted 3) [65] := by
  constructor
  · exact ⟨(Dict.new.updateValue "cipher".toList "yes".toList).updateValue "cipher-type".toList
      "aes-256-cfb".toList, by decide, by decide⟩
  · have hdownload : FreshDownload .empty pentryNew readOnly (.granted 3) :=
      ⟨rfl, by decide, rfl, rfl, CopyReplies.granted_smooth rfl rfl rfl⟩
    refine ⟨_, _, _, _, rfl, rfl, rfl, @Writes.cons _ _ _ _ [65] _ ⟨some 1, 1, Nat.one_pos⟩ 1 _ rfl (by decide) .nil,
      rfl, rfl, hdownload, ?_⟩
    rw [hdownload.yields_iff ⟨rfl, by decide⟩ rfl]
    decide

/-- The file with its salt is one to which the equivalence applies. -/
theorem encrypted_upload_download_letter :
    ∃ w₁ w₂ : World, w₁.cached "/f".toList = some [65] ∧
      dfsRelease Env.encrypting w₁ 0 "/f".toList (oWronly ||| oCreat) (.granted 4) = .done ⟨0, w₂⟩ ∧
      ∀ fs pe flags' copyReplies, FreshDownload fs pe flags' copyReplies →
        (Yields Env.encrypting w₂.remote "/f".toList fs pe flags' copyReplies [65] ↔
          ReadsUndeciphered Env.encrypting [65] (.granted 4) copyReplies.unpack.io) := by
  have hwrites : ∀ w w', dfsWrite w 0 [65] 0 ⟨some 1, 1, Nat.one_pos⟩ = .done (1, w') →
      Writes 0 w [⟨0, [65]⟩] w' := fun w w' h => .cons h (by decide) .nil
  obtain ⟨-, w₂, hresult⟩ := encrypted_upload_download_iff Env.encrypting Env.encrypting "/f".toList
    (.start .empty ∅) _ _ (oWronly ||| oCreat) _ 0 [⟨0, [65]⟩] [65] (.granted 4) rfl rfl ⟨rfl, by decide⟩
    ⟨rfl, by decide⟩ rfl (.start (Session.start_initial ..)) (World.start_linked _ _ _ _)
    (@Cycles.looked _ _ _ _ .granted _ .zero rfl)
    (@Opens.created _ _ _ _ (sIfreg ||| 0o644) (.granted 3) _ _ rfl rfl rfl rfl) rfl rfl (hwrites _ _ rfl) rfl
    (by decide) (fun hcompresses => by cases hcompresses) rfl (ReleaseReplies.granted_smooth rfl rfl)
  exact ⟨_, w₂, rfl, hresult⟩

end Dropletfs
