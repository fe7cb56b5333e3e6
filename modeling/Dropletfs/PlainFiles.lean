import Dropletfs.Shown

/-!
# The mounted file system as plain files

What the requests of users do to the shown files is what they would do to plain files: opening
with truncation empties a file, a write replaces a part of it, and so on, at once and whatever
the cache does. The requests that keep it so are careful, and the store answers honestly where
a file is made, removed or copied.
-/

namespace Dropletfs

open FileMap (Change Files applyAll)

/-- A file is emptied, if it is. -/
def emptied (path : CStr) (ok : Bool) : List (Change CStr UInt8) := if ok then [.empty path] else []

/-- What a call changes, once it returns. -/
def changesOf {α : Type} (call : Exec α) (changes : α → List (Change CStr UInt8)) : List (Change CStr UInt8) :=
  match call with
  | .done result => changes result
  | _ => []

/-- What an open for this path would download is a file, and arrives whole. -/
def World.Fetches (w : World) (path : CStr) (flags : BitVec 32) (replies : OpenReplies) : Prop :=
  ∀ obj, w.cached path = none → w.remote.lookup path = some obj → obj.ftype ≠ .dir ∧
    (getModeFromFlags flags ≠ .creat → obj.compressed = true →
      replies.copy.unpack.rename = true ∧ replies.copy.unpack.fclose = none)

/-- Emptying a file is about no other. -/
theorem emptied_target {path : CStr} {ok : Bool} {change : Change CStr UInt8} (h : change ∈ emptied path ok) :
    change = .empty path := by
  cases ok with
  | true => exact List.mem_singleton.mp h
  | false => cases h

section Open

variable {env : Env} {written : ℕ → Prop} {w w' : World} {path : CStr} {flags : BitVec 32}

/-- The cache file of a path whose entry is stored. -/
theorem World.put_cached_self {addr : ℕ} (pe : Pentry) (htable : w.table path = some addr) :
    (w.put addr pe).cached path = if pe.fd < 0 then none else w.fs.fdContent pe.fd.toNat := by
  rw [World.cached, World.put_entry w pe htable, Option.bind_some, World.put_fs]

/-- A mode's function, run on the entry of its path. -/
theorem ModeOutcome.makes {fs : LocalFs} {pe pe' pe'' : Pentry} {addr : ℕ} {replies : OpenReplies} {ret : ℤ}
    (houtcome : ModeOutcome env w.fs w.remote pe path (getModeFromFlags flags) replies ret fs pe')
    (hfiles : w.FilesOnly) (hfetches : w.Fetches path flags replies) (htable : w.table path = some addr)
    (hcached : w.cached path = if pe.fd < 0 then none else w.fs.fdContent pe.fd.toNat) (hfd : pe''.fd = pe'.fd)
    (hothers : ∀ other, other ≠ path → (({ w with fs := fs } : World).put addr pe'').cached other = w.cached other) :
    w.Makes env (({ w with fs := fs } : World).put addr pe'')
      (emptied path (ret = 0 ∧ getModeFromFlags flags = .creat)) := by
  have hafter : (({ w with fs := fs } : World).put addr pe'').cached path =
      if pe''.fd < 0 then none else fs.fdContent pe''.fd.toNat := World.put_cached_self pe'' htable
  have hsame : (({ w with fs := fs } : World).put addr pe'').cached path = w.cached path →
      w.Makes env (({ w with fs := fs } : World).put addr pe'') [] := by
    refine fun hown => .of_passesBy hfiles fun other => ⟨?_, rfl⟩
    by_cases hother : other = path
    · rw [hother, hown]
    · exact hothers other hother
  have hnone : pe.fd = -1 → w.cached path = none := by
    intro hneg
    rw [hcached, if_pos (by omega)]
  have hftype : (w.remote.lookup path).map Obj.ftype ≠ some .dir := by
    cases hcase : w.cached path with
    | some content => exact hfiles path (by simp [hcase])
    | none =>
      intro hdir
      obtain ⟨obj, hobj, hdir⟩ := Option.map_eq_some_iff.mp hdir
      exact (hfetches obj hcase hobj).1 hdir
  cases houtcome with
  | failed hfs =>
    refine hsame ?_
    rw [hafter, hfd, hcached]
    rcases hfs with rfl | ⟨hneg, -⟩
    · rfl
    · simp only
      rw [if_pos (by omega), if_pos (by omega)]
  | kept hmode =>
    rw [decide_eq_false fun h => hmode h.2]
    refine hsame ?_
    rw [hafter, hfd, hcached]
  | @fetched _ obj bytes fd _ _ hmode hneg _ _ hlookup hfetched hopen =>
    have hpos : ¬ pe''.fd < 0 := by
      rw [hfd]
      exact not_lt.mpr (Int.natCast_nonneg fd)
    rw [decide_eq_false fun h => hmode h.2]
    have hbytes : (({ w with fs := fs } : World).put addr pe'').cached path = some bytes := by
      obtain ⟨ino, -, hfile, hcontent⟩ := hopen
      rw [hafter, if_neg hpos, hfd, Int.toNat_natCast, LocalFs.fdContent, hfile, Option.map_some, hcontent]
    refine .of_others path hfiles (fun other hne => ⟨hothers other hne, rfl⟩) (by simp [emptied]) (fun _ => ?_)
      fun _ => hftype
    -- what was downloaded is what the object showed
    obtain ⟨hnotDir, hwhole⟩ := hfetches obj (hnone hneg) hlookup
    rw [emptied, if_neg (by decide), FileMap.applyAll_nil, World.shown_of_cached hbytes,
      World.shown_of_remote (hnone hneg), Remote.fileAt_of_lookup hlookup, Obj.file, if_neg hnotDir]
    cases hcompressed : obj.compressed with
    | false => exact (hfetched.symm.trans (Obj.fetched_of_plain hcompressed _ _))
    | true =>
      obtain ⟨hrename, hfclose⟩ := hwhole hmode hcompressed
      exact (Obj.fetched_granted hrename hfclose hfetched).symm
  | @created _ name fd hmode htree hopen =>
    have hpos : ¬ pe''.fd < 0 := by
      rw [hfd]
      exact not_lt.mpr (Int.natCast_nonneg fd)
    rw [decide_eq_true ⟨rfl, hmode⟩]
    have hempty : (({ w with fs := fs } : World).put addr pe'').cached path = some [] := by
      rw [hafter, if_neg hpos, hfd, Int.toNat_natCast]
      exact LocalFs.openFile_trunc rfl hopen
    refine .of_others path hfiles (fun other hne => ⟨hothers other hne, rfl⟩) (fun change hmem => ?_) (fun _ => ?_)
      fun _ => hftype
    · rw [emptied_target hmem, Change.target]
    · rw [World.shown_of_cached hempty]
      exact (Change.apply_target 0 (w.shown env) (.empty path)).symm

/-- Opening a path: the modes that create empty the file. -/
theorem dfsOpen_makes {replies : OpenReplies} {opened : Opened} (hsound : w.Sound env)
    (hsecured : w.Secured env written) (hfiles : w.FilesOnly) (hsafe : OpenSafe env w path flags replies)
    (hfetches : w.Fetches path flags replies) (h : dfsOpen env w path flags replies = .done opened) :
    w.Makes env opened.world (emptied path (opened.ret = 0 ∧ getModeFromFlags flags = .creat)) := by
  have hmode : ∀ {addr w' pe fs pe' ret pe''}, Found w path replies addr w' pe →
      openByMode env w'.fs w'.remote (pe.held replies.semPost (getModeFromFlags flags)) path
        (getModeFromFlags flags) replies = .done (ret, fs, pe') → pe''.fd = pe'.fd →
      w.Makes env (({ w' with fs := fs } : World).put addr pe'')
        (emptied path (ret = 0 ∧ getModeFromFlags flags = .creat)) ∧ (ret = 0 ∨ ret = -1) := by
    intro addr w' pe fs pe' ret pe'' hfound hcall hfd
    have hgrown := findOrPopulate_grown hfound.lookup
    have hsound' := hsound.grown hgrown
    obtain ⟨hcached, hfs, hremote⟩ := hfound.cached
    have hgrownMakes : w.Makes env w' [] := .of_passesBy hfiles fun _ => hgrown.passesBy hsound
    obtain ⟨hheldFd, -⟩ := pe.held_fd replies.semPost (getModeFromFlags flags)
    generalize pe.held replies.semPost (getModeFromFlags flags) = held at hcall hheldFd
    have husable : held.Usable := by
      rw [Pentry.Usable, hheldFd]
      exact (hsound'.rewound addr pe hfound.heap).usable
    have hcached' : w'.cached path = if held.fd < 0 then none else w'.fs.fdContent held.fd.toNat := by
      rw [(hgrown.passesBy hsound).cached, hcached, hheldFd, hfs]
    have hframe : w'.fs.Frame (OpenNames env w path flags) fs := by
      refine openByMode_frame hsafe.placed (.inl rfl) (fun hcreat hneg obj hobj hcompressed => ?_) hcall
      refine .inr ⟨hcreat, ?_, ⟨obj, hremote ▸ hobj, hcompressed⟩, rfl⟩
      rw [hcached, if_pos (by omega)]
    have hothers : ∀ other, other ≠ path →
        (({ w' with fs := fs } : World).put addr pe'').cached other = w'.cached other := by
      intro other hne
      rw [(hgrown.passesBy hsound).cached]
      refine World.cached_congr (by rw [hfound.entry_ne hsound hne]) fun addr' qe hfile => ?_
      rw [hfs] at hframe
      exact hsecured.fdContent hfile hframe.files (hframe.spares (hsafe.spared other addr' qe hne hfile))
    have houtcome := openByMode_outcome husable hcall
    have hfetches' : w'.Fetches path flags replies := by
      intro obj hnone hobj
      rw [(hgrown.passesBy hsound).cached] at hnone
      exact hfetches obj hnone (hremote ▸ hobj)
    have hmade := houtcome.makes hgrownMakes.filesOnly hfetches' hfound.table hcached' hfd hothers
    refine ⟨hgrownMakes.trans hmade fun change hmem => ?_, ?_⟩
    · rw [emptied_target hmem]
      trivial
    · cases houtcome with
      | failed => exact .inr rfl
      | kept | fetched | created => exact .inl rfl
  cases dfsOpen_outcome h with
  | noEntry =>
    exact .of_passesBy hfiles fun other => .refl w other
  | lockFailed hfound _ _ hwait =>
    have hgrown := findOrPopulate_grown hfound.lookup
    obtain ⟨hwaited, -⟩ := Pentry.decRefcount_eq hwait
    refine .of_passesBy hfiles fun other => (hgrown.passesBy hsound).trans ⟨World.put_cached hfound.heap ?_, rfl⟩
    rw [hwaited]
    cases replies.semPost <;> rfl
  | failed hfound _ hcall => exact (hmode hfound hcall rfl).1
  | @succeeded addr w' pe pe' fs ret hfound _ hcall hne =>
    obtain ⟨hmade, hret⟩ := hmode hfound hcall (rfl : ({ pe' with ondisk := .localFile } : Pentry).fd = pe'.fd)
    obtain rfl := hret.resolve_right hne
    exact hmade

/-- The entry that `dfs_create` has left keeps its cache file, and the object is the one there was, or a file that
the cache file covers. -/
theorem createEntry_makes {addr : ℕ} {pe : Pentry} {mode : BitVec 32} {exclude : Bool} {replies : CreateReplies}
    {created : Opened} (hsound : w.Sound env) (hfiles : w.FilesOnly) (htable : w.table path = some addr)
    (hheap : w.heap addr = some pe) (h : createEntry env w addr pe path mode exclude replies = .done created) :
    w.Makes env created.world [] := by
  obtain ⟨-, fs, remote, trace, metadata, hfs, hremote, hworld⟩ := createEntry_frame h
  have hcontent : ∀ fd, fs.fdContent fd = w.fs.fdContent fd := by
    intro fd
    rcases hfs with rfl | rfl
    · rfl
    · obtain ⟨-, hinodes⟩ := w.fs.fchmod_content pe.fd.toNat mode replies.fchmod
      rw [LocalFs.fdContent, LocalFs.fdContent, LocalFs.fchmod_keeps]
      simp only [hinodes]
  have hcached : ∀ other, created.world.cached other = w.cached other := by
    intro other
    rw [hworld]
    refine World.cached_congr ?_ fun _ _ _ => hcontent _
    by_cases hother : other = path
    · subst hother
      rw [World.put_entry _ _ (by exact htable), World.entry, htable, Option.bind_some, hheap]
      rfl
    · refine congrArg (Option.map Pentry.fd) (World.put_entry_ne _ fun addr' haddr' heq => hother ?_)
      exact hsound.table_inj other path addr' haddr' (heq ▸ htable)
  have hlookup : ∀ other, other ≠ path → created.world.remote.lookup other = w.remote.lookup other := by
    intro other hne
    rw [hworld]
    rcases hremote with rfl | ⟨-, rfl⟩
    · rfl
    · exact dfsMknodTimeout_lookup fun heq => absurd heq hne
  by_cases hfd : pe.fd = -1
  · -- without a descriptor nothing is made
    unfold createEntry at h
    rw [if_pos hfd] at h
    obtain rfl := Exec.done.inj h
    exact .of_passesBy hfiles fun other => ⟨hcached other, rfl⟩
  · have hfile : w.HasFile path addr pe :=
      ⟨htable, hheap, (hsound.rewound addr pe hheap).usable.resolve_left hfd⟩
    obtain ⟨content, hcontent'⟩ : ∃ content, w.cached path = some content := by
      rcases hsound.rewound addr pe hheap with hnone | ⟨fd, file, hpe, hopen, -⟩
      · exact absurd hnone hfd
      · rw [hfile.cached, hpe, Int.toNat_natCast, LocalFs.fdContent, hopen]
        exact ⟨_, rfl⟩
    refine .of_others path hfiles (fun other hne => ⟨hcached other, hlookup other hne⟩) (by simp) (fun _ => ?_)
      fun _ => ?_
    · rw [FileMap.applyAll_nil, World.shown_of_cached hcontent', World.shown_of_cached ((hcached path).trans hcontent')]
    · have hnot := hfiles path (by simp [hcontent'])
      rw [hworld]
      rcases hremote with rfl | ⟨-, rfl⟩
      · exact hnot
      · -- an attempt leaves what there is or makes a file
        refine writeTimeout_preserves env.conf.maxRetry Status.retriableMknod _
          (fun r => (r.lookup path).map Obj.ftype ≠ some .dir) (fun i r hr => ?_) w.remote hnot
        unfold dplMknod
        simp only
        split
        · rw [AList.lookup_insert]
          simp
        · exact hr

/-- Whether `dfs_create` fails early can be computed. -/
instance (env : Env) (w : World) (path : CStr) (mode : BitVec 32) (replies : CreateReplies) :
    Decidable (CreateRefused env w path mode replies) := inferInstanceAs (Decidable (_ ∨ _))

/-- What an open changes: the modes that create empty the file. -/
def openChanges (env : Env) (w : World) (path : CStr) (flags : BitVec 32) (replies : OpenReplies) :
    List (Change CStr UInt8) :=
  changesOf (dfsOpen env w path flags replies) fun opened =>
    emptied path (opened.ret = 0 ∧ getModeFromFlags flags = .creat)

/-- What a create changes is what the open it starts with changes. -/
def createChanges (env : Env) (w : World) (path : CStr) (mode flags : BitVec 32) (replies : CreateReplies) :
    List (Change CStr UInt8) :=
  if CreateRefused env w path mode replies then [] else openChanges env w path flags replies.opening

/-- Creating a path. -/
theorem dfsCreate_makes {mode : BitVec 32} {replies : CreateReplies} {created : Opened} (hsound : w.Sound env)
    (hsecured : w.Secured env written) (hfiles : w.FilesOnly)
    (hsafe : CreateRefused env w path mode replies ∨ CreateSafe env w path flags replies.opening)
    (hfetches : w.Fetches path flags replies.opening)
    (h : dfsCreate env w path mode flags replies = .done created) :
    w.Makes env created.world (createChanges env w path mode flags replies) := by
  unfold createChanges openChanges changesOf
  cases dfsCreate_outcome h with
  | refused hrefused =>
    rw [if_pos hrefused]
    exact .of_passesBy hfiles fun other => .refl w other
  | noEntry hnot hopen =>
    rw [if_neg hnot, hopen]
    exact dfsOpen_makes hsound hsecured hfiles (hsafe.resolve_left hnot).opening hfetches hopen
  | @entry opened _ addr pe hnot hopen hfh hheap hentry =>
    rw [if_neg hnot, hopen]
    have hopened := dfsOpen_makes hsound hsecured hfiles (hsafe.resolve_left hnot).opening hfetches hopen
    have hmade := createEntry_makes (dfsOpen_sound hsound hopen) hopened.filesOnly (dfsOpen_table hopen hfh) hheap
      hentry
    have hboth := hopened.trans hmade (by simp)
    rwa [List.append_nil] at hboth

end Open

section Write

variable {env : Env} {written : ℕ → Prop} {w w' : World} {path : CStr} {addr : ℕ}

/-- What a write changes: as many bytes as it says. -/
def writeChanges (path : CStr) (offset : ℕ) (data : Bytes) (ret : ℤ) : List (Change CStr UInt8) :=
  if ret < 0 then [] else [.write path offset (data.take ret.toNat)]

/-- Writing through a descriptor. -/
theorem dfsWrite_makes {pe : Pentry} {data : Bytes} {offset : ℕ} {replies : WriteReplies} {ret : ℤ}
    (hsecured : w.Secured env written) (hfiles : w.FilesOnly) (hfile : w.HasFile path addr pe)
    (h : dfsWrite w addr data offset replies = .done (ret, w')) :
    w.Makes env w' (writeChanges path offset data ret) := by
  obtain ⟨-, file, content, hcached, -⟩ := hsecured.backed path addr pe hfile
  have hfd := hfile.fd
  have hbefore : w.cached path = some content := by
    rw [hfile.cached, LocalFs.fdContent, hcached.holds.isOpen, Option.map_some, hcached.holds.content]
  unfold writeChanges
  by_cases hret : ret < 0
  · rw [if_pos hret]
    have hsame : w' = w := by
      unfold dfsWrite at h
      rw [hfile.heap] at h
      simp only at h
      rw [if_neg (by omega)] at h
      split at h
      · exact (Prod.mk.inj (Exec.done.inj h)).2.symm
      · have := (Prod.mk.inj (Exec.done.inj h)).1
        omega
    rw [hsame]
    exact .of_passesBy hfiles fun other => .refl w other
  · rw [if_neg hret]
    have hholds := dfsWrite_holds hcached.holds h (not_lt.mp hret)
    have hafter : w'.cached path = some (Overlay.writeAt 0 content offset (data.take ret.toNat)) := by
      obtain ⟨fs, rfl⟩ := dfsWrite_frame h
      have hfile' : ({ w with fs := fs } : World).HasFile path addr pe := ⟨hfile.table, hfile.heap, hfile.fd⟩
      rw [hfile'.cached, LocalFs.fdContent, hholds.isOpen, Option.map_some, hholds.content]
    have hothers : ∀ other, other ≠ path → w.PassesBy w' other := by
      intro other hne
      unfold dfsWrite at h
      rw [hfile.heap] at h
      simp only at h
      rw [if_neg (by omega)] at h
      split at h
      · rw [(Prod.mk.inj (Exec.done.inj h)).2]
        exact .refl w' other
      · rename_i count fs hpwrite
        obtain ⟨-, rfl⟩ := Prod.mk.inj (Exec.done.inj h)
        obtain ⟨file', bytes, hfile', rfl⟩ := LocalFs.pwrite_eq hpwrite
        obtain rfl := Option.some.inj (hcached.holds.isOpen.symm.trans hfile')
        refine ⟨World.cached_congr rfl fun addr' qe hqe => hsecured.fdContent hqe (fun _ _ h => h)
          ⟨rfl, fun ino hname => ?_⟩, rfl⟩
        -- the other cache file has another name, and so another inode
        have hino : ino ≠ file.ino := by
          rintro rfl
          exact hsecured.apart path addr pe hfile other addr' qe hne hqe (w.fs.names_inj _ _ _ hname hcached.name)
        simp only [LocalFs.setContent, Function.update_of_ne hino]
    have hlookup : w'.remote.lookup path = w.remote.lookup path := by
      obtain ⟨fs, rfl⟩ := dfsWrite_frame h
      rfl
    refine .of_others path hfiles hothers (by simp [Change.target]) (fun _ => ?_) fun _ => ?_
    · rw [World.shown_of_cached hafter, FileMap.applyAll_cons, FileMap.applyAll_nil]
      refine Eq.trans ?_ (Change.apply_target 0 (w.shown env) (.write path offset (data.take ret.toNat))).symm
      rw [Change.leaves, World.shown_of_cached hbefore, Option.map_some]
    · rw [hlookup]
      exact hfiles path (by simp [hbefore])

end Write

section Objects

variable {env : Env} {written : ℕ → Prop} {w w' : World} {path : CStr}

/-- Making an object, where there is no cache file. -/
theorem dfsMknod_makes {replies : ℕ → Reply} (hfiles : w.FilesOnly) (hcached : w.cached path = none)
    (hhonest : Honest replies) :
    w.Makes env (dfsMknod env w path replies).2 (emptied path ((dfsMknod env w path replies).1 = 0)) := by
  have hcached' : (dfsMknod env w path replies).2.cached path = none := hcached
  have hothers : ∀ other, other ≠ path → w.PassesBy (dfsMknod env w path replies).2 other :=
    fun other hne => ⟨rfl, dfsMknodTimeout_lookup fun heq => absurd heq hne⟩
  refine .of_others path hfiles hothers (fun change hmem => by rw [emptied_target hmem, Change.target]) (fun _ => ?_)
    fun h => absurd hcached' h
  rw [World.shown_of_remote hcached']
  rcases dfsMknodTimeout_honest env.conf.maxRetry path w.remote hhonest with ⟨hsuccess, hmade⟩ | ⟨hfailed, hsame⟩
  · have hret : (dfsMknod env w path replies).1 = 0 := by
      unfold dfsMknod
      simp only
      rw [if_neg (by simp [hsuccess])]
    rw [hret]
    refine (Remote.fileAt_of_lookup hmade).trans (Eq.trans ?_ (Change.apply_target 0 (w.shown env) (.empty path)).symm)
    rfl
  · have hret : (dfsMknod env w path replies).1 = -1 := by
      unfold dfsMknod
      simp only
      rw [if_pos hfailed]
    have hnothing : emptied path ((dfsMknod env w path replies).1 = 0) = [] := by
      rw [hret]
      rfl
    rw [hnothing, FileMap.applyAll_nil, World.shown_of_remote hcached]
    exact Remote.fileAt_congr hsame

/-- What unlinking changes. -/
def unlinkChanges (path : CStr) (ret : ℤ) : List (Change CStr UInt8) := if ret = 0 then [.remove path] else []

/-- Unlinking a path. -/
theorem dfsUnlink_makes (path : CStr) {replies : UnlinkReplies} (hsound : w.Sound env) (hfiles : w.FilesOnly)
    (hhonest : Honest replies.unlink) :
    w.Makes env (dfsUnlink env w path replies).2 (unlinkChanges path (dfsUnlink env w path replies).1) := by
  have hothers : ∀ other, other ≠ path → w.PassesBy (dfsUnlink env w path replies).2 other := by
    refine fun other hne => ⟨(dfsUnlink_showsAs hsound hne replies).cached, ?_⟩
    rw [dfsUnlink_remote]
    exact dfsUnlinkTimeout_lookup_ne _ _ _ _ _ hne
  -- once the object is gone, so is the entry
  have hgone : (dfsUnlinkTimeout env.conf.maxRetry replies.unlink path w.remote).1 = .success →
      (dfsUnlink env w path replies).2.table path = none →
      w.Makes env (dfsUnlink env w path replies).2 (unlinkChanges path 0) := by
    intro hsuccess htable
    have hcached := World.cached_of_table htable
    refine .of_others path hfiles hothers (by simp [unlinkChanges, Change.target]) (fun _ => ?_)
      fun h => absurd hcached h
    rw [World.shown_of_remote hcached, Remote.fileAt, dfsUnlink_remote, dfsUnlinkTimeout_gone hsuccess,
      Option.bind_none]
    exact (Change.apply_target 0 (w.shown env) (.remove path)).symm
  have hremote := @dfsUnlink_remote env w path replies
  have houtcome := dfsUnlink_outcome env w path replies
  generalize dfsUnlink env w path replies = unlinked at houtcome hothers hgone hremote ⊢
  cases houtcome with
  | failed hstatus =>
    refine .of_passesBy hfiles fun other => ⟨rfl, ?_⟩
    by_cases hother : other = path
    · subst hother
      exact dfsUnlinkTimeout_lookup hhonest hstatus
    · exact dfsUnlinkTimeout_lookup_ne _ _ _ _ _ hother
  | absent hstatus hnone => exact hgone hstatus hnone
  | destroyed hstatus _ hquiet =>
    refine hgone hstatus ?_
    rw [hquiet.table]
    exact World.remove_table_self _ _

/-- What is renamed onto a path is copied on the store: the path has no cache file, an included path gets its file
from an included one, whose cache file is on the store, and what the store applies it answers with a success. -/
structure World.Moves (env : Env) (written : ℕ → Prop) (w : World) (old new : CStr) (replies : RenameReplies) :
    Prop where
  target : w.cached new = none
  source : env.conf.Includes new →
    env.conf.Includes old ∧ ∀ addr pe, w.HasFile old addr pe → Exposed written addr pe
  fcopy : Honest (replies.fcopy old new)
  unlink : Honest (replies.unlink old).unlink

/-- What the rename of a file changes: it copies the file, and then unlinks it. -/
def moveChanges (old new : CStr) (ret : ℤ) : List (Change CStr UInt8) :=
  if ret = -1 then [] else .copy old new :: unlinkChanges old ret

/-- Copying a file on the store. -/
theorem dfsFcopy_makes {old new : CStr} {replies : RenameReplies} (trace : List Event)
    (haes : env.conf.usesAes = false) (hsecured : w.Secured env written) (hfiles : w.FilesOnly)
    (hmoves : w.Moves env written old new replies)
    (hsuccess : (dfsFcopyTimeout env.conf.maxRetry (replies.fcopy old new) old new w.remote).1 = .success) :
    w.Makes env { w with
      remote := (dfsFcopyTimeout env.conf.maxRetry (replies.fcopy old new) old new w.remote).2
      trace := trace } [.copy old new] := by
  obtain ⟨-, hexists, hcopied⟩ := (dfsFcopyTimeout_honest env.conf.maxRetry old new w.remote hmoves.fcopy).resolve_right
    fun h => h.1 hsuccess
  obtain ⟨obj, hobj⟩ := Option.isSome_iff_exists.mp hexists
  rw [hobj] at hcopied
  refine .of_others new hfiles (fun other hne => ⟨rfl, dfsFcopyTimeout_lookup_ne _ _ _ _ _ _ hne⟩)
    (by simp [Change.target]) (fun hincluded => ?_) fun h => absurd hmoves.target h
  rw [World.shown_of_remote (by exact hmoves.target)]
  refine (Remote.fileAt_of_lookup hcopied).trans
    (Eq.trans ?_ (Change.apply_target 0 (w.shown env) (.copy old new)).symm)
  rw [Change.leaves]
  -- the file that is copied is the one its path shows
  cases hcached : w.cached old with
  | none => rw [World.shown_of_remote hcached, Remote.fileAt_of_lookup hobj]
  | some content =>
    obtain ⟨addr, pe, hfile⟩ := World.hasFile_of_cached hcached
    obtain ⟨content', hcached', hkeeps⟩ := hsecured.cached hfile
    obtain rfl := Option.some.inj (hcached.symm.trans hcached')
    obtain ⟨obj', hobj', hgives⟩ := hkeeps ((hmoves.source hincluded).2 addr pe hfile)
    obtain rfl := Option.some.inj (hobj.symm.trans hobj')
    have hftype : obj.ftype ≠ .dir := by
      have hnot := hfiles old (by simp [hcached])
      rw [hobj] at hnot
      simpa using hnot
    rw [World.shown_of_cached hcached, hgives.file haes hftype]

/-- `dfs_unlink` returns zero or one. -/
theorem dfsUnlink_ne_neg (env : Env) (w : World) (path : CStr) (replies : UnlinkReplies) :
    (dfsUnlink env w path replies).1 ≠ -1 := by
  have houtcome := dfsUnlink_outcome env w path replies
  generalize dfsUnlink env w path replies = unlinked at houtcome ⊢
  cases houtcome <;> simp

/-- Unlinking the old path of what has been copied. -/
theorem World.Makes.unlink {old new : CStr} {replies : UnlinkReplies} (h : w.Makes env w' [.copy old new])
    (hsound : w'.Sound env) (hhonest : Honest replies.unlink) (dir : Option CStr) (junk : Filetype) :
    w.Makes env (dfsUnlink env (w'.removeDirentOf dir old junk) old replies).2
      (moveChanges old new (dfsUnlink env (w'.removeDirentOf dir old junk) old replies).1) := by
  have hlisted : w'.Makes env (w'.removeDirentOf dir old junk) [] := .of_passesBy h.filesOnly fun other =>
    ⟨(World.removeDirentOf_showsAs w' dir old other junk).cached, by rw [World.removeDirentOf_remote]⟩
  have hunlinked := dfsUnlink_makes old (hsound.quiet (w'.removeDirentOf_quiet dir old junk)) hlisted.filesOnly hhonest
  rw [moveChanges, if_neg (dfsUnlink_ne_neg _ _ _ _)]
  refine (h.trans hlisted (by simp)).trans hunlinked fun change hmem => ?_
  split at hmem
  · rw [List.mem_singleton.mp hmem]
    trivial
  · cases hmem

/-- Renaming a file. -/
theorem renameFile_makes {old new : CStr} {replies : RenameReplies} (haes : env.conf.usesAes = false)
    (hsound : w.Sound env) (hsecured : w.Secured env written) (hfiles : w.FilesOnly)
    (hmoves : w.Moves env written old new replies) :
    w.Makes env (renameFile env w old new replies).2 (moveChanges old new (renameFile env w old new replies).1) := by
  unfold renameFile
  simp only
  split
  · rename_i hfailed
    have hsame := (dfsFcopyTimeout_honest env.conf.maxRetry old new w.remote hmoves.fcopy).resolve_left
      fun h => hfailed h.1
    exact .of_passesBy hfiles fun other => ⟨rfl, hsame.2 other⟩
  · rename_i hsuccess
    have hcopied := dfsFcopy_makes ((w.trace ++ [.renameFile old new]) ++ [.fcopy old new]) haes hsecured hfiles
      hmoves (not_not.mp hsuccess)
    exact hcopied.unlink (hsound.frame rfl rfl rfl fun _ _ h => h) hmoves.unlink _ _

end Objects

end Dropletfs
