import Dropletfs.CompleteCopies
import Dropletfs.Removal
import Dropletfs.WriteBack

/-!
# Renaming over a path that was in use

A rename moves the object and unlinks the old path. It does not look at the entry of the new
path, whose descriptor and metadata stay those of the object that was there before. Opens and
lookups of the new path are answered from them as long as the entry lives.
-/

namespace Dropletfs

/-- Every read through a handle gives what this content has there. -/
def World.ReadsAs (w : World) (addr : ℕ) (content : Bytes) : Prop :=
  ∀ size offset (replies : ReadReplies), replies.pread = true →
    dfsRead w addr size offset replies =
      .done (((content.drop offset).take (min size LocalFs.maxTransfer)).length,
        (content.drop offset).take (min size LocalFs.maxTransfer))

/-- The size that metadata give, zero without a value. -/
def sizeIn (metadata : Option Dict) : ℤ := storeMeta (metadata.getD Dict.new) "size".toList id 0

/-- The size that a lookup of an object finds: that of the cached file, or the one in the metadata, those in the
entry going before those of the object. -/
def World.shownSize (w : World) (path : CStr) (obj : Obj) : ℤ :=
  match w.entry path with
  | none => sizeIn obj.metadata
  | some pe =>
    match pe.ondisk with
    | .unset => sizeIn obj.metadata
    | .remote => sizeIn pe.metadata
    | .localFile => ((w.cached path).getD []).length

/-- What the entry of a path holds does not hide an object that gets there: a cached file has the same content,
or there is none and a download is complete, and the size that is found is that of the content. -/
structure World.Uncovered (env : Env) (w : World) (path : CStr) (obj : Obj) (content : Bytes)
    (replies : UnpackReplies) : Prop where
  cached : match w.cached path with
    | some bytes => bytes = content
    | none => obj.Replaced env replies
  size : w.shownSize path obj = content.length

/-- What opens and lookups take from an entry. -/
def Pentry.view (pe : Pentry) : ℤ × Placeholder × Option Dict := (pe.fd, pe.ondisk, pe.metadata)

/-- Opens and lookups of a path find the same in both states. -/
structure World.ShowsAs (w w' : World) (path : CStr) : Prop where
  view : (w'.entry path).map Pentry.view = (w.entry path).map Pentry.view
  cached : w'.cached path = w.cached path

section Frame

variable {env : Env} {w w₁ w₂ : World} {path : CStr}

/-- One change after another. -/
theorem World.ShowsAs.trans (h₁ : w.ShowsAs w₁ path) (h₂ : w₁.ShowsAs w₂ path) : w.ShowsAs w₂ path :=
  ⟨h₂.view.trans h₁.view, h₂.cached.trans h₁.cached⟩

/-- A change after which the entry has the same view, and its descriptor the same file. -/
theorem World.ShowsAs.of_view (hview : (w₁.entry path).map Pentry.view = (w.entry path).map Pentry.view)
    (hcontent : ∀ pe, w.entry path = some pe → 0 ≤ pe.fd →
      w₁.fs.fdContent pe.fd.toNat = w.fs.fdContent pe.fd.toNat) : w.ShowsAs w₁ path := by
  refine ⟨hview, ?_⟩
  unfold World.cached
  cases hentry : w.entry path with
  | none =>
    rw [hentry, Option.map_none, Option.map_eq_none_iff] at hview
    rw [hview]
    rfl
  | some pe =>
    rw [hentry, Option.map_some, Option.map_eq_some_iff] at hview
    obtain ⟨pe', hentry', heq⟩ := hview
    have hfd : pe'.fd = pe.fd := congrArg Prod.fst heq
    rw [hentry', Option.bind_some, Option.bind_some, hfd]
    by_cases hneg : pe.fd < 0
    · rw [if_pos hneg, if_pos hneg]
    · rw [if_neg hneg, if_neg hneg]
      exact hcontent pe hentry (Int.not_lt.mp hneg)

/-- The size that a lookup finds depends on the view and the cached content. -/
theorem World.ShowsAs.shownSize (h : w.ShowsAs w₁ path) (obj : Obj) : w₁.shownSize path obj = w.shownSize path obj := by
  have hview := h.view
  unfold World.shownSize
  rw [h.cached]
  cases hentry : w.entry path with
  | none =>
    rw [hentry, Option.map_none, Option.map_eq_none_iff] at hview
    rw [hview]
  | some pe =>
    rw [hentry, Option.map_some, Option.map_eq_some_iff] at hview
    obtain ⟨pe', hentry', heq⟩ := hview
    simp only [Pentry.view, Prod.mk.injEq] at heq
    simp only [hentry', heq.2.1, heq.2.2]

/-- Taking a path out of the list of a directory. -/
theorem World.removeDirentOf_showsAs (w : World) (dir : Option CStr) (other path : CStr) (junk : Filetype) :
    w.ShowsAs (w.removeDirentOf dir other junk) path := by
  have hquiet := w.removeDirentOf_quiet dir other junk
  refine .of_view ?_ fun pe _ _ => by rw [hquiet.fs]
  rw [World.entry, World.entry, hquiet.table]
  cases w.table path with
  | none => rfl
  | some addr =>
    simp only [Option.bind_some]
    unfold World.removeDirentOf
    split
    · rfl
    · refine World.modify_map w _ addr Pentry.view fun pe => ?_
      unfold Pentry.removeDirent
      split <;> rfl

/-- Removing another path. -/
theorem World.remove_showsAs {other : CStr} (hsound : w.Sound env) (hne : path ≠ other) :
    w.ShowsAs (w.remove other) path := by
  refine .of_view (by rw [World.remove_entry_ne hsound hne]) fun pe hentry hfd => ?_
  obtain ⟨addr, htable, hheap⟩ := Option.bind_eq_some_iff.mp hentry
  obtain ⟨-, hinodes, hfiles⟩ := w.remove_fs other
  -- the entry that goes has a descriptor of its own
  have hkept := hfiles pe.fd.toNat fun addr' pe' htable' hheap' hfd' hsame => by
    obtain rfl := hsound.fd_inj addr addr' pe pe' hheap hheap' hfd (by omega)
    exact hne (hsound.table_inj path other addr htable htable')
  simp only [LocalFs.fdContent, hinodes, hkept]

/-- Unlinking a name leaves what is behind the descriptors. -/
theorem LocalFs.unlink_fdContent (fs : LocalFs) (name : CStr) (reply : Bool) (fd : ℕ) :
    (fs.unlink name reply).fdContent fd = fs.fdContent fd := by
  unfold unlink
  split <;> rfl

/-- Unlinking another path. -/
theorem dfsUnlink_showsAs {other : CStr} (hsound : w.Sound env) (hne : path ≠ other) (replies : UnlinkReplies) :
    w.ShowsAs (dfsUnlink env w other replies).2 path := by
  have hunlinked : w.ShowsAs (w.unlinked env other replies) path :=
    .of_view rfl fun pe _ _ => LocalFs.unlink_fdContent ..
  have hsound' : (w.unlinked env other replies).Sound env := by
    refine hsound.frame rfl rfl rfl ?_
    rw [LocalFs.Keeps, World.unlinked, LocalFs.unlink_files]
    exact fun _ _ h => h
  unfold dfsUnlink
  simp only
  split
  · exact ⟨rfl, rfl⟩
  · split
    · exact hunlinked
    · exact (hunlinked.trans (World.remove_showsAs hsound' hne)).trans (World.removeDirentOf_showsAs ..)

end Frame

section Rename

variable {env : Env} {w : World} {old new : CStr} {obj : Obj} {replies : RenameReplies}

/-- A rename of a file that does not fail puts the object under the new path, and leaves the entry of that path
as it was. -/
theorem renameFile_lands (hsound : w.Sound env) (hne : new ≠ old) (hold : w.remote.lookup old = some obj)
    (hret : (renameFile env w old new replies).1 ≠ -1) :
    (renameFile env w old new replies).2.remote.lookup new = some obj ∧
      w.ShowsAs (renameFile env w old new replies).2 new := by
  unfold renameFile at hret ⊢
  simp only at hret ⊢
  split
  · rename_i hstatus
    rw [if_pos hstatus] at hret
    exact absurd rfl hret
  · rename_i hstatus
    have hcopied := dfsFcopyTimeout_copied hne hold (not_not.mp hstatus)
    constructor
    · rw [dfsUnlink_remote, dfsUnlinkTimeout_lookup_ne _ _ _ _ _ hne, World.removeDirentOf_remote]
      exact hcopied
    · generalize hcopy : ({ w.log (.renameFile old new) with
        remote := (dfsFcopyTimeout env.conf.maxRetry (replies.fcopy old new) old new
          (w.log (.renameFile old new)).remote).2
        } : World).log (.fcopy old new) = copied
      have hshows : w.ShowsAs copied new := hcopy ▸ ⟨rfl, rfl⟩
      have hsound' : copied.Sound env := hcopy ▸ hsound.frame rfl rfl rfl fun _ _ h => h
      refine (hshows.trans (World.removeDirentOf_showsAs ..)).trans (dfsUnlink_showsAs ?_ hne _)
      exact hsound'.quiet (World.removeDirentOf_quiet ..)

/-- A successful rename of a file is what `rename_file` does. -/
theorem dfsRename_file {depth : ℕ} {s s' : Renaming}
    (hreg : (dfsNameiTimeout env.conf.maxRetry replies.namei old s.world.remote).2.getD replies.junkType = .reg)
    (hdot : new ≠ ".".toList) (h : dfsRename env depth s old new replies = .done (0, s')) :
    (renameFile env s.world old new replies).1 ≠ -1 ∧ s'.world = (renameFile env s.world old new replies).2 := by
  obtain ⟨⟨ret, s₁⟩, hcall, hdone⟩ := Exec.bind_eq_done.mp h
  simp only [pure, Exec.done.injEq, Prod.mk.injEq] at hdone
  obtain ⟨hret, rfl⟩ := hdone
  rw [renameTarget, if_neg hdot, hreg] at hcall
  have hfile := Exec.done.inj hcall
  obtain ⟨hvalue, hworld⟩ := renameFileAt_caller env s old new replies
  rw [hfile] at hvalue hworld
  refine ⟨fun hfailed => ?_, hworld⟩
  rw [if_pos (hvalue.trans hfailed)] at hret
  cases hret

end Rename

/-- Two contents that agree on every byte are the same. -/
theorem eq_of_slices {content base : Bytes}
    (h : ∀ size offset, (base.drop offset).take (min size LocalFs.maxTransfer) =
      (content.drop offset).take (min size LocalFs.maxTransfer)) : base = content := by
  refine List.ext_getElem? fun i => ?_
  have hbyte := congrArg List.head? (h 1 i)
  simpa [LocalFs.maxTransfer, List.head?_take, List.head?_drop] using hbyte

/-- Reads through a descriptor give the content of its file, and no other. -/
theorem World.Holds.readsAs_iff {w : World} {addr : ℕ} {pe : Pentry} {file : OpenFile} {base : Bytes}
    (h : w.Holds addr pe file base) (content : Bytes) : w.ReadsAs addr content ↔ base = content := by
  have hread : ∀ size offset (replies : ReadReplies), replies.pread = true →
      dfsRead w addr size offset replies =
        .done (((base.drop offset).take (min size LocalFs.maxTransfer)).length,
          (base.drop offset).take (min size LocalFs.maxTransfer)) := by
    intro size offset replies hreply
    simp only [dfsRead, h.heap, if_neg (Int.not_lt.mpr h.fd), LocalFs.pread, h.isOpen, hreply, h.content]
  constructor
  · intro hreads
    refine eq_of_slices fun size offset => ?_
    have hsame := hreads size offset ⟨true, 1, Nat.one_pos⟩ rfl
    rw [hread size offset _ rfl] at hsame
    simp only [Exec.done.injEq, Prod.mk.injEq] at hsame
    exact hsame.2
  · rintro rfl
    exact hread

/-- A lookup answered from the cache file reports the size of its content. -/
theorem getattrLocal_size {w : World} {pe : Pentry} {replies : GetattrReplies} {looked : Lookup}
    (h : getattrLocal w pe .single replies = .done looked) (hret : looked.ret = 0) :
    looked.st.size = ((if pe.fd < 0 then none else w.fs.fdContent pe.fd.toNat).getD []).length := by
  unfold getattrLocal at h
  split at h
  · obtain rfl := Exec.done.inj h
    cases hret
  · rename_i hfd
    split at h
    · obtain rfl := Exec.done.inj h
      cases hret
    · rename_i st hstat
      obtain rfl := Exec.done.inj h
      obtain ⟨file, times, -, hfile, -, -, rfl⟩ := LocalFs.fstat_eq_some.mp hstat
      simp only [if_neg hfd, LocalFs.fdContent, hfile, Option.map_some, Option.getD_some]

/-- A lookup answered from the store reports the size in the metadata of the object. -/
theorem getattrUnset_size {env : Env} {w : World} {addr : ℕ} {pe : Pentry} {path : CStr} {obj : Obj}
    {replies : GetattrReplies} {looked : Lookup} (hobj : w.remote.lookup path = some obj)
    (h : getattrUnset env w addr pe path .single replies = .done looked) (hret : looked.ret = 0) :
    looked.st.size = sizeIn obj.metadata := by
  cases getattrUnset_outcome h with
  | failed hne => exact absurd hret hne
  | plain _ hmetadata =>
    rw [hobj, Option.bind_some] at hmetadata
    simp only [hmetadata, sizeIn, Option.getD_none, storeMeta_eq, Dict.new_gives, Bool.false_eq_true, if_false]
    rfl
  | described _ hmetadata =>
    rw [hobj, Option.bind_some] at hmetadata
    simp only [hmetadata, sizeIn, Option.getD_some]
    exact (firstStat_fields ..).1

/-- The size that a successful lookup of an object reports. -/
theorem dfsGetattr_size {env : Env} {w : World} {path : CStr} {obj : Obj} {replies : GetattrReplies} {looked : Lookup}
    (hroot : path ≠ "/".toList) (hobj : w.remote.lookup path = some obj)
    (h : dfsGetattr env w path replies = .done looked) (hret : looked.ret = 0) :
    looked.st.size = w.shownSize path obj := by
  cases dfsGetattr_outcome h with
  | root hpath => exact absurd hpath hroot
  | noEntry => cases hret
  | @entry addr w₁ pe looked₁ _ hentry hheap hcall =>
    simp only at hret ⊢
    -- an entry that the lookup makes counts as one that is not set yet
    have hplace : w₁.remote.lookup path = some obj ∧
        w.shownSize path obj = match pe.ondisk with
          | .unset => sizeIn obj.metadata
          | .remote => sizeIn pe.metadata
          | .localFile => ((if pe.fd < 0 then none else w₁.fs.fdContent pe.fd.toNat).getD []).length := by
      cases hentry with
      | found htable =>
        have hfound : w.entry path = some pe := by rw [World.entry, htable, Option.bind_some, hheap]
        refine ⟨hobj, ?_⟩
        rw [World.shownSize, World.cached, hfound]
        rfl
      | made hnone =>
        simp only [World.insert, Function.update_self, Option.some.injEq] at hheap
        subst hheap
        refine ⟨hobj, ?_⟩
        rw [World.shownSize, World.entry, hnone]
        rfl
    obtain ⟨hobj₁, hshown⟩ := hplace
    rw [hshown]
    unfold getattrByPlaceholder at hcall
    cases hondisk : pe.ondisk with
    | remote =>
      simp only [hondisk] at hcall ⊢
      rw [getattrRemote_st hcall hret]
      exact (cachedStat_fields _).1
    | localFile =>
      simp only [hondisk] at hcall ⊢
      exact getattrLocal_size hcall hret
    | unset =>
      simp only [hondisk] at hcall ⊢
      exact getattrUnset_size hobj₁ hcall hret

/-- After the rename of a file, reads through a handle on the new path give the content of the object that was
moved, and lookups of the new path its size, exactly when nothing that the entry of the new path holds hides them. -/
theorem renamed_visible_iff (env : Env) (s : Session) (depth : ℕ) (ring : Ring) (old new : CStr) (obj : Obj)
    (content : Bytes) (replies : RenameReplies) (s' : Renaming) (flags : BitVec 32) (openReplies : OpenReplies)
    (opened : Opened) (addr : ℕ) (lookupReplies : GetattrReplies) (looked : Lookup)
    (hreached : s.Reached env GuardedRuns.unguarded) (hold : s.world.remote.lookup old = some obj)
    (hcontent : obj.Complete env content) (hne : new ≠ old) (hroot : new ≠ "/".toList) (hdot : new ≠ ".".toList)
    (hreg : (dfsNameiTimeout env.conf.maxRetry replies.namei old s.world.remote).2.getD replies.junkType = .reg)
    (hrename : dfsRename env depth ⟨s.world, ring⟩ old new replies = .done (0, s'))
    (hrdonly : isRdonly flags = true) (hcreat : hasFlag flags oCreat = false)
    (hopen : dfsOpen env s'.world new flags openReplies = .done opened) (hret : opened.ret = 0)
    (hfh : opened.fh = some addr)
    (hgetattr : dfsGetattr env s'.world new lookupReplies = .done looked) (hlooked : looked.ret = 0) :
    opened.world.ReadsAs addr content ∧ looked.st.size = content.length ↔
      s.world.Uncovered env new obj content openReplies.copy.unpack := by
  obtain ⟨hmoved, hworld⟩ := dfsRename_file (s := ⟨s.world, ring⟩) hreg hdot hrename
  obtain ⟨hnew, hshows⟩ := renameFile_lands hreached.sound hne hold hmoved
  rw [← hworld] at hnew hshows
  have hsound := dfsRename_sound (s := ⟨s.world, ring⟩) hreached.sound hrename
  obtain ⟨-, pe, file, base, hholds, hbase⟩ := dfsOpen_base hsound hopen hret hfh
  have hmode : getModeFromFlags flags ≠ .creat := by
    unfold getModeFromFlags
    unfold isRdonly at hrdonly
    simp only [hcreat, hrdonly, Bool.false_eq_true, if_false, if_true]
    split <;> decide
  have hread : opened.world.ReadsAs addr content ↔
      match s.world.cached new with
        | some bytes => bytes = content
        | none => obj.Replaced env openReplies.copy.unpack := by
    rw [hholds.readsAs_iff, ← hshows.cached]
    cases hbase with
    | truncated hcreat' => exact absurd hcreat' hmode
    | cached _ hcached => rw [hcached]
    | fetched _ hcached hlookup hfetched =>
      obtain rfl := Option.some.inj (hlookup.symm.trans hnew)
      rw [hcached, ← Obj.fetched_complete_iff hfetched]
      constructor
      · rintro rfl
        exact hcontent
      · intro hbase
        exact hbase.unique hcontent
  rw [hread, dfsGetattr_size hroot hnew hgetattr hlooked, hshows.shownSize]
  exact ⟨fun h => ⟨h.1, h.2⟩, fun h => ⟨h.cached, h.size⟩⟩

/-- A store with two files, of which the second is longer. -/
def Remote.shortAndLong : Remote := (Remote.file "/a".toList [65]).insert "/b".toList ⟨.reg, [66, 67], none, none⟩

/-- After the second file was read once, a rename of the first over it does not show: reads give the bytes that were
cached, and lookups their number. -/
theorem cached_target_shown :
    ∃ (s : Session) (obj : Obj) (s' : Renaming) (opened : Opened) (addr : ℕ) (looked : Lookup),
      s.Reached Env.plain GuardedRuns.unguarded ∧ s.handles = [] ∧
      s.world.remote.lookup "/a".toList = some obj ∧ obj.ftype = .reg ∧ obj.Complete Env.plain [65] ∧
      (s.world.remote.lookup "/b".toList).map Obj.ftype = some .reg ∧
      dfsRename Env.plain 0 ⟨s.world, .start⟩ "/a".toList "/b".toList .granted = .done (0, s') ∧
      dfsOpen Env.plain s'.world "/b".toList oRdonly (.granted 4) = .done opened ∧ opened.ret = 0 ∧
      opened.fh = some addr ∧ dfsRead opened.world addr 9 0 ⟨true, 1, Nat.one_pos⟩ = .done (2, [66, 67]) ∧
      ¬ opened.world.ReadsAs addr [65] ∧
      dfsGetattr Env.plain s'.world "/b".toList .granted = .done looked ∧ looked.ret = 0 ∧ looked.st.size = 2 := by
  have hopened : (Session.start .empty .shortAndLong).Reached Env.plain GuardedRuns.unguarded :=
    .start (Session.start_initial ..)
  refine ⟨_, _, _, _, _, _, .step (i := .release 0 (.granted 5))
    (.step (i := .open "/b".toList oRdonly (.granted 3)) hopened trivial rfl) trivial rfl,
    rfl, rfl, rfl, rfl, rfl, rfl, rfl, rfl, rfl, rfl, fun hreads => ?_, rfl, rfl, rfl⟩
  have hwrong := hreads 9 0 ⟨true, 1, Nat.one_pos⟩ rfl
  cases hwrong

/-- A store with two files of the same content. -/
def Remote.twins : Remote := (Remote.file "/a".toList [65]).insert "/b".toList ⟨.reg, [65], none, none⟩

/-- After the second file was read once, a rename of the first over it shows when both have the same content. -/
theorem same_target_read :
    ∃ (s : Session) (s' : Renaming) (opened : Opened) (addr : ℕ) (looked : Lookup),
      s.Reached Env.plain GuardedRuns.unguarded ∧ s.world.cached "/b".toList = some [65] ∧
      dfsRename Env.plain 0 ⟨s.world, .start⟩ "/a".toList "/b".toList .granted = .done (0, s') ∧
      dfsOpen Env.plain s'.world "/b".toList oRdonly (.granted 4) = .done opened ∧ opened.fh = some addr ∧
      dfsGetattr Env.plain s'.world "/b".toList .granted = .done looked ∧ looked.ret = 0 ∧
      opened.world.ReadsAs addr [65] ∧ looked.st.size = 1 := by
  have hstart : (Session.start .empty .twins).Reached Env.plain GuardedRuns.unguarded :=
    .start (Session.start_initial ..)
  obtain ⟨s, hreached, rfl⟩ : ∃ s : Session, s.Reached Env.plain GuardedRuns.unguarded ∧ s = _ :=
    ⟨_, .step (i := .release 0 (.granted 5))
      (.step (i := .open "/b".toList oRdonly (.granted 3)) hstart trivial rfl) trivial rfl, rfl⟩
  refine ⟨_, _, _, _, _, hreached, rfl, rfl, rfl, rfl, rfl, rfl, ?_⟩
  exact (renamed_visible_iff Env.plain _ 0 .start "/a".toList "/b".toList ⟨.reg, [65], none, none⟩ [65] .granted _
    oRdonly (.granted 4) _ _ .granted _ hreached rfl rfl (by decide) (by decide) (by decide) rfl rfl rfl rfl rfl rfl rfl
    rfl rfl).mpr ⟨rfl, rfl⟩

end Dropletfs
