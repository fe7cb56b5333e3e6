import Dropletfs.Descriptors

/-!
# Writing back through a handle

An open that is asked for write access but not for appending truncates the cache file, so
only what the writes cover survives in the store. With `O_APPEND` the writes go to the
cached file or to a download.
-/

namespace Dropletfs

open Overlay (Write AgreeOutside Covered reach)

/-- The content behind the descriptor that the entry of a path has. -/
def World.cached (w : World) (path : CStr) : Option Bytes :=
  (w.entry path).bind fun pe => if pe.fd < 0 then none else w.fs.fdContent pe.fd.toNat

/-- What a download leaves of the decoded content: the compressed bytes when the decompressed file could
not be renamed, or what reached that file. -/
def Obj.salvaged (obj : Obj) (content : Bytes) (replies : UnpackReplies) : Bytes :=
  if obj.compressed then if replies.rename then flushed replies.fclose content else obj.content
  else content

/-- A download of an object that is not encrypted leaves what it can of the decoded content. -/
theorem Obj.fetched_eq_salvaged {env : Env} {obj : Obj} {replies : UnpackReplies} {content bytes : Bytes}
    (hplain : obj.deciphered env = obj.content) (hdecoded : obj.decoded env = some content)
    (h : obj.fetched env replies = some bytes) : bytes = obj.salvaged content replies := by
  unfold Obj.decoded at hdecoded
  rw [hplain] at hdecoded
  unfold Obj.fetched at h hdecoded
  unfold Obj.salvaged Obj.compressed
  have hlabel : ({ obj with content := obj.content } : Obj).label = obj.label := rfl
  rw [hlabel] at hdecoded
  cases hcase : obj.label with
  | none =>
    simp only [hcase, Option.some.injEq] at h hdecoded
    simp [← h, ← hdecoded]
  | some label =>
    simp only [hcase] at h hdecoded
    cases hnone : strncmpEq "none".toList label with
    | true =>
      simp only [hnone, if_true, Option.some.injEq] at h hdecoded
      simp only [hnone, Bool.not_true, Bool.false_and, Bool.false_eq_true, if_false, ← h, ← hdecoded]
    | false =>
      cases hzlib : strncmpEq "zlib".toList label with
      | false =>
        simp only [hnone, hzlib, Bool.false_eq_true, if_false, if_true] at h
        cases h
      | true =>
        simp only [hnone, hzlib, Bool.false_eq_true, Bool.true_eq_false, if_false] at h hdecoded
        split at h
        · rename_i out hunzip
          have hclean := unzip_clean hunzip
          simp only [UnpackReplies.granted, hclean, flushed, if_true, Option.some.injEq] at hdecoded
          obtain rfl := hdecoded
          simpa only [hnone, hzlib, Bool.not_false, Bool.true_and, if_true] using (Option.some.inj h).symm
        · cases h

/-- What is behind the descriptor after an open: nothing, what was cached, or a download. -/
inductive OpenBase (env : Env) (w : World) (path : CStr) (flags : BitVec 32) (replies : OpenReplies) :
    Bytes → Prop
  | truncated : getModeFromFlags flags = .creat → OpenBase env w path flags replies []
  | cached {bytes : Bytes} : getModeFromFlags flags ≠ .creat → w.cached path = some bytes →
      OpenBase env w path flags replies bytes
  | fetched {obj : Obj} {bytes : Bytes} : getModeFromFlags flags ≠ .creat → w.cached path = none →
      w.remote.lookup path = some obj → obj.fetched env replies.copy.unpack = some bytes →
      OpenBase env w path flags replies bytes

/-- The entry at an address has a descriptor at the start of a file with this content. -/
structure World.Holds (w : World) (addr : ℕ) (pe : Pentry) (file : OpenFile) (content : Bytes) : Prop where
  heap : w.heap addr = some pe
  fd : 0 ≤ pe.fd
  isOpen : w.fs.files pe.fd.toNat = some file
  offset : file.offset = 0
  content : (w.fs.inodes file.ino).content = content

/-- Storing an entry with such a descriptor. -/
theorem World.holds_put {w : World} {pe : Pentry} {file : OpenFile} {content : Bytes} {fd : ℕ} (addr : ℕ)
    (hfd : pe.fd = fd) (hfile : w.fs.files fd = some file) (hoffset : file.offset = 0)
    (hcontent : (w.fs.inodes file.ino).content = content) : (w.put addr pe).Holds addr pe file content where
  heap := put_heap_self ..
  fd := by omega
  isOpen := by rw [hfd, Int.toNat_natCast]; exact hfile
  offset := hoffset
  content := hcontent

/-- The whole content is left to read. -/
theorem World.Holds.unread {w : World} {addr : ℕ} {pe : Pentry} {file : OpenFile} {content : Bytes}
    (h : w.Holds addr pe file content) : w.fs.unread pe.fd.toNat = content := by
  simp only [LocalFs.unread, h.isOpen, h.offset, List.drop_zero, h.content]

/-- What the entry found or made for a path has cached, the path had cached. -/
theorem Found.cached {w w' : World} {path : CStr} {replies : OpenReplies} {addr : ℕ} {pe : Pentry}
    (h : Found w path replies addr w' pe) :
    w.cached path = (if pe.fd < 0 then none else w.fs.fdContent pe.fd.toNat) ∧ w'.fs = w.fs ∧
      w'.remote = w.remote := by
  rcases findOrPopulate_cases h.lookup with ⟨htable, rfl⟩ | ⟨htable, rfl, rfl⟩
  · simp [World.cached, World.entry, htable, h.heap]
  · have hnew := h.heap
    simp only [World.insert, Function.update_self, Option.some.injEq] at hnew
    subst hnew
    simp [World.cached, World.entry, htable, pentryNew, World.insert]

/-- A successful open leaves the descriptor of its entry at the start of one of these contents. -/
theorem dfsOpen_base {env : Env} {w : World} {path : CStr} {flags : BitVec 32} {replies : OpenReplies}
    {opened : Opened} {addr : ℕ} (hsound : w.Sound env)
    (h : dfsOpen env w path flags replies = .done opened) (hret : opened.ret = 0)
    (hfh : opened.fh = some addr) :
    opened.world.remote = w.remote ∧ ∃ pe file base, opened.world.Holds addr pe file base ∧
      OpenBase env w path flags replies base := by
  cases dfsOpen_outcome h with
  | noEntry => simp at hret
  | lockFailed => simp at hret
  | failed => simp at hret
  | @succeeded _ w' pe pe' fs ret hfound _ hmode hne =>
    obtain rfl : _ = addr := Option.some.inj hfh
    obtain ⟨hcached, hfs, hremote⟩ := hfound.cached
    obtain ⟨hheld, -⟩ := pe.held_fd replies.semPost (getModeFromFlags flags)
    have hrewound := (hsound.grown (findOrPopulate_grown hfound.lookup)).rewound _ _ hfound.heap
    have husable : (pe.held replies.semPost (getModeFromFlags flags)).Usable := by
      rw [Pentry.Usable, hheld]
      exact hrewound.usable
    refine ⟨hremote, ?_⟩
    cases openByMode_outcome husable hmode with
    | failed => exact absurd rfl hne
    | kept hcreat hfd =>
      rw [hheld] at hfd
      obtain ⟨fd, file, hfd', hfile, hoffset⟩ := hrewound.resolve_left (by omega)
      have hnat : pe.fd.toNat = fd := by omega
      refine ⟨_, file, (w'.fs.inodes file.ino).content,
        World.holds_put _ (by simp only [hheld, hfd']) hfile hoffset rfl, .cached hcreat ?_⟩
      rw [hfs] at hfile
      simp [hcached, LocalFs.fdContent, hfile, hnat, hfs, show ¬ pe.fd < 0 by omega]
    | @fetched _ obj bytes fd metadata digest hcreat hfd hframe hfree hlookup hfetched hopen =>
      rw [hheld] at hfd
      obtain ⟨ino, -, hfile, hcontent⟩ := hopen
      rw [hremote] at hlookup
      exact ⟨_, _, bytes, World.holds_put _ rfl hfile rfl hcontent,
        .fetched hcreat (by simp [hcached, hfd]) hlookup hfetched⟩
    | created hcreat _ hopen =>
      obtain ⟨-, ino, hfile, -⟩ := LocalFs.openFile_file hopen
      have hempty := LocalFs.openFile_trunc rfl hopen
      simp only [LocalFs.fdContent, hfile, Option.map_some, Option.some.injEq] at hempty
      exact ⟨_, _, [], World.holds_put _ rfl hfile rfl hempty, .truncated hcreat⟩

/-- Writes through a handle, none of which fails, and the data each of them placed. -/
inductive Writes (addr : ℕ) : World → List (Write UInt8) → World → Prop
  | nil {w : World} : Writes addr w [] w
  | cons {w w₁ w₂ : World} {data : Bytes} {offset : ℕ} {replies : WriteReplies} {ret : ℤ}
      {writes : List (Write UInt8)} : dfsWrite w addr data offset replies = .done (ret, w₁) → 0 ≤ ret →
      Writes addr w₁ writes w₂ → Writes addr w (⟨offset, data.take ret.toNat⟩ :: writes) w₂

/-- A write that succeeds overlays the content of the file. -/
theorem dfsWrite_holds {w w' : World} {addr : ℕ} {pe : Pentry} {file : OpenFile} {content data : Bytes}
    {offset : ℕ} {replies : WriteReplies} {ret : ℤ} (h : w.Holds addr pe file content)
    (hwrite : dfsWrite w addr data offset replies = .done (ret, w')) (hret : 0 ≤ ret) :
    w'.Holds addr pe file (Overlay.writeAt 0 content offset (data.take ret.toNat)) := by
  have herrno := replies.errno_pos
  have hfd := h.fd
  unfold dfsWrite at hwrite
  rw [h.heap] at hwrite
  simp only at hwrite
  rw [if_neg (by omega)] at hwrite
  split at hwrite
  · simp only [Exec.done.injEq, Prod.mk.injEq] at hwrite
    omega
  · rename_i count fs hpwrite
    simp only [Exec.done.injEq, Prod.mk.injEq] at hwrite
    obtain ⟨rfl, rfl⟩ := hwrite
    unfold LocalFs.pwrite at hpwrite
    rw [h.isOpen] at hpwrite
    cases hreply : replies.pwrite with
    | none => simp [hreply] at hpwrite
    | some taken =>
      simp only [hreply] at hpwrite
      split at hpwrite
      · simp only [Option.some.injEq, Prod.mk.injEq] at hpwrite
        obtain ⟨rfl, rfl⟩ := hpwrite
        refine ⟨h.heap, hfd, h.isOpen, h.offset, ?_⟩
        simp only [LocalFs.setContent, Function.update_self, h.content, Int.toNat_natCast, List.length_take]
        congr 1
        rw [List.take_eq_take_iff]
        omega
      · cases hpwrite

/-- Writes that succeed overlay the content of the file, in order. -/
theorem Writes.holds {w w' : World} {addr : ℕ} {pe : Pentry} {file : OpenFile} {content : Bytes}
    {writes : List (Write UInt8)} (hwrites : Writes addr w writes w') (h : w.Holds addr pe file content) :
    w'.Holds addr pe file (Overlay.writeAll 0 content writes) := by
  induction hwrites generalizing content with
  | nil => exact h
  | cons hwrite hret _ ih =>
    rw [Overlay.writeAll_cons]
    exact ih (dfsWrite_holds h hwrite hret)

/-- Writes leave the table, the descriptors and the store alone. -/
theorem Writes.frame {w w' : World} {addr : ℕ} {writes : List (Write UInt8)}
    (hwrites : Writes addr w writes w') : ∃ fs, w' = { w with fs := fs } := by
  induction hwrites with
  | nil => exact ⟨_, rfl⟩
  | cons hwrite _ _ ih =>
    obtain ⟨fs, rfl⟩ := dfsWrite_frame hwrite
    obtain ⟨fs', rfl⟩ := ih
    exact ⟨fs', rfl⟩

/-- A successful release of a handle open for writing uploads the content of the file. -/
theorem dfsRelease_plain {env : Env} {w : World} {addr : ℕ} {pe : Pentry} {file : OpenFile}
    {content : Bytes} {path : CStr} {flags : BitVec 32} {replies : ReleaseReplies} {released : Released}
    (hzlib : env.conf.usesZlib = false) (h : w.Holds addr pe file content) (hflags : isRdonly flags = false)
    (hexclude : pe.exclude = false)
    (hrelease : dfsRelease env w addr path flags replies = .done released) (hret : released.ret = 0) :
    ∃ dict, released.world.remote = w.remote.insert path (storedObject env dict content replies) := by
  cases dfsRelease_outcome hrelease with
  | unusable => simp at hret
  | readOnly _ _ _ hrdonly =>
    rw [hflags] at hrdonly
    cases hrdonly
  | excluded hheap _ _ _ hexcluded =>
    obtain rfl : _ = pe := Option.some.inj (hheap.symm.trans h.heap)
    rw [hexclude] at hexcluded
    cases hexcluded
  | @uploaded _ _ st ok _ hheap _ _ _ _ hupload =>
    obtain rfl : _ = pe := Option.some.inj (hheap.symm.trans h.heap)
    cases ok with
    | false => simp at hret
    | true =>
      have hremote := upload_plain hzlib hupload
      rw [h.unread] at hremote
      exact ⟨_, hremote⟩

/-- The condition under which writing back through a handle loses nothing: with `O_APPEND`, what was
cached or could be downloaded agrees with the content outside the writes; without, the writes reach the
end of the content and cover all of it but zeros. -/
def SparesContent (w : World) (path : CStr) (flags : BitVec 32) (replies : OpenReplies) (obj : Obj)
    (content : Bytes) (writes : List (Write UInt8)) : Prop :=
  if hasFlag flags oAppend then
    AgreeOutside 0 writes ((w.cached path).getD (obj.salvaged content replies.copy.unpack)) content
  else content.length ≤ reach writes ∧ ∀ i, ¬ Covered writes i → content.getD i 0 = 0

/-- An open for writing without `O_CREAT` truncates exactly if it is without `O_APPEND`. -/
theorem getModeFromFlags_write {flags : BitVec 32}
    (hwrite : flags &&& oAccmode = oWronly ∨ flags &&& oAccmode = oRdwr) (hcreat : hasFlag flags oCreat = false) :
    isRdonly flags = false ∧ (getModeFromFlags flags = .creat ↔ hasFlag flags oAppend = false) := by
  have hrdonly : (flags &&& oAccmode == oRdonly) = false := by
    rcases hwrite with h | h <;> rw [h] <;> decide
  refine ⟨hrdonly, ?_⟩
  unfold getModeFromFlags
  cases happend : hasFlag flags oAppend with
  | true => simp
  | false =>
    rcases hwrite with h | h <;> simp [hcreat, h, oWronly, oRdwr, oRdonly]

/-- With encryption and compression off, and no other client at work, the object that a successful
sequence of open, writes and release leaves is the content of the object before, overlaid by the writes,
exactly when the open spared that content. -/
theorem written_back_iff (env : Env) (s : Session) (path : CStr) (flags : BitVec 32) (obj : Obj)
    (content : Bytes) (openReplies : OpenReplies) (opened : Opened) (addr : ℕ) (writes : List (Write UInt8))
    (w : World) (releaseReplies : ReleaseReplies) (released : Released)
    (hzlib : env.conf.usesZlib = false) (haes : env.conf.usesAes = false)
    (hreached : s.Reached env GuardedRuns.unguarded) (hexclude : reMatcher env.conf.regex path = false)
    (hlookup : s.world.remote.lookup path = some obj) (hcontent : obj.decoded env = some content)
    (hwrite : flags &&& oAccmode = oWronly ∨ flags &&& oAccmode = oRdwr)
    (hcreat : hasFlag flags oCreat = false)
    (hopen : dfsOpen env s.world path flags openReplies = .done opened) (hret : opened.ret = 0)
    (hfh : opened.fh = some addr) (hwrites : Writes addr opened.world writes w)
    (hrelease : dfsRelease env w addr path flags releaseReplies = .done released)
    (hreleased : released.ret = 0) :
    ∃ obj', released.world.remote.lookup path = some obj' ∧
      (obj'.content = Overlay.writeAll 0 content writes ↔
        SparesContent s.world path flags openReplies obj content writes) := by
  obtain ⟨hflags, hmode⟩ := getModeFromFlags_write hwrite hcreat
  have hsound := hreached.sound
  obtain ⟨hremote, pe, file, base, hholds, hbase⟩ := dfsOpen_base hsound hopen hret hfh
  have hopened := dfsOpen_sound hsound hopen
  have hincluded : pe.exclude = false := by
    by_contra hexcluded
    have := hopened.exclude path addr pe (dfsOpen_table hopen hfh) hholds.heap (by simpa using hexcluded)
    rw [hexclude] at this
    cases this
  obtain ⟨dict, hstored⟩ := dfsRelease_plain hzlib (hwrites.holds hholds) hflags hincluded hrelease hreleased
  refine ⟨_, by rw [hstored]; exact AList.lookup_insert _, ?_⟩
  have hplain : obj.deciphered env = obj.content := by simp [Obj.deciphered, haes]
  simp only [storedObject, haes, Bool.false_eq_true, if_false, Overlay.writeAll_eq_iff, SparesContent]
  cases hbase with
  | truncated hcreat' =>
    rw [if_neg (by simp [hmode.mp hcreat']), Overlay.agreeOutside_nil_iff]
  | cached hkeep hcached =>
    rw [if_pos (by simpa using mt hmode.mpr hkeep), hcached, Option.getD_some]
  | fetched hkeep hcached hlookup' hfetched =>
    obtain rfl := Option.some.inj (hlookup'.symm.trans hlookup)
    rw [if_pos (by simpa using mt hmode.mpr hkeep), hcached, Option.getD_none,
      Obj.fetched_eq_salvaged hplain hcontent hfetched]

/-- Opening a file with `O_WRONLY` and releasing it without a write empties its object. -/
theorem written_back_emptied :
    ∃ (s : Session) (opened : Opened) (addr : ℕ) (released : Released) (obj obj' : Obj),
      s.Reached Env.plain GuardedRuns.unguarded ∧ s.handles = [] ∧
      s.world.remote.lookup "/f".toList = some obj ∧ obj.decoded Env.plain = some [65] ∧
      dfsOpen Env.plain s.world "/f".toList oWronly (.granted 3) = .done opened ∧ opened.ret = 0 ∧
      opened.fh = some addr ∧ Writes addr opened.world [] opened.world ∧
      dfsRelease Env.plain opened.world addr "/f".toList oWronly (.granted 4) = .done released ∧
      released.ret = 0 ∧ released.world.remote.lookup "/f".toList = some obj' ∧
      obj'.content ≠ Overlay.writeAll 0 [65] [] :=
  ⟨.start .empty (.file "/f".toList [65]), _, _, _, _, _, .start (Session.start_initial ..), rfl, rfl, rfl, rfl,
    rfl, rfl, .nil, rfl, rfl, rfl, by decide⟩

/-- Opening a file with `O_WRONLY|O_APPEND` and overwriting its first byte spares the others. -/
theorem written_back_append :
    ∃ (released : Released) (obj' : Obj), released.world.remote.lookup "/f".toList = some obj' ∧
      (obj'.content = Overlay.writeAll 0 [65, 66] [⟨0, [67]⟩] ↔
        SparesContent (World.start .empty (.file "/f".toList [65, 66])) "/f".toList (oWronly ||| oAppend)
          (.granted 3) ⟨.reg, [65, 66], none, none⟩ [65, 66] [⟨0, [67]⟩]) := by
  refine ⟨_, written_back_iff Env.plain (.start .empty (.file "/f".toList [65, 66])) "/f".toList
    (oWronly ||| oAppend) ⟨.reg, [65, 66], none, none⟩ [65, 66] (.granted 3) _ _ [⟨0, [67]⟩] _ (.granted 4) _
    rfl rfl (.start (Session.start_initial ..)) rfl rfl rfl (.inl rfl) rfl rfl rfl rfl
    (@Writes.cons _ _ _ _ [67] _ ⟨some 1, 1, Nat.one_pos⟩ 1 _ rfl (by decide) .nil) rfl rfl⟩

end Dropletfs
