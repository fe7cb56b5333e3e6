import Dropletfs.LocalFrame
import Dropletfs.Open

/-!
# Releasing a handle

`dfs_release` gives back the reference of the handle. For a handle that was not read-only
and a path that is not excluded it then uploads the cache file from the offset of its
descriptor, compressed first when the configuration says so, and whatever came of that it
marks the entry clean and unlocks it.
-/

namespace Dropletfs

/-- Replies to the calls of `dfs_release`. `fflush` tells how many bytes of the buffered output
reach the scratch file when not all of them do. -/
structure ReleaseReplies where
  fstat : Option FileTimes
  semWait : Bool
  unlock : Bool
  newDict : Bool
  fopenSource : Option ℕ
  fopenScratch : Option ℕ
  zip : ZipIo
  fflush : Option ℕ
  fileno : Bool
  fstatScratch : Bool
  lseekScratch : Bool
  update : Status
  openwrite : Status
  salt : ℕ
  read : ℕ → Option ℕ
  write : ℕ → Status
  close : Reply
  etag : Option CStr
  unlinkScratch : Bool

/-- Every call succeeds, and descriptors from this one on are free. -/
def ReleaseReplies.granted (fd : ℕ) : ReleaseReplies where
  fstat := some ⟨0, 0, 0⟩
  semWait := true
  unlock := true
  newDict := true
  fopenSource := some fd
  fopenScratch := some (fd + 1)
  zip := .clean
  fflush := none
  fileno := true
  fstatScratch := true
  lseekScratch := true
  update := .success
  openwrite := .success
  salt := 0
  read _ := some writeBlockSize
  write _ := .success
  close := .granted
  etag := none
  unlinkScratch := true

/-- What `compress_before_sending` returns and leaves behind. A value of zero means no compression. -/
structure Compressed where
  fd : ℕ
  fs : LocalFs
  dict : Dict
  size : ℕ

/-- `compress_before_sending`. -/
def compressBeforeSending (env : Env) (fs : LocalFs) (source scratch : ℕ) (dict : Dict)
    (replies : ReleaseReplies) : Exec Compressed := do
  let (zret, out) ← zip env.zlib env.conf.zlibLevel (fs.unread source) replies.zip
  let fs := fs.append scratch (flushed replies.fflush out)
  if zret ≠ .ok ∨ replies.fileno = false ∨ replies.fstatScratch = false then return ⟨0, fs, dict, 0⟩
  else
    let size := ((fs.fdContent scratch).getD []).length
    let fs := if replies.lseekScratch then fs.seek scratch 0 else fs
    if replies.update ≠ .success then return ⟨0, fs, dict, 0⟩
    else return ⟨scratch, fs, dict.updateValue "compression".toList "zlib".toList, size⟩

/-- A descriptor to send with the size to announce and the metadata to attach. -/
structure Outgoing where
  fd : ℕ
  size : ℕ
  dict : Dict

/-- The choice of what to send, `none` being an error, and the streams and the scratch file to get
rid of afterwards. -/
structure Packed where
  fs : LocalFs
  outgoing : Option Outgoing
  streams : List ℕ
  scratch : Option CStr

/-- `dfs_release` up to the upload: the cache file, or its compressed form. -/
def pack (env : Env) (fs : LocalFs) (name : CStr) (plain : Outgoing) (replies : ReleaseReplies) :
    Exec Packed :=
  if env.conf.usesZlib = false then .done ⟨fs, some plain, [], none⟩
  else
    let zlocal := scratchName name
    match fs.openFile env.proc name readOnly 0o666 replies.fopenSource with
    | none => .done ⟨fs, none, [], some zlocal⟩
    | some (source, fs) =>
      match fs.openFile env.proc zlocal createTruncated 0o666 replies.fopenScratch with
      | none => .done ⟨fs, some plain, [source], some zlocal⟩
      | some (scratch, fs) => do
        let z ← compressBeforeSending env fs source scratch plain.dict replies
        -- a descriptor of zero counts as no compression, but the label is in the metadata by then
        if 0 < z.fd then return ⟨z.fs, some ⟨z.fd, z.size, z.dict⟩, [source, scratch], some zlocal⟩
        else return ⟨z.fs, some { plain with dict := z.dict }, [source, scratch], some zlocal⟩

/-- What libdroplet stores for a finished transfer. -/
def storedObject (env : Env) (dict : Dict) (bytes : Bytes) (replies : ReleaseReplies) : Obj :=
  if env.conf.usesAes then
    ⟨.reg, env.cipher.encrypt replies.salt bytes,
      some ((dict.updateValue "cipher".toList "yes".toList).updateValue "cipher-type".toList
        "aes-256-cfb".toList), replies.etag⟩
  else ⟨.reg, bytes, some dict, replies.etag⟩

/-- `dpl_openwrite`, `read_write_all_vfile` and `dpl_close`: whether all of them succeed. -/
def push (env : Env) (w : World) (path : CStr) (outgoing : Outgoing) (replies : ReleaseReplies) :
    Bool × World :=
  let w := w.log (.openwrite path env.conf.usesAes outgoing.size)
  if replies.openwrite ≠ .success then (false, w)
  else
    let unread := w.fs.unread outgoing.fd
    let sent := readWriteAllVfile replies.read replies.write unread
    let w := { w with fs := w.fs.advance outgoing.fd (unread.length - sent.unread.length) }
    let obj := storedObject env outgoing.dict sent.sent replies
    let w := if replies.close.applied then { w with remote := w.remote.insert path obj } else w
    (sent.ret ≠ -1 ∧ replies.close.status = .success, w)

/-- The label `err` of `dfs_release`: rewind the cache file, drop the streams and the scratch file.
Rewinding an open regular file cannot fail. -/
def cleanUp (fs : LocalFs) (fd : ℕ) (streams : List ℕ) (scratch : Option CStr) (unlinkReply : Bool) :
    LocalFs :=
  let fs := (fs.closeAll streams).seek fd 0
  match scratch with
  | none => fs
  | some name => fs.unlink name unlinkReply

/-- Send what was chosen, if anything was. -/
def pushPacked (env : Env) (w : World) (path : CStr) (packed : Packed) (replies : ReleaseReplies) :
    Bool × World :=
  let w := { w with fs := packed.fs }
  match packed.outgoing with
  | none => (false, w)
  | some outgoing => push env w path outgoing replies

/-- The part of `dfs_release` that uploads the cache file: whether it succeeded. -/
def upload (env : Env) (w : World) (path : CStr) (fd : ℕ) (st : Stat) (replies : ReleaseReplies) :
    Exec (Bool × World) :=
  if replies.newDict = false then .undefined
  else do
    let dict := fillMetadataFromStat Dict.new st
    let packed ← pack env w.fs (cacheName env.conf path) ⟨fd, st.size.toNat, dict⟩ replies
    let pushed := pushPacked env w path packed replies
    let fs := cleanUp pushed.2.fs fd packed.streams packed.scratch replies.unlinkScratch
    return (pushed.1, { pushed.2 with fs := fs })

/-- The label `exc` of `dfs_release`. -/
def Pentry.markClean (pe : Pentry) (unlock : Bool) : Pentry :=
  { pe with flag := .clean, locked := if unlock then false else pe.locked }

/-- What `dfs_release` returns and leaves. -/
structure Released where
  ret : ℤ
  world : World

/-- `dfs_release` once `fstat` has returned. -/
def releaseCounted (env : Env) (w : World) (addr : ℕ) (pe : Pentry) (path : CStr) (flags : BitVec 32)
    (st : Stat) (replies : ReleaseReplies) : Exec Released := do
  let pe ← pe.decRefcount replies.semWait
  if isRdonly flags then return ⟨0, w.put addr pe⟩
  else if pe.exclude then return ⟨0, w.put addr (pe.markClean replies.unlock)⟩
  else
    let (ok, w) ← upload env w path pe.fd.toNat st replies
    return ⟨if ok then 0 else -1, w.put addr (pe.markClean replies.unlock)⟩

/-- `dfs_release` of a handle on the entry at an address. -/
def dfsRelease (env : Env) (w : World) (addr : ℕ) (path : CStr) (flags : BitVec 32)
    (replies : ReleaseReplies) : Exec Released :=
  match w.heap addr with
  | none => .undefined
  | some pe =>
    if pe.fd < 0 then .done ⟨-1, w.put addr (pe.markClean replies.unlock)⟩
    else
      match w.fs.fstat pe.fd replies.fstat with
      | none =>
        let w := { w with fs := cleanUp w.fs pe.fd.toNat [] none replies.unlinkScratch }
        .done ⟨-1, w.put addr (pe.markClean replies.unlock)⟩
      | some st => releaseCounted env w addr pe path flags st replies

/-- Sending reads from the descriptor, and otherwise changes the store and the record of calls only. -/
theorem push_frame (env : Env) (w : World) (path : CStr) (outgoing : Outgoing) (replies : ReleaseReplies) :
    ∃ fs remote trace, (push env w path outgoing replies).2 =
        { w with fs := fs, remote := remote, trace := trace } ∧
      (fs = w.fs ∨ ∃ count, fs = w.fs.advance outgoing.fd count) := by
  unfold push
  simp only
  split
  · exact ⟨w.fs, w.remote, _, rfl, .inl rfl⟩
  · split
    · exact ⟨_, _, _, rfl, .inr ⟨_, rfl⟩⟩
    · exact ⟨_, w.remote, _, rfl, .inr ⟨_, rfl⟩⟩

/-- A transfer is recorded with the size that was announced. -/
theorem push_trace (env : Env) (w : World) (path : CStr) (outgoing : Outgoing) (replies : ReleaseReplies) :
    (push env w path outgoing replies).2.trace =
      w.trace ++ [.openwrite path env.conf.usesAes outgoing.size] := by
  unfold push
  simp only
  split
  · rfl
  · split
    · rfl
    · rfl

/-- Compression returns zero or the descriptor of the scratch file. -/
theorem compressBeforeSending_fd {env : Env} {fs : LocalFs} {source scratch : ℕ} {dict : Dict}
    {replies : ReleaseReplies} {z : Compressed}
    (h : compressBeforeSending env fs source scratch dict replies = .done z) : z.fd = 0 ∨ z.fd = scratch := by
  obtain ⟨⟨zret, out⟩, -, h⟩ := Exec.bind_eq_done.mp h
  simp only [pure] at h
  split at h
  · obtain rfl := Exec.done.inj h
    exact .inl rfl
  · split at h
    · obtain rfl := Exec.done.inj h
      exact .inl rfl
    · obtain rfl := Exec.done.inj h
      exact .inr rfl

/-- What is sent comes from the given descriptor or from one of the streams. -/
theorem pack_outgoing {env : Env} {fs : LocalFs} {name : CStr} {plain outgoing : Outgoing}
    {replies : ReleaseReplies} {packed : Packed} (h : pack env fs name plain replies = .done packed)
    (houtgoing : packed.outgoing = some outgoing) :
    outgoing.fd = plain.fd ∨ outgoing.fd ∈ packed.streams := by
  unfold pack at h
  split at h
  · obtain rfl := Exec.done.inj h
    exact .inl (congrArg Outgoing.fd (Option.some.inj houtgoing)).symm
  · simp only at h
    split at h
    · obtain rfl := Exec.done.inj h
      cases houtgoing
    · split at h
      · obtain rfl := Exec.done.inj h
        exact .inl (congrArg Outgoing.fd (Option.some.inj houtgoing)).symm
      · rename_i scratch _ _
        obtain ⟨z, hz, h⟩ := Exec.bind_eq_done.mp h
        simp only [pure] at h
        split at h
        · rename_i hpos
          obtain rfl := Exec.done.inj h
          obtain rfl := Option.some.inj houtgoing
          obtain hzero | hscratch := compressBeforeSending_fd hz
          · omega
          · exact .inr (by simp [hscratch])
        · obtain rfl := Exec.done.inj h
          exact .inl (congrArg Outgoing.fd (Option.some.inj houtgoing)).symm

/-- Rewinding and closing forget how far was read. -/
theorem cleanUp_advance (fs : LocalFs) {sent fd : ℕ} {streams : List ℕ} (count : ℕ) (scratch : Option CStr)
    (reply : Bool) (h : sent = fd ∨ sent ∈ streams) :
    cleanUp (fs.advance sent count) fd streams scratch reply = cleanUp fs fd streams scratch reply := by
  have hrewound : ((fs.advance sent count).closeAll streams).seek fd 0 = (fs.closeAll streams).seek fd 0 := by
    rw [LocalFs.closeAll_eq, LocalFs.closeAll_eq]
    simp only [LocalFs.advance, LocalFs.seek, LocalFs.mk.injEq, true_and, and_true]
    funext other
    simp only [Function.update_apply]
    by_cases hfd : sent = fd
    · subst hfd
      cases hfile : fs.files sent with
      | none => grind
      | some file => simp only [Option.map_some]; grind
    · grind
  unfold cleanUp
  rw [hrewound]

/-- Sending what was chosen leaves the table and the entries alone, and cleaning up undoes what it did to
the descriptors. -/
theorem pushPacked_frame {env : Env} {fs : LocalFs} {name : CStr} {plain : Outgoing} {replies : ReleaseReplies}
    {packed : Packed} (w : World) (path : CStr) (h : pack env fs name plain replies = .done packed) :
    ∃ fs remote trace, (pushPacked env w path packed replies).2 =
        { w with fs := fs, remote := remote, trace := trace } ∧
      cleanUp fs plain.fd packed.streams packed.scratch replies.unlinkScratch =
        cleanUp packed.fs plain.fd packed.streams packed.scratch replies.unlinkScratch := by
  unfold pushPacked
  cases houtgoing : packed.outgoing with
  | none => exact ⟨_, w.remote, w.trace, rfl, rfl⟩
  | some outgoing =>
    obtain ⟨fs', remote, trace, hpush, hfs⟩ := push_frame env { w with fs := packed.fs } path outgoing replies
    refine ⟨fs', remote, trace, hpush, ?_⟩
    rcases hfs with rfl | ⟨count, rfl⟩
    · rfl
    · exact cleanUp_advance packed.fs count packed.scratch replies.unlinkScratch (pack_outgoing h houtgoing)

/-- An upload is a choice of what to send, followed by sending it and cleaning up. -/
theorem upload_eq_done {env : Env} {w w' : World} {path : CStr} {fd : ℕ} {st : Stat}
    {replies : ReleaseReplies} {ok : Bool} (h : upload env w path fd st replies = .done (ok, w')) :
    ∃ packed, pack env w.fs (cacheName env.conf path) ⟨fd, st.size.toNat, fillMetadataFromStat Dict.new st⟩
        replies = .done packed ∧
      ok = (pushPacked env w path packed replies).1 ∧
      w' = { (pushPacked env w path packed replies).2 with
        fs := cleanUp packed.fs fd packed.streams packed.scratch replies.unlinkScratch } := by
  unfold upload at h
  split at h
  · cases h
  · obtain ⟨packed, hpack, hdone⟩ := Exec.bind_eq_done.mp h
    simp only [pure, Exec.done.injEq, Prod.mk.injEq] at hdone
    obtain ⟨rfl, rfl⟩ := hdone
    obtain ⟨fs, remote, trace, hpush, hclean⟩ := pushPacked_frame w path hpack
    exact ⟨packed, hpack, rfl, by rw [hpush, ← hclean]⟩

/-- An upload leaves the table and the entries alone. -/
theorem upload_frame {env : Env} {w w' : World} {path : CStr} {fd : ℕ} {st : Stat} {replies : ReleaseReplies}
    {ok : Bool} (h : upload env w path fd st replies = .done (ok, w')) :
    ∃ fs remote trace, w' = { w with fs := fs, remote := remote, trace := trace } := by
  obtain ⟨packed, hpack, -, rfl⟩ := upload_eq_done h
  obtain ⟨fs, remote, trace, hpush, -⟩ := pushPacked_frame w path hpack
  exact ⟨_, remote, trace, by rw [hpush]⟩

/-- Sending does not look at the entries. -/
theorem pushPacked_heap (env : Env) (w : World) (path : CStr) (packed : Packed) (replies : ReleaseReplies)
    (heap : ℕ → Option Pentry) :
    pushPacked env { w with heap := heap } path packed replies =
      ((pushPacked env w path packed replies).1, { (pushPacked env w path packed replies).2 with heap := heap }) := by
  unfold pushPacked
  cases packed.outgoing with
  | none => rfl
  | some outgoing =>
    simp only [push]
    split
    · rfl
    · split <;> rfl

/-- The upload does not look at the entries. -/
theorem upload_heap {env : Env} {w w' : World} {path : CStr} {fd : ℕ} {st : Stat} {replies : ReleaseReplies} {ok : Bool}
    (heap : ℕ → Option Pentry) (h : upload env w path fd st replies = .done (ok, w')) :
    upload env { w with heap := heap } path fd st replies = .done (ok, { w' with heap := heap }) := by
  unfold upload at h ⊢
  split at h
  · cases h
  · rename_i hdict
    obtain ⟨packed, hpack, hdone⟩ := Exec.bind_eq_done.mp h
    obtain ⟨rfl, rfl⟩ := Prod.mk.inj (Exec.done.inj hdone)
    rw [if_neg hdict]
    simp only [hpack, Exec.done_bind, pushPacked_heap]
    rfl

/-- The ways `dfs_release` can return. -/
inductive ReleaseOutcome (env : Env) (w : World) (addr : ℕ) (path : CStr) (flags : BitVec 32)
    (replies : ReleaseReplies) : Released → Prop
  | unusable {pe : Pentry} {fs : LocalFs} : w.heap addr = some pe →
      w.fs.fstat pe.fd replies.fstat = none → fs = w.fs ∨ 0 ≤ pe.fd ∧ fs = w.fs.seek pe.fd.toNat 0 →
      ReleaseOutcome env w addr path flags replies
        ⟨-1, { w with fs := fs }.put addr (pe.markClean replies.unlock)⟩
  | readOnly {pe pe' : Pentry} {st : Stat} : w.heap addr = some pe →
      w.fs.fstat pe.fd replies.fstat = some st → pe.decRefcount replies.semWait = .done pe' →
      isRdonly flags = true → ReleaseOutcome env w addr path flags replies ⟨0, w.put addr pe'⟩
  | excluded {pe pe' : Pentry} {st : Stat} : w.heap addr = some pe →
      w.fs.fstat pe.fd replies.fstat = some st → pe.decRefcount replies.semWait = .done pe' →
      isRdonly flags = false → pe.exclude = true →
      ReleaseOutcome env w addr path flags replies ⟨0, w.put addr (pe'.markClean replies.unlock)⟩
  | uploaded {pe pe' : Pentry} {st : Stat} {ok : Bool} {w' : World} : w.heap addr = some pe →
      w.fs.fstat pe.fd replies.fstat = some st → pe.decRefcount replies.semWait = .done pe' →
      isRdonly flags = false → pe.exclude = false →
      upload env w path pe.fd.toNat st replies = .done (ok, w') →
      ReleaseOutcome env w addr path flags replies
        ⟨if ok then 0 else -1, w'.put addr (pe'.markClean replies.unlock)⟩

/-- Giving a reference back changes the count only. -/
theorem Pentry.decRefcount_eq {pe pe' : Pentry} {reply : Bool} (h : pe.decRefcount reply = .done pe') :
    pe' = { pe with refcount := pe.refcount - if reply then 1 else 0 } ∧ (reply = true → 0 < pe.refcount) := by
  cases reply with
  | false =>
    obtain rfl := Exec.done.inj h
    exact ⟨rfl, fun hfalse => by cases hfalse⟩
  | true =>
    simp only [decRefcount, if_true] at h
    split at h
    · cases h
    · rename_i hzero
      obtain rfl := Exec.done.inj h
      exact ⟨rfl, fun _ => Nat.pos_of_ne_zero hzero⟩

/-- `dfs_release` returns in one of these ways. -/
theorem dfsRelease_outcome {env : Env} {w : World} {addr : ℕ} {path : CStr} {flags : BitVec 32}
    {replies : ReleaseReplies} {released : Released}
    (h : dfsRelease env w addr path flags replies = .done released) :
    ReleaseOutcome env w addr path flags replies released := by
  unfold dfsRelease at h
  split at h
  · cases h
  · rename_i pe hheap
    split at h
    · rename_i hfd
      obtain rfl := Exec.done.inj h
      exact .unusable hheap (by simp [LocalFs.fstat, hfd]) (.inl rfl)
    · rename_i hfd
      split at h
      · rename_i hstat
        obtain rfl := Exec.done.inj h
        exact .unusable hheap hstat (.inr ⟨by omega, rfl⟩)
      · rename_i st hstat
        obtain ⟨pe', hwait, hrest⟩ := Exec.bind_eq_done.mp h
        obtain ⟨heq, -⟩ := Pentry.decRefcount_eq hwait
        have hexclude : pe'.exclude = pe.exclude := by rw [heq]
        have hfd : pe'.fd = pe.fd := by rw [heq]
        simp only [pure] at hrest
        split at hrest
        · rename_i hrdonly
          obtain rfl := Exec.done.inj hrest
          exact .readOnly hheap hstat hwait hrdonly
        · rename_i hrdonly
          simp only [Bool.not_eq_true] at hrdonly
          rw [hexclude, hfd] at hrest
          split at hrest
          · rename_i hexcluded
            obtain rfl := Exec.done.inj hrest
            exact .excluded hheap hstat hwait hrdonly hexcluded
          · rename_i hexcluded
            simp only [Bool.not_eq_true] at hexcluded
            obtain ⟨⟨ok, w'⟩, hupload, hdone⟩ := Exec.bind_eq_done.mp hrest
            obtain rfl := Exec.done.inj hdone
            exact .uploaded hheap hstat hwait hrdonly hexcluded hupload

/-- The entry after `dfs_release`: counted down if the file could be examined and the semaphore
waited for, and unlocked unless the handle was read-only and the file could be examined. -/
theorem dfsRelease_entry {env : Env} {w : World} {addr : ℕ} {path : CStr} {flags : BitVec 32}
    {replies : ReleaseReplies} {released : Released} {pe : Pentry} (hheap : w.heap addr = some pe)
    (h : dfsRelease env w addr path flags replies = .done released) :
    released.world.table = w.table ∧ ∃ pe', released.world.heap addr = some pe' ∧
      pe'.refcount = pe.refcount -
        (if (w.fs.fstat pe.fd replies.fstat).isSome ∧ replies.semWait then 1 else 0) ∧
      ((w.fs.fstat pe.fd replies.fstat).isSome = true → replies.semWait = true → 0 < pe.refcount) ∧
      pe'.locked = if (w.fs.fstat pe.fd replies.fstat).isSome ∧ isRdonly flags then pe.locked
        else if replies.unlock then false else pe.locked := by
  cases dfsRelease_outcome h with
  | unusable hheap' hstat _ =>
    obtain rfl : _ = pe := Option.some.inj (hheap'.symm.trans hheap)
    exact ⟨rfl, _, World.put_heap_self .., by simp [hstat, Pentry.markClean], by simp [hstat],
      by simp [hstat, Pentry.markClean]⟩
  | readOnly hheap' hstat hwait hrdonly =>
    obtain rfl : _ = pe := Option.some.inj (hheap'.symm.trans hheap)
    obtain ⟨rfl, hpos⟩ := Pentry.decRefcount_eq hwait
    exact ⟨rfl, _, World.put_heap_self .., by simp [hstat], fun _ => hpos, by simp [hstat, hrdonly]⟩
  | excluded hheap' hstat hwait hrdonly =>
    obtain rfl : _ = pe := Option.some.inj (hheap'.symm.trans hheap)
    obtain ⟨rfl, hpos⟩ := Pentry.decRefcount_eq hwait
    exact ⟨rfl, _, World.put_heap_self .., by simp [hstat, Pentry.markClean], fun _ => hpos,
      by simp [hrdonly, Pentry.markClean]⟩
  | uploaded hheap' hstat hwait hrdonly _ hupload =>
    obtain rfl : _ = pe := Option.some.inj (hheap'.symm.trans hheap)
    obtain ⟨rfl, hpos⟩ := Pentry.decRefcount_eq hwait
    obtain ⟨fs, remote, trace, rfl⟩ := upload_frame hupload
    exact ⟨rfl, _, World.put_heap_self .., by simp [hstat, Pentry.markClean], fun _ => hpos,
      by simp [hrdonly, Pentry.markClean]⟩

end Dropletfs
