import Dropletfs.Create
import Dropletfs.LocalFrame

/-!
# Creating a file that is not there

A path that is on neither side can be created with every access mode. `O_APPEND` is tested
before `O_CREAT`, though, so a create that appends fetches an object that does not exist.
-/

namespace Dropletfs

/-- The store has nothing under the path, and the table no entry or one that was never opened. -/
structure World.Creatable (w : World) (path : CStr) : Prop where
  absent : w.remote.ftype path = none
  entry : w.table path = none ∨ ∃ addr pe, w.table path = some addr ∧ w.heap addr = some pe ∧
    pe.ondisk = .unset ∧ pe.fd = -1 ∧ pe.metadata = none ∧ pe.locked = false

/-- The lookup of the path is answered with what the store knows, and the other calls succeed: an unused descriptor
is picked for the cache file, and the last attempt to create the object is a success. -/
structure CreateReplies.Succeed (env : Env) (w : World) (path : CStr) (replies : CreateReplies) : Prop where
  namei : ∀ i, replies.namei i = .success ∨ replies.namei i = .enoent
  alloc : replies.opening.alloc = true
  keyDup : replies.opening.keyDup = true
  lock : replies.opening.lock = true
  treeDup : replies.opening.treeDup = true
  openCache : ∃ fd, replies.opening.openCache = some fd ∧ w.fs.files fd = none
  fstat : ∃ times, replies.fstat = some times
  newDict : replies.newDict = true
  mknod : (dfsMknodTimeout env.conf.maxRetry replies.mknod path w.remote).1 = .success

/-- The create succeeded, and left an entry that is open on its cache file. -/
def Opened.IsCreated (created : Opened) : Prop :=
  created.ret = 0 ∧ ∃ addr pe, created.fh = some addr ∧ created.world.heap addr = some pe ∧
    0 ≤ pe.fd ∧ pe.ondisk = .localFile

/-- What is not on the store is reported as such when the lookup answers with what the store knows. -/
theorem dfsNameiTimeout_absent {maxRetry : ℤ} {replies : ℕ → Status} {path : CStr} {r : Remote}
    (habsent : r.ftype path = none) (hreplies : ∀ i, replies i = .success ∨ replies i = .enoent) :
    (dfsNameiTimeout maxRetry replies path r).1 = .enoent := by
  obtain ⟨i, hi⟩ := readTimeout_eq_attempt maxRetry Status.retriable fun i => dplNamei (replies i) path r
  rw [dfsNameiTimeout, hi]
  simp only [dplNamei, habsent, Option.isSome_none]
  cases hreplies i with
  | inl hsuccess => simp only [hsuccess, Status.onExisting, and_self, if_true]
  | inr henoent => simp only [henoent, Status.onExisting, reduceCtorEq, false_and, if_false]

/-- The entry that `dfs_open` finds or makes was never opened. -/
theorem World.Creatable.found {w : World} {path : CStr} {replies : OpenReplies} (h : w.Creatable path)
    (halloc : replies.alloc = true) (hkey : replies.keyDup = true) :
    ∃ addr w' pe, Found w path replies addr w' pe ∧ w'.fs = w.fs ∧ w'.remote = w.remote ∧
      pe.fd = -1 ∧ pe.metadata = none ∧ pe.locked = false := by
  obtain hnone | ⟨addr, pe, htable, hheap, -, hfd, hmetadata, hlocked⟩ := h.entry
  · have hnew : findOrPopulate w path replies =
        some (w.insert path { pentryNew with path := if replies.pathDup then some path else none }) := by
      simp only [findOrPopulate, hnone, populateHash, halloc, hkey, Bool.true_eq_false, or_self, if_false]
    exact ⟨_, _, _, ⟨hnew, Function.update_self ..⟩, rfl, rfl, rfl, rfl, rfl⟩
  · have hsame : findOrPopulate w path replies = some (addr, w) := by
      simp only [findOrPopulate, htable]
    exact ⟨addr, w, pe, ⟨hsame, hheap⟩, rfl, rfl, hfd, hmetadata, hlocked⟩

/-- A cache file opened for a new file is empty, under the descriptor that was picked. -/
theorem openCreat_granted {env : Env} {fs : LocalFs} {pe : Pentry} {path : CStr} {replies : OpenReplies} {fd : ℕ}
    (htree : replies.treeDup = true) (hopen : replies.openCache = some fd) (hfree : fs.files fd = none) :
    ∃ fs', openCreat env fs pe path (openFlags .creat) replies =
        (0, fs', { pe with fd := fd, flag := .dirty }) ∧ fs'.fdContent fd = some [] := by
  obtain ⟨name, hname⟩ : ∃ name, buildCacheTree env.conf path replies.treeDup = some name :=
    ⟨_, by rw [buildCacheTree, if_pos htree]⟩
  obtain ⟨fs', hfile⟩ : ∃ fs', fs.openFile env.proc name (openFlags .creat) 0o644 replies.openCache =
      some (fd, fs') := by
    simp only [LocalFs.openFile, hopen, hfree, Option.isSome_none, Bool.false_eq_true, if_false, openFlags, if_true]
    cases fs.resolve name with
    | some ino => exact ⟨_, rfl⟩
    | none => exact ⟨_, rfl⟩
  exact ⟨fs', by simp only [openCreat, hname, hfile], LocalFs.openFile_trunc rfl hfile⟩

/-- Without `O_APPEND` every create is opened on an empty cache file. -/
theorem getModeFromFlags_creat {flags : BitVec 32} (hcreat : hasFlag flags oCreat = true)
    (happend : hasFlag flags oAppend = false) : getModeFromFlags flags = .creat := by
  simp only [getModeFromFlags, happend, hcreat, Bool.false_eq_true, if_false, if_true]

section Creatable

variable {env : Env} {w : World} {path : CStr} {mode flags : BitVec 32} {replies : CreateReplies}

/-- Once the checks are passed, `dfs_create` goes on to the open. -/
theorem dfsCreate_checked (habsent : w.remote.ftype path = none) (hreg : sIsreg mode = true)
    (hnamei : ∀ i, replies.namei i = .success ∨ replies.namei i = .enoent) :
    dfsCreate env w path mode flags replies =
      createOpened env w path mode flags (reMatcher env.conf.regex path) replies := by
  have hstatus : (dfsNameiTimeout env.conf.maxRetry replies.namei path w.remote).1 = .enoent :=
    dfsNameiTimeout_absent habsent hnamei
  simp only [dfsCreate, hreg, hstatus, Bool.true_eq_false, if_false, reduceCtorEq, ne_eq, not_false_eq_true,
    not_true_eq_false, and_false]
  cases reMatcher env.conf.regex path <;> rfl

/-- A create without `O_APPEND` opens the entry on an empty cache file. -/
theorem dfsOpen_creatable (h : w.Creatable path) (hreplies : replies.Succeed env w path)
    (hmode : getModeFromFlags flags = .creat) :
    ∃ addr w' pe, dfsOpen env w path flags replies.opening = .done ⟨0, some addr, w'⟩ ∧
      w'.heap addr = some pe ∧ w'.remote = w.remote ∧ 0 ≤ pe.fd ∧ pe.metadata = none ∧
      pe.ondisk = .localFile ∧ w'.fs.fdContent pe.fd.toNat = some [] := by
  obtain ⟨fd, hopen, hfree⟩ := hreplies.openCache
  obtain ⟨addr, w', pe, hfound, hfs, hremote, -, hmetadata, hlocked⟩ := h.found hreplies.alloc hreplies.keyDup
  rw [← hfs] at hfree
  have hcount : (pe.incRefcount replies.opening.semPost).locked = false ∧
      (pe.incRefcount replies.opening.semPost).metadata = none := by
    cases replies.opening.semPost with
    | false => exact ⟨hlocked, hmetadata⟩
    | true => exact ⟨hlocked, hmetadata⟩
  obtain ⟨fs', hcreat, hcontent⟩ : ∃ fs', openCreat env w'.fs
      { pe.incRefcount replies.opening.semPost with locked := true } path (openFlags .creat) replies.opening =
        (0, fs', { pe.incRefcount replies.opening.semPost with locked := true, fd := fd, flag := .dirty }) ∧
      fs'.fdContent fd = some [] := openCreat_granted hreplies.treeDup hopen hfree
  let opened := { pe.incRefcount replies.opening.semPost with locked := true, fd := fd, flag := .dirty }
  refine ⟨addr, { w' with fs := fs' }.put addr { opened with ondisk := .localFile },
    { opened with ondisk := .localFile }, ?_, World.put_heap_self .., hremote, Int.natCast_nonneg fd, hcount.2, rfl,
    hcontent⟩
  simp only [dfsOpen, hfound.lookup, hfound.heap, lockAndOpen, hmode, reduceCtorEq, if_false, hreplies.lock,
    Bool.true_eq_false, hcount.1, Bool.false_eq_true, openEntry, openByMode, hcreat]
  rfl

/-- An entry that is open on an empty cache file, and holds no metadata, is turned into the entry of a new file. -/
theorem createEntry_returns {addr : ℕ} {pe : Pentry} {exclude : Bool} (hfd : 0 ≤ pe.fd)
    (hmetadata : pe.metadata = none) (hcontent : w.fs.fdContent pe.fd.toNat = some [])
    (hfstat : ∃ times, replies.fstat = some times) (hdict : replies.newDict = true)
    (hmknod : (dfsMknodTimeout env.conf.maxRetry replies.mknod path w.remote).1 = .success) :
    ∃ created, createEntry env w addr pe path mode exclude replies = .done created ∧ created.ret = 0 := by
  obtain ⟨times, htimes⟩ := hfstat
  obtain ⟨st, hst⟩ := LocalFs.fstat_empty times hfd hcontent
  have hopened : pe.fd ≠ -1 := by omega
  simp only [createEntry, hopened, if_false, World.put, htimes, hst, createObject, hmetadata, Option.isSome_none,
    Bool.false_eq_true, hdict, Bool.true_eq_false, or_self]
  cases exclude with
  | true => exact ⟨_, rfl, rfl⟩
  | false =>
    refine ⟨_, rfl, ?_⟩
    simp only [hmknod, if_true]

/-- A create without `O_APPEND` succeeds. -/
theorem dfsCreate_succeeds (h : w.Creatable path) (hreg : sIsreg mode = true)
    (hmode : getModeFromFlags flags = .creat) (hreplies : replies.Succeed env w path) :
    ∃ created, dfsCreate env w path mode flags replies = .done created ∧ created.IsCreated := by
  obtain ⟨addr, w', pe, hopen, hheap, hremote, hfd, hmetadata, hondisk, hcontent⟩ :=
    dfsOpen_creatable h hreplies hmode
  obtain ⟨created, hentry, hret⟩ : ∃ created,
      createEntry env w' addr pe path mode (reMatcher env.conf.regex path) replies = .done created ∧
        created.ret = 0 :=
    createEntry_returns hfd hmetadata hcontent hreplies.fstat hreplies.newDict (hremote ▸ hreplies.mknod)
  obtain ⟨hfh, fs, remote, trace, metadata, -, -, hworld⟩ := createEntry_frame hentry
  refine ⟨created, ?_, hret, addr, { pe with exclude := reMatcher env.conf.regex path, metadata := metadata },
    hfh, ?_, hfd, hondisk⟩
  · rw [dfsCreate_checked h.absent hreg hreplies.namei]
    simp only [createOpened, hopen, Exec.done_bind, hheap, hentry]
  · rw [hworld]
    exact World.put_heap_self ..

/-- Nothing is downloaded for a path that is not on the store. -/
theorem dfsGetLocalCopy_absent {fs : LocalFs} {r : Remote} {pe : Pentry} {openFlags : OpenFlags}
    {copy : CopyReplies} (habsent : r.ftype path = none) :
    dfsGetLocalCopy env fs r pe path openFlags copy = .done (-1, fs, pe) := by
  have hstatus : (dfsNameiTimeout env.conf.maxRetry copy.namei path r).1 ≠ .success := by
    intro hsuccess
    have hfound := (dfsNameiTimeout_success env.conf.maxRetry copy.namei path r hsuccess).2
    rw [habsent] at hfound
    cases hfound
  simp only [dfsGetLocalCopy, downloadHeaders, hstatus, ne_eq, not_false_eq_true, if_true]

/-- An entry without a descriptor is not opened when there is nothing to download. -/
theorem openRdwr_absent {fs : LocalFs} {r : Remote} {pe : Pentry} {replies : OpenReplies}
    (habsent : r.ftype path = none) (hfd : pe.fd = -1) :
    openByMode env fs r pe path .rdwr replies = .done (-1, fs, pe) := by
  have hnone : pe.fd < 0 := by omega
  simp only [openByMode, openWronly, openExisting, hnone, if_true, dfsGetLocalCopy_absent habsent, Exec.done_bind]
  rfl

/-- An open with `O_APPEND` of what is not there leaves the entry without a descriptor. -/
theorem dfsOpen_appending {opened : Opened} {addr : ℕ} {pe : Pentry} (h : w.Creatable path)
    (hreplies : replies.Succeed env w path) (hmode : getModeFromFlags flags = .rdwr)
    (hopen : dfsOpen env w path flags replies.opening = .done opened) (hfh : opened.fh = some addr)
    (hheap : opened.world.heap addr = some pe) : pe.fd = -1 := by
  obtain ⟨addr', w', pe', hfound', -, hremote, hfd, -, -⟩ := h.found hreplies.alloc hreplies.keyDup
  have habsent : w'.remote.ftype path = none := hremote ▸ h.absent
  -- the entry that is worked on has no descriptor, and the fetch gives it none
  have hnothing : ∀ {addr₁ w₁ pe₁}, Found w path replies.opening addr₁ w₁ pe₁ →
      openByMode env w₁.fs w₁.remote (pe₁.held replies.opening.semPost .rdwr) path .rdwr replies.opening =
        .done (-1, w₁.fs, pe₁.held replies.opening.semPost .rdwr) ∧
      (pe₁.held replies.opening.semPost .rdwr).fd = -1 := by
    intro addr₁ w₁ pe₁ hfound
    have hsame := hfound.lookup.symm.trans hfound'.lookup
    simp only [Option.some.injEq, Prod.mk.injEq] at hsame
    obtain ⟨rfl, rfl⟩ := hsame
    obtain rfl : pe₁ = pe' := Option.some.inj (hfound.heap.symm.trans hfound'.heap)
    have hheld : (pe₁.held replies.opening.semPost .rdwr).fd = -1 := by
      simp only [Pentry.held, reduceCtorEq, if_false]
      cases replies.opening.semPost with
      | false => exact hfd
      | true => exact hfd
    exact ⟨openRdwr_absent habsent hheld, hheld⟩
  cases dfsOpen_outcome hopen with
  | noEntry => cases hfh
  | lockFailed _ _ hlock =>
    rw [hreplies.lock] at hlock
    cases hlock
  | failed hfound _ hfailed =>
    obtain rfl := Option.some.inj hfh
    rw [World.put_heap_self] at hheap
    obtain rfl := Option.some.inj hheap
    obtain ⟨hrun, hnone⟩ := hnothing hfound
    rw [hmode, hrun, Exec.done.injEq, Prod.mk.injEq, Prod.mk.injEq] at hfailed
    exact hfailed.2.2 ▸ hnone
  | succeeded hfound _ hsucceeded hret =>
    rw [hmode, (hnothing hfound).1, Exec.done.injEq, Prod.mk.injEq] at hsucceeded
    exact absurd hsucceeded.1.symm hret

/-- A create with `O_APPEND` asks for an object that is not there, and is left without a descriptor. -/
theorem dfsCreate_appending (h : w.Creatable path)
    (hmode : getModeFromFlags flags = .rdwr) (hreplies : replies.Succeed env w path) {created : Opened}
    (hdone : dfsCreate env w path mode flags replies = .done created) : ¬ created.IsCreated := by
  rintro ⟨-, addr, pe, hfh, hheap, hfd, -⟩
  cases dfsCreate_outcome hdone with
  | refused => cases hfh
  | noEntry => cases hfh
  | @entry opened _ addr' pe' _ hopened hfh' hheap' hentry =>
    obtain ⟨hsame, fs, remote, trace, metadata, -, -, hworld⟩ := createEntry_frame hentry
    obtain rfl : addr' = addr := Option.some.inj (hsame ▸ hfh)
    rw [hworld, World.put_heap_self] at hheap
    obtain rfl := Option.some.inj hheap
    -- the descriptor of the entry is the one `dfs_open` left, which has none to take
    have hnone := dfsOpen_appending h hreplies hmode hopened hfh' hheap'
    simp only [hnone] at hfd
    omega

end Creatable

/-- A file that is not there is created exactly when the flags do not ask for appending. -/
theorem created_iff (env : Env) (w : World) (path : CStr) (mode flags : BitVec 32) (replies : CreateReplies)
    (h : w.Creatable path) (hreg : sIsreg mode = true) (hcreat : hasFlag flags oCreat = true)
    (hreplies : replies.Succeed env w path) :
    (∃ created, dfsCreate env w path mode flags replies = .done created ∧ created.IsCreated) ↔
      hasFlag flags oAppend = false := by
  cases happend : hasFlag flags oAppend with
  | false =>
    simp only [iff_true]
    exact dfsCreate_succeeds h hreg (getModeFromFlags_creat hcreat happend) hreplies
  | true =>
    have hmode : getModeFromFlags flags = .rdwr := by simp only [getModeFromFlags, happend, if_true]
    simp only [Bool.true_eq_false, iff_false, not_exists, not_and]
    exact fun created hdone => dfsCreate_appending h hmode hreplies hdone

/-- A new file can be created in an empty state. -/
theorem World.creatable_start (fs : LocalFs) {path : CStr} (h : path ≠ "/".toList) :
    (start fs ∅).Creatable path where
  absent := by simp only [Remote.ftype, h, if_false]; rfl
  entry := .inl rfl

/-- Every call of a create is granted. -/
theorem CreateReplies.granted_succeed (env : Env) (path : CStr) (fd : ℕ) :
    (CreateReplies.granted fd).Succeed env (.start .empty ∅) path where
  namei _ := .inl rfl
  alloc := rfl
  keyDup := rfl
  lock := rfl
  treeDup := rfl
  openCache := ⟨fd, rfl, rfl⟩
  fstat := ⟨_, rfl⟩
  newDict := rfl
  mknod := congrArg Prod.fst (Attempts.run_of_decisive _ _ env.conf.maxRetry.toNat 0 ∅ rfl)

/-- A new file is created by an open for writing that truncates. -/
theorem created_truncating :
    (∃ created, dfsCreate .plain (.start .empty ∅) "/f".toList 0o100644#32 (oWronly ||| oCreat ||| oTrunc)
      (.granted 3) = .done created ∧ created.IsCreated) ↔
      hasFlag (oWronly ||| oCreat ||| oTrunc) oAppend = false :=
  created_iff .plain (.start .empty ∅) "/f".toList 0o100644#32 (oWronly ||| oCreat ||| oTrunc) (.granted 3)
    (World.creatable_start .empty (by decide)) (by decide) (by decide)
    (CreateReplies.granted_succeed .plain "/f".toList 3)

/-- Appending to a file that is not there does not create it, although every call succeeds. -/
theorem create_fails_appending :
    (World.start .empty ∅).Creatable "/f".toList ∧ sIsreg 0o100644#32 = true ∧
      hasFlag (oWronly ||| oCreat ||| oAppend) oCreat = true ∧
      (CreateReplies.granted 3).Succeed .plain (.start .empty ∅) "/f".toList ∧
      ¬ ∃ created, dfsCreate .plain (.start .empty ∅) "/f".toList 0o100644#32 (oWronly ||| oCreat ||| oAppend)
        (.granted 3) = .done created ∧ created.IsCreated := by
  have hcreatable : (World.start .empty ∅).Creatable "/f".toList := World.creatable_start .empty (by decide)
  have hreplies : (CreateReplies.granted 3).Succeed .plain (.start .empty ∅) "/f".toList :=
    CreateReplies.granted_succeed .plain "/f".toList 3
  refine ⟨hcreatable, by decide, by decide, hreplies, ?_⟩
  rintro ⟨created, hdone, hcreated⟩
  exact dfsCreate_appending hcreatable (by decide) hreplies hdone hcreated

end Dropletfs
