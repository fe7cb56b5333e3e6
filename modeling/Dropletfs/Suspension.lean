import Dropletfs.Attributes
import Dropletfs.Descriptors

/-!
# A lookup and an open that wait for the service

`dfs_getattr` picks its function from the placeholder of the entry and then waits for `dpl_namei` and
`dpl_getattr`; `dfs_open` waits for `dpl_namei`, `dpl_head_all` and `dpl_openread`. Here one of each runs, and
each may wait while the other goes on: a step is the answer to one remote call, with all that the request does
until its next one. Alone, each comes to what it returns when it is run at once.
-/

namespace Dropletfs

/-- `getattr_unset` once `dfs_getattr_timeout` has returned. -/
def getattrFetched (env : Env) (w : World) (addr : ℕ) (pe : Pentry) (path : CStr) (type : Ftype) (status : Status)
    (metadata : Option Dict) (replies : GetattrReplies) : Exec Lookup :=
  if status ≠ .success ∧ status ≠ .eisdir then .done ⟨-1, .single, w⟩
  else
    let st := setDefaultStat env.proc replies.now .single type
    match metadata with
    | none => .done (getattrSettled w addr pe path st replies)
    | some dict =>
      let st := fillStatFromMetadata (symlinkBit st dict) dict
      if replies.mdLock = false then .done ⟨-1, st, w⟩
      else if pe.mdLocked then .blocked
      else
        let pe := (pe.setMetadata dict replies.setMetadata).2
        if replies.mdUnlock = false then .done ⟨-1, st, w.put addr { pe with mdLocked := true }⟩
        else .done (getattrSettled w addr { pe with ondisk := .remote } path st replies)

/-- `getattr_unset` fetches the type and the attributes, and goes on with them. -/
theorem getattrUnset_eq (env : Env) (w : World) (addr : ℕ) (pe : Pentry) (path : CStr) (replies : GetattrReplies) :
    getattrUnset env w addr pe path .single replies =
      match dfsNameiTimeout env.conf.maxRetry replies.namei path w.remote with
      | (.success, some type) =>
        let answer := dfsGetattrTimeout env.conf.maxRetry replies.getattr path w.remote
        getattrFetched env w addr pe path type answer.1 answer.2 replies
      | (status, _) => .done ⟨env.statusCode status, .single, w⟩ := rfl

/-- What `dfs_get_local_copy` comes to before the download: a descriptor to return, or one to download to. -/
inductive Prepared where
  | returned (fd : ℤ)
  | reading (fd : ℕ) (metadata : Dict)

/-- `dfs_get_local_copy` between `dpl_head_all` and `dpl_openread`. -/
def prepareCopy (env : Env) (fs : LocalFs) (pe : Pentry) (path : CStr) (headers : Option Obj) (replies : CopyReplies) :
    Prepared × LocalFs × Pentry :=
  if replies.newDict = false then (.returned (-1), fs, pe)
  else if replies.extract = .failure then (.returned (-1), fs, pe)
  else
    let metadata := getMetadataFromHeaders replies.extract headers
    let (stored, pe) := pe.setMetadata metadata replies.setMetadata
    if stored = false then (.returned (-1), fs, pe)
    else
      let (same, pe) := compareDigests pe headers replies.junkDigest
      if same then (.returned pe.fd, fs, pe)
      else
        let name := copyName env.conf path
        let fs := if replies.access && (fs.resolve name).isSome then fs.unlink name replies.unlink else fs
        match fs.openFile env.proc name createTruncated 0o600 replies.create with
        | none => (.returned (-1), fs, pe)
        | some (fd, fs) => (.reading fd metadata, fs, pe)

/-- `dfs_get_local_copy` from `dpl_openread` on. -/
def finishCopy (env : Env) (fs : LocalFs) (r : Remote) (pe : Pentry) (path : CStr) (flags : OpenFlags) (fd : ℕ)
    (metadata : Dict) (replies : CopyReplies) : Exec (ℤ × LocalFs × Pentry) :=
  let name := copyName env.conf path
  let encryption := checkEncryptionFlag env.conf metadata
  let (status, fs, metadata) := dplOpenread env.cipher r path encryption fs fd metadata replies.openread
  if status ≠ .success then .done (-1, fs.close fd, pe)
  else do
    let unpacked ← handleCompression env fs name fd metadata replies.unpack
    return openCopy env name flags pe replies unpacked

/-- `dfs_get_local_copy` is made of these parts. -/
theorem dfsGetLocalCopy_eq (env : Env) (fs : LocalFs) (r : Remote) (pe : Pentry) (path : CStr) (flags : OpenFlags)
    (replies : CopyReplies) :
    dfsGetLocalCopy env fs r pe path flags replies =
      match downloadHeaders env.conf.maxRetry r path replies with
      | none => .done (-1, fs, pe)
      | some headers =>
        match prepareCopy env fs pe path headers replies with
        | (.returned fd, fs, pe) => .done (fd, fs, pe)
        | (.reading fd metadata, fs, pe) => finishCopy env fs r pe path flags fd metadata replies := by
  unfold dfsGetLocalCopy
  cases downloadHeaders env.conf.maxRetry r path replies with
  | none => rfl
  | some headers =>
    simp only [prepareCopy]
    split
    · rfl
    · split
      · rfl
      · split
        · rfl
        · split
          · rfl
          · simp only [fetchCopy]
            generalize LocalFs.openFile _ env.proc (copyName env.conf path) createTruncated 0o600 replies.create = made
            cases made with
            | none => rfl
            | some created => rfl

namespace Overtaking

/-- Where a `dfs_getattr` is: about to run, waiting for a call with this many repetitions left, or back. -/
inductive GetattrAt where
  | start
  | namei (addr left : ℕ)
  | getattr (addr : ℕ) (type : Ftype) (left : ℕ)
  | returned (ret : ℤ)

/-- Where a `dfs_open` is. -/
inductive OpenAt where
  | start
  | namei (addr left : ℕ)
  | headAll (addr left : ℕ)
  | openread (addr fd : ℕ) (metadata : Dict)
  | returned (ret : ℤ)

/-- The program while both requests run. -/
structure State where
  world : World
  getattr : GetattrAt
  opening : OpenAt

/-- A request goes on: its remote call, if it waits for one, replies with a status, and its local calls have
these replies. -/
inductive Event where
  | getattr (status : Status) (replies : GetattrReplies)
  | opening (status : Status) (replies : OpenReplies)

/-- The entry of the path, or a new one, in `dfs_getattr`. -/
def findOrInsert (w : World) (path : CStr) (replies : GetattrReplies) : Option (ℕ × World) :=
  match w.table path with
  | some addr => some (addr, w)
  | none =>
    if replies.alloc = false ∨ replies.keyDup = false then none
    else some (w.insert path { pentryNew with path := if replies.pathDup then some path else none })

/-- `dfs_getattr` returns. -/
def lookedUp (addr : ℕ) (looked : Lookup) (replies : GetattrReplies) : GetattrAt × World :=
  (.returned looked.ret, looked.world.touch addr replies.now)

/-- `dfs_getattr` up to its first remote call. -/
def startGetattr (env : Env) (path : CStr) (w : World) (replies : GetattrReplies) : Exec (GetattrAt × World) :=
  if path = "/".toList then .done (.returned 0, w)
  else
    match findOrInsert w path replies with
    | none => .done (.returned (-1), w)
    | some (addr, w) =>
      match w.heap addr with
      | none => .undefined
      | some pe =>
        if pe.ondisk = .unset then .done (.namei addr env.conf.maxRetry.toNat, w)
        else do
          let looked ← getattrByPlaceholder env w addr pe path .single replies
          return lookedUp addr looked replies

/-- `getattr_unset` with the answer of `dfs_namei_timeout`. -/
def namedGetattr (env : Env) (w : World) (addr : ℕ) (replies : GetattrReplies) :
    Status × Option Ftype → GetattrAt × World
  | (.success, some type) => (.getattr addr type env.conf.maxRetry.toNat, w)
  | (status, _) => lookedUp addr ⟨env.statusCode status, .single, w⟩ replies

/-- `getattr_unset` with the answer of `dfs_getattr_timeout`. -/
def fetchedGetattr (env : Env) (path : CStr) (w : World) (addr : ℕ) (type : Ftype) (replies : GetattrReplies)
    (answer : Status × Option Dict) : Exec (GetattrAt × World) :=
  match w.heap addr with
  | none => .undefined
  | some pe => do
    let looked ← getattrFetched env w addr pe path type answer.1 answer.2 replies
    return lookedUp addr looked replies

/-- `dfs_getattr` from one remote call to the next. -/
def getattrStep (env : Env) (path : CStr) (w : World) (at_ : GetattrAt) (status : Status) (replies : GetattrReplies) :
    Exec (GetattrAt × World) :=
  match at_ with
  | .start => startGetattr env path w replies
  | .namei addr left =>
    let answer := dplNamei status path w.remote
    if answer.1.retriable ∧ left ≠ 0 then .done (.namei addr (left - 1), w)
    else .done (namedGetattr env w addr replies answer)
  | .getattr addr type left =>
    let answer := dplGetattr status path w.remote
    if answer.1.retriableGetattr ∧ left ≠ 0 then .done (.getattr addr type (left - 1), w)
    else fetchedGetattr env path w addr type replies answer
  | .returned _ => .blocked

/-- `dfs_open` once `dfs_get_local_copy` has returned. -/
def copied (w : World) (addr : ℕ) (pe : Pentry) (mode : StateMode) (fd : ℤ) : OpenAt × World :=
  if fd = -1 then (.returned (-1), w.put addr pe)
  else (.returned 0, w.put addr { pe with fd := fd, flag := mode.flag pe.flag, ondisk := .localFile })

/-- `dfs_open` on the entry of the path, up to its first remote call. Without a download it has none. -/
def startOpen (env : Env) (path : CStr) (flags : BitVec 32) (w : World) (addr : ℕ) (pe : Pentry)
    (replies : OpenReplies) : Exec (OpenAt × World) :=
  let mode := getModeFromFlags flags
  if mode ≠ .rdonly ∧ replies.lock = false then do
    let pe ← (pe.incRefcount replies.semPost).decRefcount replies.semWait
    return (.returned (-1), w.put addr pe)
  else if mode ≠ .rdonly ∧ pe.locked then .blocked
  else
    let pe := pe.held replies.semPost mode
    if mode ≠ .creat ∧ pe.fd < 0 then .done (.namei addr env.conf.maxRetry.toNat, w.put addr pe)
    else do
      let opened ← openEntry env w addr pe path mode replies
      return (.returned opened.ret, opened.world)

/-- `dfs_get_local_copy` with the status of `dfs_namei_timeout`. -/
def namedOpen (env : Env) (w : World) (addr : ℕ) (answer : Status × Option Ftype) : OpenAt × World :=
  if answer.1 ≠ .success then (.returned (-1), w) else (.headAll addr env.conf.maxRetry.toNat, w)

/-- `dfs_get_local_copy` with the headers from `dfs_head_all_timeout`. -/
def headedOpen (env : Env) (path : CStr) (mode : StateMode) (w : World) (addr : ℕ) (replies : CopyReplies)
    (answer : Status × Option Obj) : Exec (OpenAt × World) :=
  match w.heap addr with
  | none => .undefined
  | some pe =>
    match prepareCopy env w.fs pe path answer.2 replies with
    | (.returned fd, fs, pe) => .done (copied { w with fs := fs } addr pe mode fd)
    | (.reading fd metadata, fs, pe) => .done (.openread addr fd metadata, { w with fs := fs }.put addr pe)

/-- `dfs_open` from one remote call to the next. -/
def openStep (env : Env) (path : CStr) (flags : BitVec 32) (w : World) (at_ : OpenAt) (status : Status)
    (replies : OpenReplies) : Exec (OpenAt × World) :=
  let mode := getModeFromFlags flags
  match at_ with
  | .start =>
    match findOrPopulate w path replies with
    | none => .done (.returned (-1), w)
    | some (addr, w) =>
      match w.heap addr with
      | none => .undefined
      | some pe => startOpen env path flags w addr pe replies
  | .namei addr left =>
    let answer := dplNamei status path w.remote
    if answer.1.retriable ∧ left ≠ 0 then .done (.namei addr (left - 1), w)
    else .done (namedOpen env w addr answer)
  | .headAll addr left =>
    let answer := dplHeadAll status path w.remote
    if answer.1.retriable ∧ left ≠ 0 then .done (.headAll addr (left - 1), w)
    else headedOpen env path mode w addr replies.copy answer
  | .openread addr fd metadata =>
    match w.heap addr with
    | none => .undefined
    | some pe => do
      let (fd, fs, pe) ← finishCopy env w.fs w.remote pe path (openFlags mode) fd metadata replies.copy
      return copied { w with fs := fs } addr pe mode fd
  | .returned _ => .blocked

/-- One of the requests goes on. -/
def step (env : Env) (path : CStr) (flags : BitVec 32) (s : State) : Event → Exec State
  | .getattr status replies => do
    let (at_, w) ← getattrStep env path s.world s.getattr status replies
    return { s with world := w, getattr := at_ }
  | .opening status replies => do
    let (at_, w) ← openStep env path flags s.world s.opening status replies
    return { s with world := w, opening := at_ }

section Alone

/-- A machine that waits for a call, with a number of repetitions left, makes all the attempts of the wrapper. -/
theorem reaches_attempts {σ ι α : Type} {next : σ → ι → Exec σ} {init : σ → Prop} {retriable : Status → Bool}
    (call : ℕ → Status × α) (wait : ℕ → σ) (input : ℕ → ι) (finish : Status × α → Exec σ)
    (hnext : ∀ left i, next (wait left) (input i) =
      if retriable (call i).1 ∧ left ≠ 0 then .done (wait (left - 1)) else finish (call i))
    (maxRetry : ℤ) {s : σ} (h : GuardedRuns.Reaches next GuardedRuns.unguarded init (wait maxRetry.toNat))
    (hfinish : finish (readTimeout maxRetry retriable call) = .done s) :
    GuardedRuns.Reaches next GuardedRuns.unguarded init s := by
  unfold readTimeout at hfinish
  generalize maxRetry.toNat = left at h hfinish
  generalize 0 = first at hfinish
  induction left generalizing first with
  | zero =>
    refine .step (i := input first) h trivial ?_
    rw [hnext, if_neg (by simp)]
    exact hfinish
  | succ left ih =>
    simp only [Attempts.run] at hfinish
    by_cases hagain : retriable (call first).1 = true
    · rw [if_pos hagain] at hfinish
      refine ih (.step (i := input first) h trivial ?_) (first + 1) hfinish
      rw [hnext, if_pos ⟨hagain, Nat.succ_ne_zero _⟩, Nat.add_sub_cancel]
    · rw [if_neg hagain] at hfinish
      refine .step (i := input first) h trivial ?_
      rw [hnext, if_neg fun hboth => hagain hboth.1]
      exact hfinish

variable {env : Env} {path : CStr} {flags : BitVec 32} {w : World}

/-- A `dfs_getattr` alone. -/
def getattrAlone (env : Env) (path : CStr) (s : GetattrAt × World) (answer : Status × GetattrReplies) :
    Exec (GetattrAt × World) :=
  getattrStep env path s.2 s.1 answer.1 answer.2

/-- A `dfs_open` alone. -/
def openAlone (env : Env) (path : CStr) (flags : BitVec 32) (s : OpenAt × World) (answer : Status × OpenReplies) :
    Exec (OpenAt × World) :=
  openStep env path flags s.2 s.1 answer.1 answer.2

/-- `dfs_getattr` works on the entry it finds or makes. -/
theorem dfsGetattr_eq (w : World) (path : CStr) (replies : GetattrReplies) :
    dfsGetattr env w path replies =
      if path = "/".toList then .done ⟨0, { Stat.single with mode := sIfdir }, w⟩
      else
        match findOrInsert w path replies with
        | none => .done ⟨-1, .single, w⟩
        | some (addr, w) =>
          match w.heap addr with
          | none => .undefined
          | some pe => getattrEntry env w addr pe path replies := by
  unfold dfsGetattr findOrInsert
  by_cases hroot : path = "/".toList
  · rw [if_pos hroot, if_pos hroot]
    rfl
  · rw [if_neg hroot, if_neg hroot]
    cases w.table path with
    | some addr => rfl
    | none =>
      by_cases hfailed : replies.alloc = false ∨ replies.keyDup = false
      · simp only [hfailed, if_true]
        rfl
      · simp only [hfailed, if_false, World.insert, Function.update_self]

/-- All attempts of `dfs_namei_timeout` in `getattr_unset`. -/
theorem getattr_namei_reaches {init : GetattrAt × World → Prop} {addr : ℕ} (replies : GetattrReplies)
    (h : GuardedRuns.Reaches (getattrAlone env path) GuardedRuns.unguarded init
      (.namei addr env.conf.maxRetry.toNat, w)) :
    GuardedRuns.Reaches (getattrAlone env path) GuardedRuns.unguarded init
      (namedGetattr env w addr replies (dfsNameiTimeout env.conf.maxRetry replies.namei path w.remote)) :=
  reaches_attempts (fun i => dplNamei (replies.namei i) path w.remote) (fun left => (GetattrAt.namei addr left, w))
    (fun i => (replies.namei i, replies)) (fun answer => .done (namedGetattr env w addr replies answer))
    (fun _ _ => rfl) env.conf.maxRetry h rfl

/-- All attempts of `dfs_getattr_timeout` in `getattr_unset`. -/
theorem getattr_getattr_reaches {init : GetattrAt × World → Prop} {addr : ℕ} {type : Ftype} (replies : GetattrReplies)
    {s : GetattrAt × World}
    (h : GuardedRuns.Reaches (getattrAlone env path) GuardedRuns.unguarded init
      (.getattr addr type env.conf.maxRetry.toNat, w))
    (hdone : fetchedGetattr env path w addr type replies
      (dfsGetattrTimeout env.conf.maxRetry replies.getattr path w.remote) = .done s) :
    GuardedRuns.Reaches (getattrAlone env path) GuardedRuns.unguarded init s :=
  reaches_attempts (fun i => dplGetattr (replies.getattr i) path w.remote)
    (fun left => (GetattrAt.getattr addr type left, w)) (fun i => (replies.getattr i, replies))
    (fetchedGetattr env path w addr type replies) (fun _ _ => rfl) env.conf.maxRetry h hdone

/-- Alone, step by step, `dfs_getattr` comes to what it returns at once. -/
theorem getattrAlone_reaches {replies : GetattrReplies} {looked : Lookup}
    (h : dfsGetattr env w path replies = .done looked) :
    GuardedRuns.Reaches (getattrAlone env path) GuardedRuns.unguarded (fun s => s = (.start, w))
      (.returned looked.ret, looked.world) := by
  have hfirst : ∀ {s}, startGetattr env path w replies = .done s → GuardedRuns.Reaches (getattrAlone env path)
      GuardedRuns.unguarded (fun s => s = (.start, w)) s := fun hstart =>
    .step (i := (.success, replies)) (.start rfl) trivial hstart
  rw [dfsGetattr_eq] at h
  unfold startGetattr at hfirst
  split at h
  · rename_i hroot
    obtain rfl := Exec.done.inj h
    exact hfirst (by rw [if_pos hroot])
  · rename_i hroot
    rw [if_neg hroot] at hfirst
    cases hfind : findOrInsert w path replies with
    | none =>
      simp only [hfind] at h hfirst
      obtain rfl := Exec.done.inj h
      exact hfirst rfl
    | some found =>
      obtain ⟨addr, w₁⟩ := found
      simp only [hfind] at h hfirst
      split at h
      · cases h
      · rename_i pe hheap
        simp only [hheap] at hfirst
        obtain ⟨inner, hinner, hdone⟩ := Exec.bind_eq_done.mp h
        obtain rfl := Exec.done.inj hdone
        change getattrByPlaceholder env w₁ addr pe path .single replies = .done inner at hinner
        by_cases hunset : pe.ondisk = .unset
        · rw [if_pos hunset] at hfirst
          have hwaits := hfirst rfl
          simp only [getattrByPlaceholder, hunset] at hinner
          rw [getattrUnset_eq] at hinner
          have hnamed := getattr_namei_reaches replies hwaits
          split at hinner
          · rename_i type hname
            rw [hname] at hnamed
            refine getattr_getattr_reaches replies hnamed ?_
            simp only [fetchedGetattr, hheap]
            rw [hinner]
            rfl
          · rename_i status found hfailed hname
            obtain rfl := Exec.done.inj hinner
            rw [hname] at hnamed
            have hreturns : namedGetattr env w₁ addr replies (status, found) =
                lookedUp addr ⟨env.statusCode status, .single, w₁⟩ replies := by
              unfold namedGetattr
              split
              · rename_i type heq
                obtain ⟨hsuccess, htype⟩ := Prod.mk.inj heq
                exact (hfailed type hsuccess htype).elim
              · rename_i heq
                rw [(Prod.mk.inj heq).1]
            rw [hreturns] at hnamed
            exact hnamed
        · rw [if_neg hunset] at hfirst
          refine hfirst ?_
          rw [hinner]
          rfl

/-- All attempts of `dfs_namei_timeout` in `dfs_get_local_copy`. -/
theorem open_namei_reaches {init : OpenAt × World → Prop} {addr : ℕ} (replies : OpenReplies)
    (h : GuardedRuns.Reaches (openAlone env path flags) GuardedRuns.unguarded init
      (.namei addr env.conf.maxRetry.toNat, w)) :
    GuardedRuns.Reaches (openAlone env path flags) GuardedRuns.unguarded init
      (namedOpen env w addr (dfsNameiTimeout env.conf.maxRetry replies.copy.namei path w.remote)) :=
  reaches_attempts (fun i => dplNamei (replies.copy.namei i) path w.remote) (fun left => (OpenAt.namei addr left, w))
    (fun i => (replies.copy.namei i, replies)) (fun answer => .done (namedOpen env w addr answer))
    (fun _ _ => rfl) env.conf.maxRetry h rfl

/-- All attempts of `dfs_head_all_timeout` in `dfs_get_local_copy`. -/
theorem open_headAll_reaches {init : OpenAt × World → Prop} {addr : ℕ} {s : OpenAt × World} (replies : OpenReplies)
    (h : GuardedRuns.Reaches (openAlone env path flags) GuardedRuns.unguarded init
      (.headAll addr env.conf.maxRetry.toNat, w))
    (hdone : headedOpen env path (getModeFromFlags flags) w addr replies.copy
      (dfsHeadAllTimeout env.conf.maxRetry replies.copy.headAll path w.remote) = .done s) :
    GuardedRuns.Reaches (openAlone env path flags) GuardedRuns.unguarded init s :=
  reaches_attempts (fun i => dplHeadAll (replies.copy.headAll i) path w.remote)
    (fun left => (OpenAt.headAll addr left, w)) (fun i => (replies.copy.headAll i, replies))
    (headedOpen env path (getModeFromFlags flags) w addr replies.copy) (fun _ _ => rfl) env.conf.maxRetry h hdone

/-- What `dfs_open` comes to with a download is decided by what `dfs_get_local_copy` returns. -/
theorem openEntry_copied {addr : ℕ} {pe : Pentry} {mode : StateMode} {replies : OpenReplies} {opened : Opened}
    (hmode : mode ≠ .creat) (hfd : pe.fd < 0) (h : openEntry env w addr pe path mode replies = .done opened) :
    ∃ fd fs pe', dfsGetLocalCopy env w.fs w.remote pe path (openFlags mode) replies.copy = .done (fd, fs, pe') ∧
      copied { w with fs := fs } addr pe' mode fd = (.returned opened.ret, opened.world) := by
  obtain ⟨⟨ret, fs, pe₁⟩, hopen, hdone⟩ := Exec.bind_eq_done.mp h
  -- what every mode shares, up to the flag
  have hexisting : ∀ flags {ret fs pe₁}, openExisting env w.fs w.remote pe path flags replies = .done (ret, fs, pe₁) →
      ∃ fd pe', dfsGetLocalCopy env w.fs w.remote pe path flags replies.copy = .done (fd, fs, pe') ∧
        (fd = -1 ∧ ret = -1 ∧ pe₁ = pe' ∨ fd ≠ -1 ∧ ret = 0 ∧ pe₁ = { pe' with fd := fd }) := by
    intro flags ret fs pe₁ hexisting
    unfold openExisting at hexisting
    rw [if_pos hfd] at hexisting
    obtain ⟨⟨fd, fs', pe'⟩, hcopy, hdone⟩ := Exec.bind_eq_done.mp hexisting
    simp only [pure] at hdone
    split at hdone
    · rename_i hnone
      simp only [Exec.done.injEq, Prod.mk.injEq] at hdone
      obtain ⟨rfl, rfl, rfl⟩ := hdone
      exact ⟨fd, _, hcopy, .inl ⟨hnone, rfl, rfl⟩⟩
    · rename_i hsome
      simp only [Exec.done.injEq, Prod.mk.injEq] at hdone
      obtain ⟨rfl, rfl, rfl⟩ := hdone
      exact ⟨fd, _, hcopy, .inr ⟨hsome, rfl, rfl⟩⟩
  have hwronly : ∀ flags {ret fs pe₁}, openWronly env w.fs w.remote pe path flags replies = .done (ret, fs, pe₁) →
      ∃ fd pe', dfsGetLocalCopy env w.fs w.remote pe path flags replies.copy = .done (fd, fs, pe') ∧
        (fd = -1 ∧ ret = -1 ∧ pe₁ = pe' ∨ fd ≠ -1 ∧ ret = 0 ∧ pe₁ = { pe' with fd := fd, flag := .dirty }) := by
    intro flags ret fs pe₁ hwronly
    obtain ⟨⟨ret', fs', pe₂⟩, hinner, hdone⟩ := Exec.bind_eq_done.mp hwronly
    obtain ⟨fd, pe', hcopy, hcase⟩ := hexisting flags hinner
    simp only [pure] at hdone
    rcases hcase with ⟨hnone, rfl, rfl⟩ | ⟨hsome, rfl, rfl⟩
    · rw [if_neg (by decide)] at hdone
      simp only [Exec.done.injEq, Prod.mk.injEq] at hdone
      obtain ⟨rfl, rfl, rfl⟩ := hdone
      exact ⟨fd, _, hcopy, .inl ⟨hnone, rfl, rfl⟩⟩
    · rw [if_pos rfl] at hdone
      simp only [Exec.done.injEq, Prod.mk.injEq] at hdone
      obtain ⟨rfl, rfl, rfl⟩ := hdone
      exact ⟨fd, _, hcopy, .inr ⟨hsome, rfl, rfl⟩⟩
  have hreturns : ∀ {fd pe'}, (fd = -1 ∧ ret = -1 ∧ pe₁ = pe' ∨
      fd ≠ -1 ∧ ret = 0 ∧ pe₁ = { pe' with fd := fd, flag := mode.flag pe'.flag }) →
      copied { w with fs := fs } addr pe' mode fd = (.returned opened.ret, opened.world) := by
    intro fd pe' hcase
    simp only [pure] at hdone
    rcases hcase with ⟨rfl, rfl, rfl⟩ | ⟨hsome, rfl, rfl⟩
    · rw [if_pos rfl] at hdone
      obtain rfl := Exec.done.inj hdone
      rw [copied, if_pos rfl]
    · rw [if_neg (by decide)] at hdone
      obtain rfl := Exec.done.inj hdone
      rw [copied, if_neg hsome]
  cases mode with
  | creat => exact absurd rfl hmode
  | rdonly =>
    obtain ⟨fd, pe', hcopy, hcase⟩ := hexisting _ hopen
    exact ⟨fd, fs, pe', hcopy, hreturns hcase⟩
  | wronly =>
    obtain ⟨fd, pe', hcopy, hcase⟩ := hwronly _ hopen
    exact ⟨fd, fs, pe', hcopy, hreturns hcase⟩
  | rdwr =>
    obtain ⟨fd, pe', hcopy, hcase⟩ := hwronly _ hopen
    exact ⟨fd, fs, pe', hcopy, hreturns hcase⟩

/-- From its first remote call on, `dfs_open` comes to what `dfs_get_local_copy` returns. -/
theorem openAlone_copies {init : OpenAt × World → Prop} {addr : ℕ} {pe pe' : Pentry} {fs : LocalFs} {fd : ℤ}
    {replies : OpenReplies}
    (h : GuardedRuns.Reaches (openAlone env path flags) GuardedRuns.unguarded init
      (.namei addr env.conf.maxRetry.toNat, w)) (hheap : w.heap addr = some pe)
    (hcopy : dfsGetLocalCopy env w.fs w.remote pe path (openFlags (getModeFromFlags flags)) replies.copy =
      .done (fd, fs, pe')) :
    GuardedRuns.Reaches (openAlone env path flags) GuardedRuns.unguarded init
      (copied { w with fs := fs } addr pe' (getModeFromFlags flags) fd) := by
  have hnamed := open_namei_reaches replies h
  rw [dfsGetLocalCopy_eq] at hcopy
  unfold downloadHeaders at hcopy
  unfold namedOpen at hnamed
  split at hnamed
  · rename_i hfailed
    rw [if_pos hfailed] at hcopy
    simp only [Exec.done.injEq, Prod.mk.injEq] at hcopy
    obtain ⟨rfl, rfl, rfl⟩ := hcopy
    have hsame : w.put addr pe = w := by
      unfold World.put
      rw [← hheap, Function.update_eq_self]
    rw [copied, if_pos rfl]
    change GuardedRuns.Reaches (openAlone env path flags) GuardedRuns.unguarded init (.returned (-1), w.put addr pe)
    rw [hsame]
    exact hnamed
  · rename_i hsuccess
    rw [if_neg hsuccess] at hcopy
    simp only at hcopy
    split at hcopy
    · rename_i fd' fs' pe₁ hprepared
      simp only [Exec.done.injEq, Prod.mk.injEq] at hcopy
      obtain ⟨rfl, rfl, rfl⟩ := hcopy
      refine open_headAll_reaches replies hnamed ?_
      simp only [headedOpen, hheap, hprepared]
    · rename_i download metadata fs' pe₁ hprepared
      have hreading : GuardedRuns.Reaches (openAlone env path flags) GuardedRuns.unguarded init
          (.openread addr download metadata, { w with fs := fs' }.put addr pe₁) := by
        refine open_headAll_reaches replies hnamed ?_
        simp only [headedOpen, hheap, hprepared]
      refine .step (i := (.success, replies)) hreading trivial ?_
      have hlast : ∀ (w₁ : World), copied { w₁.put addr pe₁ with fs := fs } addr pe' (getModeFromFlags flags) fd =
          copied { w₁ with fs := fs } addr pe' (getModeFromFlags flags) fd := by
        intro w₁
        unfold copied World.put
        simp only [Function.update_idem]
      simp only [openAlone, openStep, World.put_heap_self, World.put_fs, World.put_remote]
      rw [hcopy]
      exact congrArg Exec.done (hlast { w with fs := fs' })

/-- Alone, step by step, `dfs_open` comes to what it returns at once. -/
theorem openAlone_reaches {replies : OpenReplies} {opened : Opened}
    (h : dfsOpen env w path flags replies = .done opened) :
    GuardedRuns.Reaches (openAlone env path flags) GuardedRuns.unguarded (fun s => s = (.start, w))
      (.returned opened.ret, opened.world) := by
  have hfirst : ∀ {s}, openStep env path flags w .start .success replies = .done s → GuardedRuns.Reaches
      (openAlone env path flags) GuardedRuns.unguarded (fun s => s = (.start, w)) s := fun hstart =>
    .step (i := (.success, replies)) (.start rfl) trivial hstart
  unfold dfsOpen at h
  simp only [openStep] at hfirst
  cases hfind : findOrPopulate w path replies with
  | none =>
    simp only [hfind] at h hfirst
    obtain rfl := Exec.done.inj h
    exact hfirst rfl
  | some found =>
    obtain ⟨addr, w₁⟩ := found
    simp only [hfind] at h hfirst
    split at h
    · cases h
    · rename_i pe hheap
      simp only [hheap, startOpen] at hfirst
      simp only [lockAndOpen] at h
      -- what is left of either branch once the entry is held
      have hentry : ∀ held, held = pe.held replies.semPost (getModeFromFlags flags) →
          ¬ (getModeFromFlags flags ≠ .rdonly ∧ replies.lock = false) →
          ¬ (getModeFromFlags flags ≠ .rdonly ∧ pe.locked = true) →
          openEntry env w₁ addr held path (getModeFromFlags flags) replies = .done opened →
          GuardedRuns.Reaches (openAlone env path flags) GuardedRuns.unguarded (fun s => s = (.start, w))
            (.returned opened.ret, opened.world) := by
        intro held hheld hlock hfree hopen
        rw [if_neg hlock, if_neg hfree] at hfirst
        subst hheld
        by_cases hdownload : getModeFromFlags flags ≠ .creat ∧
            (pe.held replies.semPost (getModeFromFlags flags)).fd < 0
        · rw [if_pos hdownload] at hfirst
          obtain ⟨fd, fs, pe', hcopy, hcopied⟩ := openEntry_copied hdownload.1 hdownload.2 hopen
          have hcopies := openAlone_copies (hfirst rfl) (World.put_heap_self ..) hcopy
          have hsame : copied { w₁.put addr (pe.held replies.semPost (getModeFromFlags flags)) with fs := fs } addr pe'
              (getModeFromFlags flags) fd = copied { w₁ with fs := fs } addr pe' (getModeFromFlags flags) fd := by
            unfold copied World.put
            simp only [Function.update_idem]
          rw [hsame, hcopied] at hcopies
          exact hcopies
        · rw [if_neg hdownload] at hfirst
          refine hfirst ?_
          rw [hopen]
          rfl
      by_cases hmode : getModeFromFlags flags = .rdonly
      · rw [if_pos hmode] at h
        refine hentry _ ?_ (fun hboth => hboth.1 hmode) (fun hboth => hboth.1 hmode) h
        rw [Pentry.held, if_pos hmode]
      · rw [if_neg hmode] at h
        by_cases hlock : replies.lock = false
        · rw [if_pos hlock] at h
          rw [if_pos ⟨hmode, hlock⟩] at hfirst
          obtain ⟨pe', hwait, hdone⟩ := Exec.bind_eq_done.mp h
          obtain rfl := Exec.done.inj hdone
          refine hfirst ?_
          rw [hwait]
          rfl
        · rw [if_neg hlock] at h
          split at h
          · cases h
          · rename_i hfree
            have hunlocked : ¬ pe.locked = true := by
              cases hpost : replies.semPost <;> simpa [Pentry.incRefcount, hpost] using hfree
            refine hentry _ ?_ (fun hboth => hlock hboth.2) (fun hboth => hunlocked hboth.2) h
            rw [Pentry.held, if_neg hmode]

end Alone

end Overtaking

end Dropletfs
