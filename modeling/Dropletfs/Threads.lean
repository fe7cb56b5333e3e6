import Dropletfs.Suspension

/-!
# Threads that share an entry

FUSE serves each request on a thread of its own, and `thread_gc` visits the entries on another. No lock covers the
table: an entry is looked up first and counted, locked or dropped afterwards. Here any number of requests run at the
same time. A party is a file from its `dfs_open` to its `dfs_release`, a `dfs_getattr`, or a visit of `gc_callback`; a
step is one access of a party to the table, the count, the mutex or the descriptor of an entry, or one remote call, with
the calls on files that come with it. An upload is a `dpl_openwrite`, a `dpl_write` for each block and a `dpl_close`.
-/

namespace Dropletfs

namespace Threads

open Overtaking (OpenAt GetattrAt)

/-- What `dfs_release` sends, and what it gets rid of afterwards. -/
structure Uploading where
  fd : ℕ
  outgoing : Outgoing
  streams : List ℕ
  scratch : Option CStr

/-- Where a party is, with the entry it has a pointer to. A party that is over may have left an entry counted or
locked. -/
inductive At where
  | looking
  | populating
  | counting (addr : ℕ)
  | locking (addr : ℕ)
  | refused (addr : ℕ)
  | providing (addr : ℕ)
  | fetching (addr : ℕ) (at_ : OpenAt)
  | holding (addr : ℕ)
  | uncounting (addr fd : ℕ) (st : Stat)
  | sending (addr fd : ℕ) (st : Stat)
  | openwriting (addr : ℕ) (up : Uploading)
  | transferring (addr : ℕ) (up : Uploading) (block : ℕ) (sent : Bytes)
  | closing (addr : ℕ) (up : Uploading) (sent : Bytes) (ret : ℤ)
  | cleaning (addr : ℕ) (counted : Bool) (ret : ℤ)
  | seeking
  | adding
  | describing (addr : ℕ)
  | asking (at_ : GetattrAt)
  | visiting
  | reading (addr : ℕ)
  | checked (addr : ℕ)
  | examining (addr : ℕ)
  | dropping (addr : ℕ)
  | removing (addr : ℕ)
  | unlocking (addr : ℕ)
  | finished (ret : ℤ) (counted locked : Option ℕ)

/-- What a party does next, with the replies to its calls. A file that is held is read, written or released. -/
inductive Input where
  | opening (status : Status) (replies : OpenReplies)
  | read (size offset : ℕ) (replies : ReadReplies)
  | write (data : Bytes) (offset : ℕ) (replies : WriteReplies)
  | release (replies : ReleaseReplies)
  | getattr (status : Status) (replies : GetattrReplies)
  | gc (replies : GcReplies)

/-- Use the entry at an address, which is undefined when it was destroyed. -/
def access {α : Type} (w : World) (addr : ℕ) (use : Pentry → Exec α) : Exec α :=
  match w.heap addr with
  | none => .undefined
  | some pe => use pe

/-- `g_hash_table_insert`, which destroys the entry that the key had. -/
def hashInsert (w : World) (path : CStr) (pe : Pentry) : ℕ × World := (w.remove path).insert path pe

/-- The mutex that a handle opened with these flags has locked. -/
def heldLock (flags : BitVec 32) (addr : ℕ) : Option ℕ :=
  if getModeFromFlags flags = .rdonly then none else some addr

/-- `dfs_open` returns. FUSE releases no handle of a failed open. -/
def openReturned (flags : BitVec 32) (addr : ℕ) (ret : ℤ) : At :=
  if ret = 0 then .holding addr else .finished ret (some addr) (heldLock flags addr)

/-- `dfs_open` after a step of its download. -/
def fetched (flags : BitVec 32) (addr : ℕ) : OpenAt → At
  | .returned ret => openReturned flags addr ret
  | at_ => .fetching addr at_

/-- `dfs_open`. -/
def openStep (env : Env) (path : CStr) (flags : BitVec 32) (w : World) (status : Status) (replies : OpenReplies) :
    At → Exec (At × World)
  | .looking =>
    match w.table path with
    | some addr => .done (.counting addr, w)
    | none => .done (.populating, w)
  | .populating =>
    if replies.alloc = false ∨ replies.keyDup = false then .done (.finished (-1) none none, w)
    else
      let (addr, w) := hashInsert w path { pentryNew with path := if replies.pathDup then some path else none }
      .done (.counting addr, w)
  | .counting addr => access w addr fun pe =>
    .done (if getModeFromFlags flags = .rdonly then .providing addr else .locking addr,
      w.put addr (pe.incRefcount replies.semPost))
  | .locking addr => access w addr fun pe =>
    if replies.lock = false then .done (.refused addr, w)
    else if pe.locked then .blocked
    else .done (.providing addr, w.put addr { pe with locked := true })
  | .refused addr => access w addr fun pe => do
    let pe ← pe.decRefcount replies.semWait
    return (.finished (-1) none none, w.put addr pe)
  | .providing addr => access w addr fun pe =>
    if getModeFromFlags flags ≠ .creat ∧ pe.fd < 0 then
      .done (.fetching addr (.namei addr env.conf.maxRetry.toNat), w)
    else do
      let opened ← openEntry env w addr pe path (getModeFromFlags flags) replies
      return (openReturned flags addr opened.ret, opened.world)
  | .fetching addr at_ => do
    let (at_, w) ← Overtaking.openStep env path flags w at_ status replies
    return (fetched flags addr at_, w)
  | _ => .blocked

/-- The label `err` of `dfs_release` without a `vfile` to close. -/
def uploaded (addr fd : ℕ) (streams : List ℕ) (scratch : Option CStr) (ret : ℤ) (w : World)
    (replies : ReleaseReplies) : At × World :=
  (.cleaning addr false ret, { w with fs := cleanUp w.fs fd streams scratch replies.unlinkScratch })

/-- `dfs_release` from the choice of what to send to the first remote call. -/
def startUpload (env : Env) (path : CStr) (w : World) (addr fd : ℕ) (st : Stat) (replies : ReleaseReplies) :
    Exec (At × World) :=
  if replies.newDict = false then .undefined
  else do
    let dict := fillMetadataFromStat Dict.new st
    let packed ← pack env w.fs (cacheName env.conf path) ⟨fd, st.size.toNat, dict⟩ replies
    let w := { w with fs := packed.fs }
    match packed.outgoing with
    | none => return uploaded addr fd packed.streams packed.scratch (-1) w replies
    | some outgoing => return (.openwriting addr ⟨fd, outgoing, packed.streams, packed.scratch⟩, w)

/-- `dfs_release` from one remote call of the upload to the next. `read_write_all_vfile` reads a block and sends it. -/
def uploadStep (env : Env) (path : CStr) (w : World) (replies : ReleaseReplies) : At → Exec (At × World)
  | .openwriting addr up =>
    let w := w.log (.openwrite path env.conf.usesAes up.outgoing.size)
    .done <|
      if replies.openwrite ≠ .success then uploaded addr up.fd up.streams up.scratch (-1) w replies
      else (.transferring addr up 0 [], w)
  | .transferring addr up block sent =>
    match replies.read block with
    | none => .done (.closing addr up sent (-1), w)
    | some count =>
      let unread := w.fs.unread up.outgoing.fd
      if unread = [] then .done (.closing addr up sent 0, w)
      else
        let size := max 1 (min count writeBlockSize)
        let w := { w with fs := w.fs.advance up.outgoing.fd (min size unread.length) }
        if replies.write block = .success then .done (.transferring addr up (block + 1) (sent ++ unread.take size), w)
        else .done (.closing addr up sent (-1), w)
  | .closing addr up sent ret =>
    let obj := storedObject env up.outgoing.dict sent replies
    let w := if replies.close.applied then { w with remote := w.remote.insert path obj } else w
    .done (uploaded addr up.fd up.streams up.scratch (if replies.close.status = .success then ret else -1) w replies)
  | _ => .blocked

/-- `dfs_release`. The descriptor is the one found at its start. -/
def releaseStep (env : Env) (path : CStr) (flags : BitVec 32) (w : World) (replies : ReleaseReplies) :
    At → Exec (At × World)
  | .holding addr => access w addr fun pe =>
    if pe.fd < 0 then .done (.cleaning addr true (-1), w)
    else
      match w.fs.fstat pe.fd replies.fstat with
      | none =>
        .done (.cleaning addr true (-1), { w with fs := cleanUp w.fs pe.fd.toNat [] none replies.unlinkScratch })
      | some st => .done (.uncounting addr pe.fd.toNat st, w)
  | .uncounting addr fd st => access w addr fun pe => do
    let pe ← pe.decRefcount replies.semWait
    return (if isRdonly flags then .finished 0 none (heldLock flags addr) else .sending addr fd st, w.put addr pe)
  | .sending addr fd st => access w addr fun pe =>
    if pe.exclude then .done (.cleaning addr false 0, w) else startUpload env path w addr fd st replies
  | .cleaning addr counted ret => access w addr fun pe =>
    .done (.finished ret (if counted then some addr else none) (if replies.unlock then none else some addr),
      w.put addr (pe.markClean replies.unlock))
  | at_ => uploadStep env path w replies at_

/-- `dfs_getattr` after a step that may wait for the store. -/
def asked : GetattrAt → At
  | .returned ret => .finished ret none none
  | at_ => .asking at_

/-- `dfs_getattr`. -/
def getattrStep (env : Env) (path : CStr) (w : World) (status : Status) (replies : GetattrReplies) :
    At → Exec (At × World)
  | .seeking =>
    if path = "/".toList then .done (.finished 0 none none, w)
    else
      match w.table path with
      | some addr => .done (.describing addr, w)
      | none => .done (.adding, w)
  | .adding =>
    if replies.alloc = false ∨ replies.keyDup = false then .done (.finished (-1) none none, w)
    else
      let (addr, w) := hashInsert w path { pentryNew with path := if replies.pathDup then some path else none }
      .done (.describing addr, w)
  | .describing addr => access w addr fun pe =>
    if pe.ondisk = .unset then .done (.asking (.namei addr env.conf.maxRetry.toNat), w)
    else do
      let looked ← getattrByPlaceholder env w addr pe path .single replies
      return (.finished looked.ret none none, looked.world.touch addr replies.now)
  | .asking at_ => do
    let (at_, w) ← Overtaking.getattrStep env path w at_ status replies
    return (asked at_, w)
  | _ => .blocked

/-- `gc_callback`. -/
def gcStep (env : Env) (path : CStr) (w : World) (replies : GcReplies) : At → Exec (At × World)
  | .visiting =>
    match w.table path with
    | none => .done (.finished 0 none none, w)
    | some addr => .done (.reading addr, w)
  | .reading addr => access w addr fun pe =>
    .done (if pe.refcount ≠ 0 then .finished 0 none none else .checked addr, w)
  | .checked addr => access w addr fun pe =>
    if pe.locked ∨ replies.trylock = false then .done (.finished 0 none none, w)
    else .done (.examining addr, w.put addr { pe with locked := true })
  | .examining addr => access w addr fun pe =>
    if pe.fd = -1 then .done (.unlocking addr, w)
    else
      match w.fs.fstat pe.fd replies.fstat with
      | none => .done (.dropping addr, w)
      | some st =>
        if st.expired (pe.gcThreshold env.conf) replies.now then .done (.dropping addr, w)
        else .done (.unlocking addr, w)
  | .dropping addr => .done (.removing addr, { w with fs := w.fs.unlink (cacheName env.conf path) replies.unlinkCache })
  | .removing _ => .done (.finished 0 none none, w.remove path)
  | .unlocking addr => access w addr fun pe =>
    .done (.finished 0 none (if replies.unlock then none else some addr),
      w.put addr { pe with locked := if replies.unlock then false else true })
  | _ => .blocked

/-- A file that is held, read or written. A file that was opened read-only is not written. -/
def useStep (flags : BitVec 32) (w : World) : Input → At → Exec (At × World)
  | .read size offset replies, .holding addr => do
    let _ ← dfsRead w addr size offset replies
    return (.holding addr, w)
  | .write data offset replies, .holding addr =>
    if isRdonly flags then .blocked
    else do
      let (_, w) ← dfsWrite w addr data offset replies
      return (.holding addr, w)
  | _, _ => .blocked

/-- A party goes on. -/
def partyStep (env : Env) (path : CStr) (flags : BitVec 32) (w : World) (at_ : At) : Input → Exec (At × World)
  | .opening status replies => openStep env path flags w status replies at_
  | .release replies => releaseStep env path flags w replies at_
  | .getattr status replies => getattrStep env path w status replies at_
  | .gc replies => gcStep env path w replies at_
  | input => useStep flags w input at_

/-- The program, and where each party is. -/
structure State (ι : Type) where
  world : World
  at_ : ι → At

section System

variable {ι : Type} [DecidableEq ι]

/-- One of the parties goes on, each being about a path and having flags of its own. -/
def step (env : Env) (path : ι → CStr) (flags : ι → BitVec 32) (s : State ι) : ι × Input → Exec (State ι)
  | (i, input) => do
    let (next, w) ← partyStep env (path i) (flags i) s.world (s.at_ i) input
    return ⟨w, Function.update s.at_ i next⟩

/-- Nothing has happened yet: the table is empty, and each party is about to start. -/
structure Starts (s : State ι) : Prop where
  table : ∀ path, s.world.table path = none
  heap : ∀ addr, s.world.heap addr = none
  at_ : ∀ i, s.at_ i = .looking ∨ s.at_ i = .seeking ∨ s.at_ i = .visiting

end System

section Alone

variable {env : Env} {path : CStr} {flags : BitVec 32} {w w' : World} {init : At × World → Prop}

/-- A party alone. -/
def partyAlone (env : Env) (path : CStr) (flags : BitVec 32) (s : At × World) (input : Input) : Exec (At × World) :=
  partyStep env path flags s.2 s.1 input

/-- What a party alone can come to. -/
def Alone (env : Env) (path : CStr) (flags : BitVec 32) (start : At × World) : At × World → Prop :=
  GuardedRuns.Reaches (partyAlone env path flags) GuardedRuns.unguarded fun s => s = start

/-- It has come nowhere yet. -/
theorem Alone.start (s : At × World) : Alone env path flags s s := GuardedRuns.Reaches.start rfl

/-- It goes on. -/
theorem Alone.step {s₀ s : At × World} {at_ : At} (h : Alone env path flags s₀ (at_, w)) (input : Input)
    (hstep : partyStep env path flags w at_ input = .done s) : Alone env path flags s₀ s :=
  GuardedRuns.Reaches.step (i := input) h trivial hstep

/-- A path without an entry gets one as usual. -/
theorem hashInsert_of_none (pe : Pentry) (h : w.table path = none) : hashInsert w path pe = w.insert path pe := by
  rw [hashInsert, World.remove, h]

/-- `dfs_open` finds or makes the entry. -/
theorem alone_counting {replies : OpenReplies} {addr : ℕ} (h : findOrPopulate w path replies = some (addr, w')) :
    Alone env path flags (.looking, w) (.counting addr, w') := by
  rcases findOrPopulate_cases h with ⟨htable, rfl⟩ | ⟨htable, rfl, rfl⟩
  · refine (Alone.start _).step (.opening .success replies) ?_
    simp only [partyStep, openStep, htable]
  · have hpopulating : Alone env path flags (.looking, w) (.populating, w) := by
      refine (Alone.start _).step (.opening .success replies) ?_
      simp only [partyStep, openStep, htable]
    refine hpopulating.step (.opening .success replies) ?_
    have hgranted : ¬ (replies.alloc = false ∨ replies.keyDup = false) := by
      intro hfailed
      simp only [findOrPopulate, htable, populateHash, if_pos hfailed] at h
      cases h
    simp only [partyStep, openStep, if_neg hgranted, hashInsert_of_none _ htable]
    rfl

/-- Storing an entry twice. -/
theorem put_put (w : World) (addr : ℕ) (pe pe' : Pentry) : (w.put addr pe).put addr pe' = w.put addr pe' := by
  unfold World.put
  simp only [Function.update_idem]

/-- Providing a descriptor does not look at what is stored for the entry. -/
theorem openEntry_put (addr : ℕ) (pe pe' : Pentry) (mode : StateMode) (replies : OpenReplies) :
    openEntry env (w.put addr pe') addr pe path mode replies = openEntry env w addr pe path mode replies := by
  unfold openEntry World.put
  simp only [Function.update_idem]

/-- Where a party is while `dfs_open` is there, or after it returned. -/
inductive Opening (flags : BitVec 32) (addr : ℕ) : OpenAt → At → Prop
  | fetched {at_ : OpenAt} : Opening flags addr at_ (fetched flags addr at_)
  | refused {counted locked : Option ℕ} : Opening flags addr (.returned (-1)) (.finished (-1) counted locked)

/-- The entry that a `dfs_open` works on. -/
def openedAddr (w : World) (path : CStr) : ℕ := (w.table path).getD w.nextAddr

/-- The entry found or made is the one `dfs_open` works on. -/
theorem openedAddr_eq {replies : OpenReplies} {addr : ℕ} (h : findOrPopulate w path replies = some (addr, w')) :
    openedAddr w path = addr := by
  rcases findOrPopulate_cases h with ⟨htable, -⟩ | ⟨htable, haddr, -⟩
  · rw [openedAddr, htable, Option.getD_some]
  · rw [openedAddr, htable, Option.getD_none, haddr]

/-- `dfs_open` counts and locks the entry. -/
theorem alone_providing {pe : Pentry} {addr : ℕ} {s : At × World} {replies : OpenReplies}
    (h : Alone env path flags s (.counting addr, w)) (hheap : w.heap addr = some pe)
    (hlock : getModeFromFlags flags ≠ .rdonly → replies.lock = true ∧ pe.locked = false) :
    Alone env path flags s
      (.providing addr, w.put addr (pe.held replies.semPost (getModeFromFlags flags))) := by
  have hcounted := h.step (.opening .success replies) (s := (if getModeFromFlags flags = .rdonly then .providing addr
    else .locking addr, w.put addr (pe.incRefcount replies.semPost))) (by
      simp only [partyStep, openStep, access, hheap])
  by_cases hmode : getModeFromFlags flags = .rdonly
  · rw [if_pos hmode] at hcounted
    rw [Pentry.held, if_pos hmode]
    exact hcounted
  · obtain ⟨hgranted, hfree⟩ := hlock hmode
    rw [if_neg hmode] at hcounted
    rw [Pentry.held, if_neg hmode]
    refine hcounted.step (.opening .success replies) ?_
    have hfree' : (pe.incRefcount replies.semPost).locked = false := by
      cases hpost : replies.semPost <;> simpa [Pentry.incRefcount, hpost] using hfree
    simp only [partyStep, openStep, access, World.put_heap_self, hgranted, Bool.true_eq_false, if_false, hfree',
      Bool.false_eq_true, put_put]

/-- `dfs_open` up to its first remote call. -/
theorem alone_starts {addr : ℕ} {pe : Pentry} {s : At × World} {replies : OpenReplies} {next : OpenAt}
    (h : Alone env path flags s (.counting addr, w)) (hheap : w.heap addr = some pe)
    (hstart : Overtaking.startOpen env path flags w addr pe replies = .done (next, w')) :
    ∃ at_, Alone env path flags s (at_, w') ∧ Opening flags addr next at_ := by
  unfold Overtaking.startOpen at hstart
  simp only at hstart
  split at hstart
  · rename_i hrefused
    obtain ⟨pe', hwait, hdone⟩ := Exec.bind_eq_done.mp hstart
    obtain ⟨rfl, rfl⟩ := Prod.mk.inj (Exec.done.inj hdone)
    have hlocking := h.step (.opening .success replies) (s := (.locking addr,
      w.put addr (pe.incRefcount replies.semPost))) (by
        simp only [partyStep, openStep, access, hheap, if_neg hrefused.1])
    have hgivesUp := hlocking.step (.opening .success replies) (s := (.refused addr,
      w.put addr (pe.incRefcount replies.semPost))) (by
        simp only [partyStep, openStep, access, World.put_heap_self, if_pos hrefused.2])
    refine ⟨.finished (-1) none none, hgivesUp.step (.opening .success replies) ?_, .refused⟩
    simp only [partyStep, openStep, access, World.put_heap_self, hwait, Exec.done_bind, put_put]
    rfl
  · rename_i hrefused
    split at hstart
    · cases hstart
    · rename_i hfree
      have hgranted : getModeFromFlags flags ≠ .rdonly → replies.lock = true ∧ pe.locked = false := fun hmode =>
        ⟨by simpa using fun hlock => hrefused ⟨hmode, hlock⟩, by simpa using fun hlocked => hfree ⟨hmode, hlocked⟩⟩
      have hproviding := alone_providing h hheap hgranted
      split at hstart
      · rename_i hdownload
        obtain ⟨rfl, rfl⟩ := Prod.mk.inj (Exec.done.inj hstart)
        refine ⟨_, hproviding.step (.opening .success replies) ?_, .fetched⟩
        simp only [partyStep, openStep, access, World.put_heap_self, if_pos hdownload]
        rfl
      · rename_i hlocal
        obtain ⟨opened, hentry, hdone⟩ := Exec.bind_eq_done.mp hstart
        obtain ⟨rfl, rfl⟩ := Prod.mk.inj (Exec.done.inj hdone)
        refine ⟨_, hproviding.step (.opening .success replies) ?_, .fetched⟩
        simp only [partyStep, openStep, access, World.put_heap_self, if_neg hlocal, openEntry_put]
        rw [hentry]
        rfl

/-- A party alone follows a `dfs_open` alone. -/
theorem alone_follows {s : OpenAt × World}
    (h : GuardedRuns.Reaches (Overtaking.openAlone env path flags) GuardedRuns.unguarded (fun s => s = (.start, w)) s) :
    s = (.start, w) ∨
      ∃ at_, Alone env path flags (.looking, w) (at_, s.2) ∧ Opening flags (openedAddr w path) s.1 at_ := by
  induction h with
  | start hs => exact .inl hs
  | @step s s' answer _ _ hnext ih =>
    obtain ⟨next, w'⟩ := s'
    obtain ⟨before, w₀⟩ := s
    refine .inr ?_
    rcases ih with hfirst | ⟨at_, hreached, hopening⟩
    · obtain ⟨hbefore, hworld⟩ := Prod.mk.inj hfirst
      subst hbefore hworld
      simp only [Overtaking.openAlone, Overtaking.openStep] at hnext
      split at hnext
      · rename_i hnone
        obtain ⟨rfl, rfl⟩ := Prod.mk.inj (Exec.done.inj hnext)
        obtain ⟨htable, hfailed⟩ := (findOrPopulate_eq_none _ _ _).mp hnone
        have hpopulating : Alone env path flags (.looking, w₀) (.populating, w₀) := by
          refine (Alone.start _).step (.opening .success answer.2) ?_
          simp only [partyStep, openStep, htable]
        refine ⟨.finished (-1) none none, hpopulating.step (.opening .success answer.2) ?_, .refused⟩
        simp only [partyStep, openStep, if_pos hfailed]
      · rename_i addr w₁ hsome
        split at hnext
        · cases hnext
        · rename_i pe hheap
          rw [openedAddr_eq hsome]
          exact alone_starts (alone_counting hsome) hheap hnext
    · cases hopening with
      | refused => cases hnext
      | fetched =>
        refine ⟨fetched flags (openedAddr w path) next, ?_, .fetched⟩
        have hfetching : ∀ {a : OpenAt}, (∀ ret, a ≠ .returned ret) →
            fetched flags (openedAddr w path) a = .fetching (openedAddr w path) a := by
          intro a ha
          cases a with
          | returned ret => exact absurd rfl (ha ret)
          | _ => rfl
        rw [hfetching fun ret hret => by subst hret; cases hnext] at hreached
        refine hreached.step (.opening answer.1 answer.2) ?_
        change Overtaking.openStep env path flags w₀ before answer.1 answer.2 = .done (next, w') at hnext
        simp only [partyStep, openStep, hnext, Exec.done_bind]
        rfl

/-- A `dfs_open` that runs alone comes to what it returns at once: the file is held, or nothing is left to do. -/
theorem alone_opens {replies : OpenReplies} {opened : Opened} (h : dfsOpen env w path flags replies = .done opened) :
    ∃ at_, Alone env path flags (.looking, w) (at_, opened.world) ∧
      ((opened.ret = 0 ∧ ∃ addr, opened.fh = some addr ∧ at_ = .holding addr) ∨
        (opened.ret = -1 ∧ ∃ counted locked, at_ = .finished (-1) counted locked)) := by
  rcases alone_follows (Overtaking.openAlone_reaches h) with hsame | ⟨at_, hreached, hopening⟩
  · cases (Prod.mk.inj hsame).1
  · refine ⟨at_, hreached, ?_⟩
    have hfailed : ∀ {ret counted locked}, ret = -1 → opened.ret = ret →
        opened.ret = -1 ∧ ∃ c l, (At.finished (-1) counted locked) = .finished (-1) c l :=
      fun hret hopened => ⟨hopened.trans hret, _, _, rfl⟩
    have haddr : ∀ {w₁ pe addr}, Found w path replies addr w₁ pe → openedAddr w path = addr :=
      fun hfound => openedAddr_eq hfound.lookup
    cases dfsOpen_outcome h with
    | succeeded hfound =>
      cases hopening with
      | fetched => exact .inl ⟨rfl, _, rfl, by simp [fetched, openReturned, haddr hfound]⟩
    | noEntry =>
      cases hopening with
      | fetched => exact .inr ⟨rfl, _, _, rfl⟩
      | refused => exact .inr ⟨rfl, _, _, rfl⟩
    | lockFailed =>
      cases hopening with
      | fetched => exact .inr ⟨rfl, _, _, rfl⟩
      | refused => exact .inr ⟨rfl, _, _, rfl⟩
    | failed =>
      cases hopening with
      | fetched => exact .inr ⟨rfl, _, _, rfl⟩
      | refused => exact .inr ⟨rfl, _, _, rfl⟩

/-- Block by block, the transfer comes to what `read_write_all_vfile` returns. -/
theorem alone_transfers {addr : ℕ} {up : Uploading} {s : At × World} (replies : ReleaseReplies) {fuel block : ℕ}
    {sent : Bytes} (h : Alone env path flags s (.transferring addr up block sent, w)) {unread : Bytes}
    (hunread : w.fs.unread up.outgoing.fd = unread) (hfuel : unread.length < fuel) {result : Sent}
    (hresult : sendBlocks replies.read replies.write fuel block unread sent = result) :
    Alone env path flags s (.closing addr up result.sent result.ret,
      { w with fs := w.fs.advance up.outgoing.fd (unread.length - result.unread.length) }) := by
  have hgoesOn := fun {t} => h.step (.release replies) (s := t)
  simp only [partyStep, releaseStep, uploadStep, hunread] at hgoesOn
  induction fuel generalizing w block unread sent with
  | zero => omega
  | succ fuel ih =>
    unfold sendBlocks at hresult
    cases hread : replies.read block with
    | none =>
      simp only [hread] at hresult hgoesOn
      subst hresult
      rw [Nat.sub_self, LocalFs.advance_zero]
      exact hgoesOn rfl
    | some count =>
      simp only [hread] at hresult hgoesOn
      by_cases hend : unread = []
      · rw [if_pos hend] at hresult hgoesOn
        subst hresult hend
        rw [Nat.sub_self, LocalFs.advance_zero]
        exact hgoesOn rfl
      · rw [if_neg hend] at hresult hgoesOn
        -- at least one byte is read
        have hsize : 0 < max 1 (min count writeBlockSize) := by omega
        generalize max 1 (min count writeBlockSize) = size at hsize hresult hgoesOn
        have hnonempty := List.length_pos_iff.mpr hend
        by_cases hwritten : replies.write block = .success
        · rw [if_pos hwritten] at hresult hgoesOn
          have hleft : (w.fs.advance up.outgoing.fd (min size unread.length)).unread up.outgoing.fd =
              unread.drop size := by
            rw [LocalFs.unread_advance, hunread]
            rcases Nat.le_total size unread.length with hle | hle
            · rw [Nat.min_eq_left hle]
            · rw [Nat.min_eq_right hle, List.drop_length, List.drop_eq_nil_of_le hle]
          have hless := sendBlocks_unread_le replies.read replies.write fuel (block + 1) (unread.drop size)
            (sent ++ unread.take size)
          have hnext := hgoesOn rfl
          have hrest := ih hnext hleft (by rw [List.length_drop]; omega) hresult fun {t} => by
            simpa only [partyStep, releaseStep, uploadStep, hleft] using hnext.step (.release replies) (s := t)
          rw [hresult, List.length_drop] at hless
          rw [LocalFs.advance_advance, List.length_drop] at hrest
          have htotal : min size unread.length + (unread.length - size - result.unread.length) =
              unread.length - result.unread.length := by omega
          rw [htotal] at hrest
          exact hrest
        · rw [if_neg hwritten] at hresult hgoesOn
          subst hresult
          have htotal : unread.length - (unread.drop size).length = min size unread.length := by
            rw [List.length_drop]
            omega
          rw [htotal]
          exact hgoesOn rfl

/-- Call by call, the transfer of what was chosen comes to what `push` comes to at once. -/
theorem alone_pushes {addr : ℕ} {up : Uploading} {s : At × World} {replies : ReleaseReplies}
    (h : Alone env path flags s (.openwriting addr up, w)) :
    Alone env path flags s (uploaded addr up.fd up.streams up.scratch
      (if (push env w path up.outgoing replies).1 then 0 else -1) (push env w path up.outgoing replies).2 replies) := by
  have hopenwrite := fun {t} => h.step (.release replies) (s := t)
  simp only [partyStep, releaseStep, uploadStep] at hopenwrite
  unfold push
  generalize w.log (.openwrite path env.conf.usesAes up.outgoing.size) = w₁ at hopenwrite ⊢
  by_cases hrefused : replies.openwrite ≠ .success
  · simp only [if_pos hrefused] at hopenwrite ⊢
    exact hopenwrite rfl
  · simp only [if_neg hrefused] at hopenwrite ⊢
    have hret := sendBlocks_ret_cases replies.read replies.write ((w₁.fs.unread up.outgoing.fd).length + 1) 0
      (w₁.fs.unread up.outgoing.fd) []
    have hclosing := alone_transfers replies (hopenwrite rfl) rfl (Nat.lt_succ_self _) rfl
    unfold readWriteAllVfile
    generalize sendBlocks replies.read replies.write ((w₁.fs.unread up.outgoing.fd).length + 1) 0
      (w₁.fs.unread up.outgoing.fd) [] = result at hret hclosing ⊢
    have hresult : (if replies.close.status = .success then result.ret else -1) =
        if (decide (result.ret ≠ -1 ∧ replies.close.status = .success)) = true then 0 else -1 := by
      rcases hret with hzero | hfailed
      · simp [hzero]
      · simp [hfailed]
    rw [← hresult]
    exact hclosing.step (.release replies) rfl

/-- Call by call, `dfs_release` comes to what its upload comes to at once. -/
theorem alone_uploads {addr fd : ℕ} {st : Stat} {pe : Pentry} {s : At × World} {replies : ReleaseReplies} {ok : Bool}
    (h : Alone env path flags s (.sending addr fd st, w)) (hheap : w.heap addr = some pe)
    (hexclude : pe.exclude = false)
    (hupload : upload env w path fd st replies = .done (ok, w')) :
    Alone env path flags s (.cleaning addr false (if ok then 0 else -1), w') := by
  have hstart := fun {t} => h.step (.release replies) (s := t)
  simp only [partyStep, releaseStep, access, hheap, hexclude, startUpload, Bool.false_eq_true, if_false] at hstart
  unfold upload at hupload
  split at hupload
  · cases hupload
  · rename_i hdict
    obtain ⟨packed, hpack, hdone⟩ := Exec.bind_eq_done.mp hupload
    obtain ⟨rfl, rfl⟩ := Prod.mk.inj (Exec.done.inj hdone)
    rw [if_neg hdict] at hstart
    simp only [hpack, Exec.done_bind] at hstart
    unfold pushPacked
    cases houtgoing : packed.outgoing with
    | none =>
      simp only [houtgoing] at hstart
      exact hstart rfl
    | some outgoing =>
      simp only [houtgoing] at hstart
      exact alone_pushes (hstart rfl)

/-- A `dfs_release` that runs alone comes to what it returns at once. -/
theorem alone_releases {replies : ReleaseReplies} {addr : ℕ} {released : Released}
    (h : dfsRelease env w addr path flags replies = .done released) :
    ∃ counted locked,
      Alone env path flags (.holding addr, w) (.finished released.ret counted locked, released.world) := by
  have hcleaned : ∀ {w₁ : World} {pe : Pentry} {counted : Bool} {ret : ℤ}, w₁.heap addr = some pe →
      Alone env path flags (.holding addr, w) (.cleaning addr counted ret, w₁) →
      ∃ counted locked, Alone env path flags (.holding addr, w)
        (.finished ret counted locked, w₁.put addr (pe.markClean replies.unlock)) := by
    intro w₁ pe counted ret hheap hcleaning
    refine ⟨if counted then some addr else none, if replies.unlock then none else some addr,
      hcleaning.step (.release replies) ?_⟩
    simp only [partyStep, releaseStep, access, hheap]
  unfold dfsRelease at h
  split at h
  · cases h
  · rename_i pe hheap
    have hgoesOn : ∀ {at_ : At} {w₁ : World} {s : At × World}, Alone env path flags (.holding addr, w) (at_, w₁) →
        releaseStep env path flags w₁ replies at_ = .done s → Alone env path flags (.holding addr, w) s :=
      fun hreached hstep => hreached.step (.release replies) hstep
    have hfirst := fun {s} => hgoesOn (s := s) (.start _)
    simp only [releaseStep, access, hheap] at hfirst
    split at h
    · rename_i hfd
      obtain rfl := Exec.done.inj h
      rw [if_pos hfd] at hfirst
      exact hcleaned hheap (hfirst rfl)
    · rename_i hfd
      rw [if_neg hfd] at hfirst
      split at h
      · rename_i hfstat
        obtain rfl := Exec.done.inj h
        simp only [hfstat] at hfirst
        exact hcleaned hheap (hfirst rfl)
      · rename_i st hfstat
        simp only [hfstat] at hfirst
        obtain ⟨pe', hwait, hrest⟩ := Exec.bind_eq_done.mp h
        have hcounted := fun {s} => hgoesOn (s := s) (hfirst rfl)
        simp only [releaseStep, access, hheap, hwait, Exec.done_bind] at hcounted
        by_cases hrdonly : isRdonly flags = true
        · rw [if_pos hrdonly] at hrest hcounted
          obtain rfl := Exec.done.inj hrest
          exact ⟨none, _, hcounted rfl⟩
        · rw [if_neg hrdonly] at hrest hcounted
          have hcounted := hcounted rfl
          have hsending := fun {s} => hgoesOn (s := s) hcounted
          simp only [releaseStep, access, World.put_heap_self] at hsending
          split at hrest
          · rename_i hexclude
            obtain rfl := Exec.done.inj hrest
            rw [if_pos hexclude] at hsending
            obtain ⟨counted, locked, hdone⟩ := hcleaned (World.put_heap_self ..) (hsending rfl)
            rw [put_put] at hdone
            exact ⟨counted, locked, hdone⟩
          · rename_i hinclude
            rw [if_neg hinclude] at hsending
            obtain ⟨⟨ok, w'⟩, hupload, hdone⟩ := Exec.bind_eq_done.mp hrest
            obtain rfl := Exec.done.inj hdone
            have hfd : pe'.fd = pe.fd := by
              obtain ⟨rfl, -⟩ := Pentry.decRefcount_eq hwait
              rfl
            rw [hfd] at hupload
            obtain ⟨fs, remote, trace, rfl⟩ := upload_frame hupload
            have hsent := upload_heap (Function.update w.heap addr (some pe')) hupload
            change upload env (w.put addr pe') path pe.fd.toNat st replies = _ at hsent
            have hstored : Function.update w.heap addr (some pe') addr = some pe' := Function.update_self ..
            obtain ⟨counted, locked, hdone⟩ := hcleaned hstored
              (alone_uploads hcounted (World.put_heap_self ..) (by simpa using hinclude) hsent)
            refine ⟨counted, locked, ?_⟩
            simp only [World.put, Function.update_idem] at hdone
            exact hdone

/-- Removing a path does not look at its entry beyond the descriptor. -/
theorem put_collect (w : World) {addr : ℕ} {pe : Pentry} (locked : Bool) (htable : w.table path = some addr)
    (hheap : w.heap addr = some pe) (conf : Conf) (reply : Bool) :
    (w.put addr { pe with locked := locked }).collect conf path reply = w.collect conf path reply := by
  unfold World.collect World.remove World.free World.put
  simp only [htable, hheap, Function.update_self, Function.update_idem]

/-- A visit of `gc_callback` that runs alone comes to what it does at once. -/
theorem alone_collects {replies : GcReplies} (h : gcCallback env w path replies = .done w') :
    ∃ locked, Alone env path flags (.visiting, w) (.finished 0 none locked, w') := by
  have hgoesOn : ∀ {at_ : At} {w₁ : World} {s : At × World}, Alone env path flags (.visiting, w) (at_, w₁) →
      gcStep env path w₁ replies at_ = .done s → Alone env path flags (.visiting, w) s :=
    fun hreached hstep => hreached.step (.gc replies) hstep
  have hfirst := fun {s} => hgoesOn (s := s) (.start _)
  unfold gcCallback at h
  split at h
  · rename_i htable
    obtain rfl := Exec.done.inj h
    exact ⟨none, hfirst (by simp only [gcStep, htable])⟩
  · rename_i addr htable
    split at h
    · cases h
    · rename_i pe hheap
      have hreading := hfirst (s := (.reading addr, w)) (by simp only [gcStep, htable])
      have hread := fun {s} => hgoesOn (s := s) hreading
      simp only [gcStep, access, hheap] at hread
      split at h
      · rename_i hcounted
        obtain rfl := Exec.done.inj h
        rw [if_pos hcounted] at hread
        exact ⟨none, hread rfl⟩
      · rename_i huncounted
        rw [if_neg huncounted] at hread
        have hchecked := fun {s} => hgoesOn (s := s) (hread rfl)
        simp only [gcStep, access, hheap] at hchecked
        split at h
        · rename_i hbusy
          obtain rfl := Exec.done.inj h
          rw [if_pos hbusy] at hchecked
          exact ⟨none, hchecked rfl⟩
        · rename_i hfree
          obtain rfl := Exec.done.inj h
          rw [if_neg hfree] at hchecked
          have hexamined := fun {s} => hgoesOn (s := s) (hchecked rfl)
          simp only [gcStep, access, World.put_heap_self, World.put_fs] at hexamined
          have hkept : Alone env path flags (.visiting, w) (.unlocking addr, w.put addr { pe with locked := true }) →
              ∃ locked, Alone env path flags (.visiting, w)
                (.finished 0 none locked, w.put addr { pe with locked := if replies.unlock then false else true }) := by
            intro hunlocking
            refine ⟨if replies.unlock then none else some addr, hgoesOn hunlocking ?_⟩
            simp only [gcStep, access, World.put_heap_self, put_put]
          have hdropped : Alone env path flags (.visiting, w) (.dropping addr, w.put addr { pe with locked := true }) →
              ∃ locked, Alone env path flags (.visiting, w)
                (.finished 0 none locked, w.collect env.conf path replies.unlinkCache) := by
            intro hdropping
            refine ⟨none, ?_⟩
            rw [← put_collect w true htable hheap]
            exact hgoesOn (hgoesOn hdropping rfl) rfl
          by_cases hnone : pe.fd = -1
          · rw [if_pos hnone] at hexamined
            simp only [gcExamine, if_pos hnone]
            exact hkept (hexamined rfl)
          · rw [if_neg hnone] at hexamined
            simp only [gcExamine, if_neg hnone]
            cases hfstat : w.fs.fstat pe.fd replies.fstat with
            | none =>
              simp only [hfstat] at hexamined
              exact hdropped (hexamined rfl)
            | some st =>
              simp only [hfstat] at hexamined
              by_cases hold : st.expired (pe.gcThreshold env.conf) replies.now = true
              · simp only [if_pos hold]
                exact hdropped (hexamined (if_pos hold))
              · simp only [if_neg hold]
                exact hkept (hexamined (if_neg hold))

/-- A party alone follows a `dfs_getattr` alone. -/
theorem alone_asks {s : GetattrAt × World}
    (h : GuardedRuns.Reaches (Overtaking.getattrAlone env path) GuardedRuns.unguarded (fun s => s = (.start, w)) s) :
    s = (.start, w) ∨ Alone env path flags (.seeking, w) (asked s.1, s.2) := by
  induction h with
  | start hs => exact .inl hs
  | @step s s' answer _ _ hnext ih =>
    obtain ⟨next, w'⟩ := s'
    obtain ⟨before, w₀⟩ := s
    refine .inr ?_
    change Overtaking.getattrStep env path w₀ before answer.1 answer.2 = .done (next, w') at hnext
    have hgoesOn : ∀ {at_ : At} {w₁ : World} {s : At × World}, Alone env path flags (.seeking, w) (at_, w₁) →
        getattrStep env path w₁ answer.1 answer.2 at_ = .done s → Alone env path flags (.seeking, w) s :=
      fun hreached hstep => hreached.step (.getattr answer.1 answer.2) hstep
    rcases ih with hfirst | hreached
    · obtain ⟨hbefore, hworld⟩ := Prod.mk.inj hfirst
      subst hbefore hworld
      have hseeking := fun {s} => hgoesOn (s := s) (.start _)
      simp only [getattrStep] at hseeking
      simp only [Overtaking.getattrStep, Overtaking.startGetattr] at hnext
      split at hnext
      · rename_i hroot
        obtain ⟨rfl, rfl⟩ := Prod.mk.inj (Exec.done.inj hnext)
        rw [if_pos hroot] at hseeking
        exact hseeking rfl
      · rename_i hroot
        rw [if_neg hroot] at hseeking
        -- what is left once the entry is found or made
        have hdescribes : ∀ {addr : ℕ} {w₁ : World}, Alone env path flags (.seeking, w₀) (.describing addr, w₁) →
            (match w₁.heap addr with
              | none => .undefined
              | some pe =>
                if pe.ondisk = .unset then .done (.namei addr env.conf.maxRetry.toNat, w₁)
                else do
                  let looked ← getattrByPlaceholder env w₁ addr pe path .single answer.2
                  return Overtaking.lookedUp addr looked answer.2) = Exec.done (next, w') →
            Alone env path flags (.seeking, w₀) (asked next, w') := by
          intro addr w₁ hdescribing hrest
          refine hgoesOn hdescribing ?_
          split at hrest
          · cases hrest
          · rename_i pe hheap
            simp only [getattrStep, access, hheap]
            split at hrest
            · rename_i hunset
              obtain ⟨rfl, rfl⟩ := Prod.mk.inj (Exec.done.inj hrest)
              rw [if_pos hunset]
              rfl
            · rename_i hset
              obtain ⟨looked, hlook, hdone⟩ := Exec.bind_eq_done.mp hrest
              obtain ⟨rfl, rfl⟩ := Prod.mk.inj (Exec.done.inj hdone)
              rw [if_neg hset, hlook]
              rfl
        cases htable : w₀.table path with
        | some addr =>
          simp only [Overtaking.findOrInsert, htable] at hnext
          simp only [htable] at hseeking
          exact hdescribes (hseeking rfl) hnext
        | none =>
          simp only [htable] at hseeking
          have hadding := fun {s} => hgoesOn (s := s) (hseeking rfl)
          simp only [getattrStep] at hadding
          by_cases hfailed : answer.2.alloc = false ∨ answer.2.keyDup = false
          · simp only [Overtaking.findOrInsert, htable, if_pos hfailed] at hnext
            obtain ⟨rfl, rfl⟩ := Prod.mk.inj (Exec.done.inj hnext)
            rw [if_pos hfailed] at hadding
            exact hadding rfl
          · simp only [Overtaking.findOrInsert, htable, if_neg hfailed] at hnext
            simp only [if_neg hfailed, hashInsert_of_none _ htable] at hadding
            exact hdescribes (hadding rfl) hnext
    · cases before with
      | returned ret => cases hnext
      | _ =>
        refine hgoesOn hreached ?_
        simp only [asked, getattrStep, hnext, Exec.done_bind]
        rfl

/-- A `dfs_getattr` that runs alone comes to what it returns at once. -/
theorem alone_looks {replies : GetattrReplies} {looked : Lookup} (h : dfsGetattr env w path replies = .done looked) :
    Alone env path flags (.seeking, w) (.finished looked.ret none none, looked.world) := by
  rcases alone_asks (Overtaking.getattrAlone_reaches h) with hsame | hreached
  · cases (Prod.mk.inj hsame).1
  · exact hreached

end Alone

section Undisturbed

variable {ι : Type} [DecidableEq ι] {env : Env} {path : ι → CStr} {flags : ι → BitVec 32}

/-- The states that the parties come to from a given one. -/
def Leads (env : Env) (path : ι → CStr) (flags : ι → BitVec 32) (s : State ι) : State ι → Prop :=
  GuardedRuns.Reaches (step env path flags) GuardedRuns.unguarded fun t => t = s

/-- While the others wait, a party comes to what it comes to alone. -/
theorem Alone.leads {s : State ι} {i : ι} {t : At × World}
    (h : Alone env (path i) (flags i) (s.at_ i, s.world) t) :
    Leads env path flags s ⟨t.2, Function.update s.at_ i t.1⟩ := by
  induction h with
  | start ht =>
    subst ht
    refine GuardedRuns.Reaches.start ?_
    simp only [Function.update_eq_self]
  | @step t t' input _ _ hnext ih =>
    refine GuardedRuns.Reaches.step (i := (i, input)) ih trivial ?_
    have hparty : partyStep env (path i) (flags i) t.2 t.1 input = .done t' := hnext
    simp only [Threads.step, Function.update_self, hparty, Exec.done_bind, Function.update_idem]
    rfl

/-- A request that is not interrupted does what it does when it is run at once, whatever the others have done before:
alone, an open, a release, a lookup and a visit of the collector come to what they return and leave, and what a party
comes to alone it comes to while the others wait. -/
theorem undisturbed_sequential (env : Env) (path : ι → CStr) (flags : ι → BitVec 32) (s : State ι) (i : ι) :
    (∀ replies opened, s.at_ i = .looking → dfsOpen env s.world (path i) (flags i) replies = .done opened →
      ∃ at_, Alone env (path i) (flags i) (s.at_ i, s.world) (at_, opened.world) ∧
        ((opened.ret = 0 ∧ ∃ addr, opened.fh = some addr ∧ at_ = .holding addr) ∨
          (opened.ret = -1 ∧ ∃ counted locked, at_ = .finished (-1) counted locked))) ∧
    (∀ replies addr released, s.at_ i = .holding addr →
      dfsRelease env s.world addr (path i) (flags i) replies = .done released → ∃ counted locked,
        Alone env (path i) (flags i) (s.at_ i, s.world) (.finished released.ret counted locked, released.world)) ∧
    (∀ replies looked, s.at_ i = .seeking → dfsGetattr env s.world (path i) replies = .done looked →
      Alone env (path i) (flags i) (s.at_ i, s.world) (.finished looked.ret none none, looked.world)) ∧
    (∀ replies w, s.at_ i = .visiting → gcCallback env s.world (path i) replies = .done w → ∃ locked,
      Alone env (path i) (flags i) (s.at_ i, s.world) (.finished 0 none locked, w)) ∧
    ∀ at_ w, Alone env (path i) (flags i) (s.at_ i, s.world) (at_, w) →
      Leads env path flags s ⟨w, Function.update s.at_ i at_⟩ := by
  refine ⟨fun replies opened hat hopen => ?_, fun replies addr released hat hrelease => ?_,
    fun replies looked hat hlook => ?_, fun replies w hat hcollect => ?_, fun at_ w halone => halone.leads⟩
  · rw [hat]
    exact alone_opens hopen
  · rw [hat]
    exact alone_releases hrelease
  · rw [hat]
    exact alone_looks hlook
  · rw [hat]
    exact alone_collects hcollect

/-- Of two files about to be opened, the first is. -/
theorem undisturbed_sequential_first : ∃ (opened : Opened) (s : State (Fin 2)),
    dfsOpen Env.plain (.start .empty ∅) "/f".toList oRdwr (.granted 3) = .done opened ∧ s.at_ 0 = .holding 0 ∧
      s.world = opened.world ∧
      Alone Env.plain "/f".toList oRdwr (.looking, .start .empty ∅) (s.at_ 0, s.world) ∧
      Leads Env.plain (fun _ => "/f".toList) (fun _ => oRdwr) ⟨.start .empty ∅, fun _ => .looking⟩ s := by
  obtain ⟨opened, hopen, hret, hfh⟩ : ∃ opened,
      dfsOpen Env.plain (.start .empty ∅) "/f".toList oRdwr (.granted 3) = .done opened ∧ opened.ret = 0 ∧
        opened.fh = some 0 := ⟨_, rfl, rfl, rfl⟩
  obtain ⟨hopens, -, -, -, hleads⟩ := undisturbed_sequential Env.plain (fun _ => "/f".toList) (fun _ => oRdwr)
    ⟨.start .empty ∅, fun _ => .looking⟩ (0 : Fin 2)
  obtain ⟨at_, halone, hresult⟩ := hopens (.granted 3) opened rfl hopen
  rcases hresult with ⟨-, addr, haddr, rfl⟩ | ⟨hfailed, -⟩
  · rw [hfh] at haddr
    obtain rfl := Option.some.inj haddr
    exact ⟨opened, _, hopen, rfl, rfl, halone, hleads _ _ halone⟩
  · rw [hret] at hfailed
    cases hfailed

end Undisturbed

end Threads

end Dropletfs
