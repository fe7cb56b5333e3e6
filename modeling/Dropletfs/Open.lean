import Dropletfs.Download

/-!
# Opening a file

The access mode of a handle is derived from its flags. A mode other than read-only takes
the mutex of the entry; then the mode's own function provides a descriptor, from the entry,
from a download, or by truncating the cache file.
-/

namespace Dropletfs

/-- `O_ACCMODE`. -/
def oAccmode : BitVec 32 := 3#32

/-- `O_RDONLY`. -/
def oRdonly : BitVec 32 := 0#32

/-- `O_WRONLY`. -/
def oWronly : BitVec 32 := 1#32

/-- `O_RDWR`. -/
def oRdwr : BitVec 32 := 2#32

/-- `O_CREAT`. -/
def oCreat : BitVec 32 := 0o100#32

/-- `O_TRUNC`. -/
def oTrunc : BitVec 32 := 0o1000#32

/-- `O_APPEND`. -/
def oAppend : BitVec 32 := 0o2000#32

/-- A flag of an open flags word is set. -/
def hasFlag (flags flag : BitVec 32) : Bool := flags &&& flag != 0#32

/-- The access mode in an open flags word is read-only. -/
def isRdonly (flags : BitVec 32) : Bool := flags &&& oAccmode == oRdonly

/-- `enum state_mode`. -/
inductive StateMode where
  | rdonly
  | wronly
  | rdwr
  | creat
  deriving DecidableEq, Repr

/-- `open_flags`. -/
def openFlags : StateMode → OpenFlags
  | .rdonly => ⟨false, false, false⟩
  | .wronly => ⟨true, false, false⟩
  | .rdwr => ⟨true, false, false⟩
  | .creat => ⟨true, true, true⟩

/-- `get_mode_from_flags`. -/
def getModeFromFlags (flags : BitVec 32) : StateMode :=
  if hasFlag flags oAppend then .rdwr
  else if hasFlag flags oCreat then .creat
  else if flags &&& oAccmode == oRdonly then .rdonly
  else if flags &&& oAccmode == oWronly then .creat
  else if flags &&& oAccmode == oRdwr then .creat
  else .rdwr

/-- Replies to the calls of `dfs_open`. -/
structure OpenReplies where
  alloc : Bool
  pathDup : Bool
  keyDup : Bool
  semPost : Bool
  lock : Bool
  semWait : Bool
  treeDup : Bool
  openCache : Option ℕ
  copy : CopyReplies

/-- Every call succeeds, and the cache file gets this descriptor. -/
def OpenReplies.granted (fd : ℕ) : OpenReplies where
  alloc := true
  pathDup := true
  keyDup := true
  semPost := true
  lock := true
  semWait := true
  treeDup := true
  openCache := some fd
  copy := .granted fd

/-- `populate_hash`: the address of a new entry, and the table that holds it. -/
def populateHash (w : World) (path : CStr) (replies : OpenReplies) : Option (ℕ × World) :=
  if replies.alloc = false ∨ replies.keyDup = false then none
  else some (w.insert path { pentryNew with path := if replies.pathDup then some path else none })

/-- `build_cache_tree`: the name of the cache file. Making its directories is left out. -/
def buildCacheTree (conf : Conf) (path : CStr) (dup : Bool) : Option CStr :=
  if dup then some (tmpstrPrintf (slashed conf.cacheDir (path.dropWhile (· == '/')))) else none

/-- `open_creat`. -/
def openCreat (env : Env) (fs : LocalFs) (pe : Pentry) (path : CStr) (flags : OpenFlags)
    (replies : OpenReplies) : ℤ × LocalFs × Pentry :=
  match buildCacheTree env.conf path replies.treeDup with
  | none => (-1, fs, pe)
  | some name =>
    match fs.openFile env.proc name flags 0o644 replies.openCache with
    | none => (-1, fs, pe)
    | some (fd, fs) => (0, fs, { pe with fd := fd, flag := .dirty })

/-- `open_existing`. -/
def openExisting (env : Env) (fs : LocalFs) (r : Remote) (pe : Pentry) (path : CStr) (flags : OpenFlags)
    (replies : OpenReplies) : Exec (ℤ × LocalFs × Pentry) :=
  if pe.fd < 0 then do
    let (fd, fs, pe) ← dfsGetLocalCopy env fs r pe path flags replies.copy
    if fd = -1 then return (-1, fs, pe)
    else return (0, fs, { pe with fd := fd })
  else .done (0, fs, pe)

/-- `open_wronly`, and `open_rdwr`, which calls it. -/
def openWronly (env : Env) (fs : LocalFs) (r : Remote) (pe : Pentry) (path : CStr) (flags : OpenFlags)
    (replies : OpenReplies) : Exec (ℤ × LocalFs × Pentry) := do
  let (ret, fs, pe) ← openExisting env fs r pe path flags replies
  if ret = 0 then return (ret, fs, { pe with flag := .dirty })
  else return (ret, fs, pe)

/-- The table of functions by mode in `dfs_open`, called with the flags of the mode. -/
def openByMode (env : Env) (fs : LocalFs) (r : Remote) (pe : Pentry) (path : CStr) (mode : StateMode)
    (replies : OpenReplies) : Exec (ℤ × LocalFs × Pentry) :=
  match mode with
  | .rdonly => openExisting env fs r pe path (openFlags .rdonly) replies
  | .wronly => openWronly env fs r pe path (openFlags .wronly) replies
  | .rdwr => openWronly env fs r pe path (openFlags .rdwr) replies
  | .creat => .done (openCreat env fs pe path (openFlags .creat) replies)

/-- What `dfs_open` returns and leaves in `info->fh`. -/
structure Opened where
  ret : ℤ
  fh : Option ℕ
  world : World

/-- The end of `dfs_open`: provide the descriptor, and mark the entry as local. -/
def openEntry (env : Env) (w : World) (addr : ℕ) (pe : Pentry) (path : CStr) (mode : StateMode)
    (replies : OpenReplies) : Exec Opened := do
  let (ret, fs, pe) ← openByMode env w.fs w.remote pe path mode replies
  let w := { w with fs := fs }
  if ret = -1 then return ⟨-1, some addr, w.put addr pe⟩
  else return ⟨0, some addr, w.put addr { pe with ondisk := .localFile }⟩

/-- `dfs_open` on the entry of the path: count the handle, and take the mutex unless read-only. -/
def lockAndOpen (env : Env) (w : World) (addr : ℕ) (pe : Pentry) (path : CStr) (flags : BitVec 32)
    (replies : OpenReplies) : Exec Opened :=
  let pe := pe.incRefcount replies.semPost
  let mode := getModeFromFlags flags
  if mode = .rdonly then openEntry env w addr pe path mode replies
  else if replies.lock = false then do
    let pe ← pe.decRefcount replies.semWait
    return ⟨-1, some addr, w.put addr pe⟩
  else if pe.locked then .blocked
  else openEntry env w addr { pe with locked := true } path mode replies

/-- The entry of the path, or a new one. -/
def findOrPopulate (w : World) (path : CStr) (replies : OpenReplies) : Option (ℕ × World) :=
  match w.table path with
  | some addr => some (addr, w)
  | none => populateHash w path replies

/-- `dfs_open`. -/
def dfsOpen (env : Env) (w : World) (path : CStr) (flags : BitVec 32) (replies : OpenReplies) : Exec Opened :=
  match findOrPopulate w path replies with
  | none => .done ⟨-1, none, w⟩
  | some (addr, w) =>
    match w.heap addr with
    | none => .undefined
    | some pe => lockAndOpen env w addr pe path flags replies

/-- `open_existing` changes only the descriptor and what a download stores. -/
theorem openExisting_entry {env : Env} {fs fs' : LocalFs} {r : Remote} {pe pe' : Pentry} {path : CStr}
    {flags : OpenFlags} {replies : OpenReplies} {ret : ℤ}
    (h : openExisting env fs r pe path flags replies = .done (ret, fs', pe')) :
    ∃ fd metadata digest, pe' = { pe with fd := fd, metadata := metadata, digest := digest } := by
  unfold openExisting at h
  split at h
  · obtain ⟨⟨fd, fs₁, pe₁⟩, hcopy, hdone⟩ := Exec.bind_eq_done.mp h
    obtain ⟨metadata, digest, hentry⟩ := dfsGetLocalCopy_entry hcopy
    simp only [pure] at hdone
    split at hdone
    · simp only [Exec.done.injEq, Prod.mk.injEq] at hdone
      exact ⟨pe.fd, metadata, digest, by rw [← hdone.2.2, hentry]⟩
    · simp only [Exec.done.injEq, Prod.mk.injEq] at hdone
      exact ⟨fd, metadata, digest, by rw [← hdone.2.2, hentry]⟩
  · simp only [Exec.done.injEq, Prod.mk.injEq] at h
    exact ⟨pe.fd, pe.metadata, pe.digest, h.2.2.symm⟩

/-- `open_wronly` also sets the flag. -/
theorem openWronly_entry {env : Env} {fs fs' : LocalFs} {r : Remote} {pe pe' : Pentry} {path : CStr}
    {flags : OpenFlags} {replies : OpenReplies} {ret : ℤ}
    (h : openWronly env fs r pe path flags replies = .done (ret, fs', pe')) :
    ∃ fd flag metadata digest,
      pe' = { pe with fd := fd, flag := flag, metadata := metadata, digest := digest } := by
  obtain ⟨⟨ret₁, fs₁, pe₁⟩, hexisting, hdone⟩ := Exec.bind_eq_done.mp h
  obtain ⟨fd, metadata, digest, hentry⟩ := openExisting_entry hexisting
  simp only [pure] at hdone
  split at hdone
  · simp only [Exec.done.injEq, Prod.mk.injEq] at hdone
    exact ⟨fd, .dirty, metadata, digest, by rw [← hdone.2.2, hentry]⟩
  · simp only [Exec.done.injEq, Prod.mk.injEq] at hdone
    exact ⟨fd, pe.flag, metadata, digest, by rw [← hdone.2.2, hentry]⟩

/-- Whatever the mode, providing a descriptor leaves the count, the mutex and the rest alone. -/
theorem openByMode_entry {env : Env} {fs fs' : LocalFs} {r : Remote} {pe pe' : Pentry} {path : CStr}
    {mode : StateMode} {replies : OpenReplies} {ret : ℤ}
    (h : openByMode env fs r pe path mode replies = .done (ret, fs', pe')) :
    ∃ fd flag metadata digest,
      pe' = { pe with fd := fd, flag := flag, metadata := metadata, digest := digest } := by
  cases mode with
  | rdonly =>
    obtain ⟨fd, metadata, digest, hentry⟩ := openExisting_entry h
    exact ⟨fd, pe.flag, metadata, digest, hentry⟩
  | wronly => exact openWronly_entry h
  | rdwr => exact openWronly_entry h
  | creat =>
    simp only [openByMode, openCreat, Exec.done.injEq] at h
    split at h
    · simp only [Prod.mk.injEq] at h
      exact ⟨pe.fd, pe.flag, pe.metadata, pe.digest, h.2.2.symm⟩
    · split at h
      · simp only [Prod.mk.injEq] at h
        exact ⟨pe.fd, pe.flag, pe.metadata, pe.digest, h.2.2.symm⟩
      · simp only [Prod.mk.injEq] at h
        exact ⟨_, _, pe.metadata, pe.digest, h.2.2.symm⟩

/-- The entry while a handle opened in a mode is counted and, unless read-only, holds the mutex. -/
def Pentry.held (pe : Pentry) (semPost : Bool) (mode : StateMode) : Pentry :=
  if mode = .rdonly then pe.incRefcount semPost else { pe.incRefcount semPost with locked := true }

/-- `dfs_open` works on this entry, found at this address of the table or added to it. -/
structure Found (w : World) (path : CStr) (replies : OpenReplies) (addr : ℕ) (w' : World) (pe : Pentry) :
    Prop where
  lookup : findOrPopulate w path replies = some (addr, w')
  heap : w'.heap addr = some pe

/-- The ways `dfs_open` can return. -/
inductive OpenOutcome (env : Env) (w : World) (path : CStr) (flags : BitVec 32) (replies : OpenReplies) :
    Opened → Prop
  | noEntry : findOrPopulate w path replies = none → OpenOutcome env w path flags replies ⟨-1, none, w⟩
  | lockFailed {addr : ℕ} {w' : World} {pe pe' : Pentry} : Found w path replies addr w' pe →
      getModeFromFlags flags ≠ .rdonly → replies.lock = false →
      (pe.incRefcount replies.semPost).decRefcount replies.semWait = .done pe' →
      OpenOutcome env w path flags replies ⟨-1, some addr, w'.put addr pe'⟩
  | failed {addr : ℕ} {w' : World} {pe pe' : Pentry} {fs : LocalFs} : Found w path replies addr w' pe →
      (getModeFromFlags flags ≠ .rdonly → replies.lock = true ∧ pe.locked = false) →
      openByMode env w'.fs w'.remote (pe.held replies.semPost (getModeFromFlags flags)) path
        (getModeFromFlags flags) replies = .done (-1, fs, pe') →
      OpenOutcome env w path flags replies ⟨-1, some addr, { w' with fs := fs }.put addr pe'⟩
  | succeeded {addr : ℕ} {w' : World} {pe pe' : Pentry} {fs : LocalFs} {ret : ℤ} :
      Found w path replies addr w' pe →
      (getModeFromFlags flags ≠ .rdonly → replies.lock = true ∧ pe.locked = false) →
      openByMode env w'.fs w'.remote (pe.held replies.semPost (getModeFromFlags flags)) path
        (getModeFromFlags flags) replies = .done (ret, fs, pe') → ret ≠ -1 →
      OpenOutcome env w path flags replies
        ⟨0, some addr, { w' with fs := fs }.put addr { pe' with ondisk := .localFile }⟩

/-- `dfs_open` returns in one of these ways. -/
theorem dfsOpen_outcome {env : Env} {w : World} {path : CStr} {flags : BitVec 32} {replies : OpenReplies}
    {opened : Opened} (h : dfsOpen env w path flags replies = .done opened) :
    OpenOutcome env w path flags replies opened := by
  unfold dfsOpen at h
  split at h
  · rename_i hlookup
    obtain rfl := Exec.done.inj h
    exact .noEntry hlookup
  · rename_i addr w' hlookup
    split at h
    · cases h
    · rename_i pe hheap
      have hfound : Found w path replies addr w' pe := ⟨hlookup, hheap⟩
      -- what is left of either branch once the entry is held
      have hopen : ∀ held, held = pe.held replies.semPost (getModeFromFlags flags) →
          (getModeFromFlags flags ≠ .rdonly → replies.lock = true ∧ pe.locked = false) →
          openEntry env w' addr held path (getModeFromFlags flags) replies = .done opened →
          OpenOutcome env w path flags replies opened := by
        intro held hheld hlock hentry
        subst hheld
        obtain ⟨⟨ret, fs, pe'⟩, hmode, hdone⟩ := Exec.bind_eq_done.mp hentry
        simp only [pure] at hdone
        split at hdone
        · rename_i hret
          subst hret
          obtain rfl := Exec.done.inj hdone
          exact .failed hfound hlock hmode
        · rename_i hret
          obtain rfl := Exec.done.inj hdone
          exact .succeeded hfound hlock hmode hret
      simp only [lockAndOpen] at h
      by_cases hmode : getModeFromFlags flags = .rdonly
      · rw [if_pos hmode] at h
        exact hopen _ (by rw [Pentry.held, if_pos hmode]) (fun hne => absurd hmode hne) h
      · rw [if_neg hmode] at h
        by_cases hlock : replies.lock = false
        · rw [if_pos hlock] at h
          obtain ⟨pe', hwait, hdone⟩ := Exec.bind_eq_done.mp h
          obtain rfl := Exec.done.inj hdone
          exact .lockFailed hfound hmode hlock hwait
        · rw [if_neg hlock] at h
          split at h
          · cases h
          · rename_i hfree
            have hfree' : pe.locked = false := by
              cases hpost : replies.semPost <;> simpa [Pentry.incRefcount, hpost] using hfree
            exact hopen _ (by rw [Pentry.held, if_neg hmode])
              (fun _ => ⟨by simpa using hlock, hfree'⟩) h

/-- No entry can be had when the table has none and a new one cannot be allocated. -/
theorem findOrPopulate_eq_none (w : World) (path : CStr) (replies : OpenReplies) :
    findOrPopulate w path replies = none ↔
      w.table path = none ∧ (replies.alloc = false ∨ replies.keyDup = false) := by
  unfold findOrPopulate populateHash
  cases w.table path with
  | some addr => simp
  | none =>
    by_cases halloc : replies.alloc = false ∨ replies.keyDup = false
    · rw [if_pos halloc]
      exact ⟨fun _ => ⟨rfl, halloc⟩, fun _ => rfl⟩
    · rw [if_neg halloc]
      exact ⟨fun h => (by cases h), fun h => absurd h.2 halloc⟩

/-- Either the table had an entry for the path and nothing changed, or it has a new one. -/
theorem findOrPopulate_cases {w w' : World} {path : CStr} {replies : OpenReplies} {addr : ℕ}
    (h : findOrPopulate w path replies = some (addr, w')) :
    (w.table path = some addr ∧ w' = w) ∨
      (w.table path = none ∧ addr = w.nextAddr ∧
        w' = (w.insert path { pentryNew with path := if replies.pathDup then some path else none }).2) := by
  unfold findOrPopulate at h
  split at h
  · rename_i addr' htable
    simp only [Option.some.injEq, Prod.mk.injEq] at h
    obtain ⟨rfl, rfl⟩ := h
    exact .inl ⟨htable, rfl⟩
  · rename_i htable
    unfold populateHash at h
    split at h
    · simp at h
    · simp only [Option.some.injEq] at h
      have haddr := congrArg Prod.fst h
      have hworld := congrArg Prod.snd h
      exact .inr ⟨htable, haddr.symm, hworld.symm⟩

/-- The entry `dfs_open` works on is the one the table then has for the path. -/
theorem Found.table {w w' : World} {path : CStr} {replies : OpenReplies} {addr : ℕ} {pe : Pentry}
    (h : Found w path replies addr w' pe) : w'.table path = some addr := by
  rcases findOrPopulate_cases h.lookup with ⟨htable, rfl⟩ | ⟨-, rfl, rfl⟩
  · exact htable
  · exact Function.update_self ..

/-- Its count and its mutex are those the path had before, an absent entry counting as unused. -/
theorem Found.hold {w w' : World} {path : CStr} {replies : OpenReplies} {addr : ℕ} {pe : Pentry}
    (h : Found w path replies addr w' pe) : w.refcountOf path = pe.refcount ∧ w.lockedOf path = pe.locked := by
  rcases findOrPopulate_cases h.lookup with ⟨htable, rfl⟩ | ⟨htable, rfl, rfl⟩
  · simp [World.refcountOf, World.lockedOf, World.entry, htable, h.heap]
  · have hnew := h.heap
    simp only [World.insert, Function.update_self, Option.some.injEq] at hnew
    subst hnew
    simp [World.refcountOf, World.lockedOf, World.entry, htable, pentryNew]

/-- Holding an entry counts the handle if the semaphore was posted. -/
@[simp] theorem Pentry.held_refcount (pe : Pentry) (semPost : Bool) (mode : StateMode) :
    (pe.held semPost mode).refcount = pe.refcount + if semPost then 1 else 0 := by
  cases semPost <;> simp [held, incRefcount] <;> split <;> rfl

/-- Holding an entry takes the mutex unless the mode is read-only. -/
@[simp] theorem Pentry.held_locked (pe : Pentry) (semPost : Bool) (mode : StateMode) :
    (pe.held semPost mode).locked = (pe.locked || mode ≠ .rdonly) := by
  cases semPost <;> simp [held, incRefcount] <;> split <;> simp [*]

/-- The mode is read-only when the access mode is and neither appending nor creating is asked for. -/
theorem getModeFromFlags_eq_rdonly (flags : BitVec 32) :
    getModeFromFlags flags = .rdonly ↔
      isRdonly flags = true ∧ hasFlag flags oAppend = false ∧ hasFlag flags oCreat = false := by
  unfold getModeFromFlags isRdonly
  cases hasFlag flags oAppend <;> cases hasFlag flags oCreat <;>
    simp only [Bool.false_eq_true, if_false, if_true, reduceCtorEq, and_false, and_true, Bool.true_eq_false]
  by_cases hrdonly : flags &&& oAccmode == oRdonly
  · simp [hrdonly]
  · simp only [hrdonly, Bool.false_eq_true, if_false, iff_false]
    split
    · simp
    · split <;> simp

/-- The entry after a successful `dfs_open`: the handle is counted if the semaphore was posted, and
the mutex held unless the mode is read-only. -/
theorem dfsOpen_success {env : Env} {w : World} {path : CStr} {flags : BitVec 32} {replies : OpenReplies}
    {opened : Opened} {addr : ℕ} (h : dfsOpen env w path flags replies = .done opened) (hret : opened.ret = 0)
    (hfh : opened.fh = some addr) :
    ∃ pe, opened.world.table path = some addr ∧ opened.world.heap addr = some pe ∧
      pe.refcount = w.refcountOf path + (if replies.semPost then 1 else 0) ∧
      pe.locked = (w.lockedOf path || getModeFromFlags flags ≠ .rdonly) ∧
      (getModeFromFlags flags ≠ .rdonly → w.lockedOf path = false) := by
  cases dfsOpen_outcome h with
  | noEntry => simp at hret
  | lockFailed => simp at hret
  | failed => simp at hret
  | succeeded hfound hlock hmode _ =>
    obtain rfl : _ = addr := Option.some.inj hfh
    obtain ⟨hrefcount, hlocked⟩ := hfound.hold
    obtain ⟨fd, flag, metadata, digest, rfl⟩ := openByMode_entry hmode
    refine ⟨_, hfound.table, World.put_heap_self .., ?_, ?_, ?_⟩
    · simp only [Pentry.held_refcount, hrefcount]
    · simp only [Pentry.held_locked, hlocked]
    · intro hne
      rw [hlocked]
      exact (hlock hne).2

/-- The entry `dfs_open` leaves in `info->fh` is the one the table has for the path. -/
theorem dfsOpen_table {env : Env} {w : World} {path : CStr} {flags : BitVec 32} {replies : OpenReplies}
    {opened : Opened} {addr : ℕ} (h : dfsOpen env w path flags replies = .done opened)
    (hfh : opened.fh = some addr) : opened.world.table path = some addr := by
  cases dfsOpen_outcome h with
  | noEntry => cases hfh
  | lockFailed hfound => exact Option.some.inj hfh ▸ hfound.table
  | failed hfound => exact Option.some.inj hfh ▸ hfound.table
  | succeeded hfound => exact Option.some.inj hfh ▸ hfound.table

end Dropletfs
