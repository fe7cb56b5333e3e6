import Dropletfs.EntryFrame
import Dropletfs.Session

/-!
# The smart cache

A thread of its own visits the table again and again. As long as the table is small, it pushes
each entry that was not used for some time to a pool of workers. A worker fetches the metadata
of the path of its entry anew, and those of the paths listed in it when it is a directory. An
entry may have been destroyed by the time that a worker gets to it.
-/

namespace Dropletfs

/-- The settings of `struct conf` that the smart cache reads, and `pentry_sizeof`. -/
structure ScConf where
  scLoopDelay : ℤ
  scAgeThreshold : ℤ
  cacheMaxSize : ℤ
  pentrySizeof : ℕ

/-- `thread_cachedir` does not end at once. -/
def ScConf.sweeps (sc : ScConf) : Bool := sc.scLoopDelay ≠ 0 && sc.scAgeThreshold ≠ 0

/-- A sweep every second, of the entries not used for a second. -/
def ScConf.eager : ScConf := ⟨1, 1, 10 * 1024 * 1024, 336⟩

/-- `g_hash_table_size`: the table holds every entry there is. -/
def World.tableSize (w : World) : ℕ := ((List.range w.nextAddr).filter fun addr => (w.heap addr).isSome).length

/-- The clock that `cachedir_callback` reads, and what an uninitialised `atime` happens to hold. -/
structure VisitReplies where
  now : ℤ
  junkAtime : ℤ

/-- `cachedir_callback`: whether it pushes the entry to the pool. -/
def cachedirCallback (sc : ScConf) (w : World) (pe : Pentry) (replies : VisitReplies) : Bool :=
  let age := replies.now - pe.atime.getD replies.junkAtime
  -- 64 is an estimation of the length of a path; the product is kept in an `int`
  let totalSize := (BitVec.ofNat 32 (w.tableSize * (sc.pentrySizeof + 64))).toInt
  if sc.cacheMaxSize < totalSize then false
  else if age < sc.scAgeThreshold then false
  else true

/-- Replies to the calls made for one path, and the clock. -/
structure RefreshReplies where
  namei : ℕ → Status
  getattr : ℕ → Status
  mdTrylock : Bool
  setMetadata : MetadataReplies
  mdUnlock : Bool
  now : ℤ

/-- Replies to the calls of `update_md`: those for the path of the entry, and for the listed paths by
their position. -/
structure UpdateReplies where
  own : RefreshReplies
  listed : ℕ → RefreshReplies

/-- A state after entries were refreshed, with the addresses of those that got a new `atime`. -/
structure Refreshed where
  world : World
  timed : List ℕ

/-- The calls that `update_md` and `cb_map_dirents` start with: the type and the metadata of a path. -/
def fetchMd (env : Env) (w : World) (path : CStr) (replies : RefreshReplies) : Option (Ftype × Option Dict) :=
  match dfsNameiTimeout env.conf.maxRetry replies.namei path w.remote with
  | (.success, some type) =>
    let (status, metadata) := dfsGetattrTimeout env.conf.maxRetry replies.getattr path w.remote
    if status ≠ .success ∧ status ≠ .eisdir then none else some (type, metadata)
  | _ => none

/-- What `update_md` and `cb_map_dirents` end with: store the metadata and the time, if the lock is to be had. -/
def storeMd (w : World) (addr : ℕ) (metadata : Option Dict) (replies : RefreshReplies) : Refreshed :=
  match w.heap addr with
  | none => ⟨w, []⟩
  | some pe =>
    if replies.mdTrylock = false ∨ pe.mdLocked = true then ⟨w, []⟩
    else
      let pe := match metadata with
        | none => pe
        | some dict => (pe.setMetadata dict replies.setMetadata).2
      ⟨w.put addr { pe with atime := some replies.now, mdLocked := !replies.mdUnlock }, [addr]⟩

/-- `cb_map_dirents`. -/
def cbMapDirents (env : Env) (w : World) (path : CStr) (replies : RefreshReplies) : Refreshed :=
  match w.table path with
  | none => ⟨w, []⟩
  | some addr =>
    match fetchMd env w path replies with
    | none => ⟨w, []⟩
    | some (_, metadata) => storeMd w addr metadata replies

/-- `list_map` with `cb_map_dirents`, from a position on. -/
def mapDirents (env : Env) (replies : ℕ → RefreshReplies) : ℕ → List CStr → World → Refreshed
  | _, [], w => ⟨w, []⟩
  | i, path :: paths, w =>
    let mapped := cbMapDirents env w path (replies i)
    let rest := mapDirents env replies (i + 1) paths mapped.world
    ⟨rest.world, mapped.timed ++ rest.timed⟩

/-- `update_md` on an entry that is still there and has a path. -/
def updateMdOf (env : Env) (w : World) (addr : ℕ) (pe : Pentry) (path : CStr) (replies : UpdateReplies) : Refreshed :=
  match fetchMd env w path replies.own with
  | none => ⟨w, []⟩
  | some (type, metadata) =>
    let mapped := if type = .dir then mapDirents env replies.listed 0 pe.dirent w else ⟨w, []⟩
    let stored := storeMd mapped.world addr metadata replies.own
    ⟨stored.world, mapped.timed ++ stored.timed⟩

/-- `update_md`, for which the entry may be gone, or have no path. -/
def updateMd (env : Env) (w : World) (addr : ℕ) (replies : UpdateReplies) : Exec Refreshed :=
  match w.heap addr with
  | none => .undefined
  | some pe =>
    match pe.path with
    | none => .undefined
    | some path => .done (updateMdOf env w addr pe path replies)

/-- The program with its smart cache: the entries pushed to the pool wait for a worker. -/
structure Caching where
  session : Session
  pool : List ℕ

/-- A request or a visit of the collector, a visit of the smart cache to one key, or the turn of an entry
of the pool. -/
inductive Activity where
  | request (op : Op)
  | visit (path : CStr) (replies : VisitReplies)
  | update (i : ℕ) (replies : UpdateReplies)

/-- One activity. Workers take the entries of the pool in any order. -/
def Caching.step (env : Env) (sc : ScConf) (c : Caching) : Activity → Exec Caching
  | .request op => do
    let s ← c.session.step env op
    return { c with session := s }
  | .visit path replies =>
    if sc.sweeps = false then .blocked
    else
      match c.session.world.table path with
      | none => .done c
      | some addr =>
        match c.session.world.heap addr with
        | none => .undefined
        | some pe =>
          .done { c with pool := if cachedirCallback sc c.session.world pe replies then c.pool ++ [addr] else c.pool }
  | .update i replies =>
    match c.pool[i]? with
    | none => .done c
    | some addr => do
      let refreshed ← updateMd env c.session.world addr replies
      return ⟨{ c.session with world := refreshed.world }, c.pool.eraseIdx i⟩

/-- The program as it starts: nothing waits for a worker. -/
def Caching.Initial (c : Caching) : Prop := c.session.Initial ∧ c.pool = []

/-- An entry without what a refresh stores. -/
def Pentry.unrefreshed (pe : Pentry) : Pentry := { pe with metadata := none, mdLocked := false, atime := none }

/-- Entries got new metadata and a new time, and nothing else has changed. -/
structure World.Refreshes (w : World) (refreshed : Refreshed) : Prop where
  rest : refreshed.world = { w with heap := refreshed.world.heap }
  kept : ∀ addr, (refreshed.world.heap addr).map Pentry.unrefreshed = (w.heap addr).map Pentry.unrefreshed
  atime : ∀ addr, (refreshed.world.heap addr).map (fun pe => pe.atime.isSome) =
    (w.heap addr).map fun pe => pe.atime.isSome || decide (addr ∈ refreshed.timed)
  alive : ∀ addr ∈ refreshed.timed, (w.heap addr).isSome = true

namespace World.Refreshes

variable {w : World} {refreshed : Refreshed}

/-- Nothing was refreshed. -/
theorem refl (w : World) : w.Refreshes ⟨w, []⟩ where
  rest := rfl
  kept _ := rfl
  atime addr := by simp only [List.not_mem_nil, decide_false, Bool.or_false]
  alive addr hmem := absurd hmem List.not_mem_nil

/-- One refresh after another. -/
theorem trans {next : Refreshed} (h : w.Refreshes refreshed) (hnext : refreshed.world.Refreshes next) :
    w.Refreshes ⟨next.world, refreshed.timed ++ next.timed⟩ where
  rest := by
    have hrest := hnext.rest
    rw [h.rest] at hrest
    exact hrest
  kept addr := (hnext.kept addr).trans (h.kept addr)
  atime addr := by
    have hfirst := h.atime addr
    have hsecond := hnext.atime addr
    cases hbefore : w.heap addr with
    | none =>
      rw [hbefore, Option.map_none, Option.map_eq_none_iff] at hfirst
      rw [hfirst, Option.map_none, Option.map_eq_none_iff] at hsecond
      rw [hsecond]
      rfl
    | some pe =>
      rw [hbefore, Option.map_some] at hfirst
      obtain ⟨pe₁, hheap₁, htime₁⟩ := Option.map_eq_some_iff.mp hfirst
      rw [hheap₁, Option.map_some, htime₁] at hsecond
      rw [hsecond, Option.map_some]
      simp only [List.mem_append, Bool.decide_or, Bool.or_assoc]
  alive addr hmem := by
    rcases List.mem_append.mp hmem with hfirst | hsecond
    · exact h.alive addr hfirst
    · have halive := hnext.alive addr hsecond
      rwa [← Option.isSome_map, h.kept addr, Option.isSome_map] at halive

/-- What does not depend on the metadata and the time of an entry stays. -/
theorem map_eq {α : Type} (h : w.Refreshes refreshed) (f : Pentry → α) (hf : ∀ pe, f pe.unrefreshed = f pe) (addr : ℕ) :
    (refreshed.world.heap addr).map f = (w.heap addr).map f := by
  have hmap : ∀ found : Option Pentry, found.map f = (found.map Pentry.unrefreshed).map f := by
    intro found
    cases found with
    | none => rfl
    | some pe => exact congrArg some (hf pe).symm
  rw [hmap, h.kept addr, ← hmap]

/-- A refresh is a quiet change. -/
theorem quiet (h : w.Refreshes refreshed) : w.Quiet refreshed.world where
  fs := by rw [h.rest]
  table := by rw [h.rest]
  nextAddr := by rw [h.rest]
  core := h.map_eq Pentry.core fun _ => rfl

end World.Refreshes

/-- Storing metadata and the time refreshes at most one entry. -/
theorem storeMd_refreshes (w : World) (addr : ℕ) (metadata : Option Dict) (replies : RefreshReplies) :
    w.Refreshes (storeMd w addr metadata replies) := by
  unfold storeMd
  split
  · exact .refl w
  · rename_i pe hheap
    split
    · exact .refl w
    · -- the entry as stored, up to the time and the lock
      obtain ⟨stored, hstored⟩ : ∃ stored, (match metadata with
          | none => pe
          | some dict => (pe.setMetadata dict replies.setMetadata).2) = { pe with metadata := stored } := by
        split
        · exact ⟨pe.metadata, rfl⟩
        · exact pe.setMetadata_eq _ _
      rw [hstored]
      refine ⟨rfl, fun other => ?_, fun other => ?_, fun other hmem => ?_⟩
      · by_cases hother : other = addr
        · rw [hother, World.put_heap_self, hheap]
          rfl
        · rw [World.put_heap_ne _ _ hother]
      · by_cases hother : other = addr
        · rw [hother, World.put_heap_self, hheap]
          simp only [Option.map_some, Option.isSome_some, List.mem_singleton, decide_true, Bool.or_true]
        · rw [World.put_heap_ne _ _ hother]
          simp only [List.mem_singleton, hother, decide_false, Bool.or_false]
      · rw [List.mem_singleton.mp hmem, hheap]
        rfl

/-- Each listed path is refreshed at most. -/
theorem cbMapDirents_refreshes (env : Env) (w : World) (path : CStr) (replies : RefreshReplies) :
    w.Refreshes (cbMapDirents env w path replies) := by
  unfold cbMapDirents
  split
  · exact .refl w
  · split
    · exact .refl w
    · exact storeMd_refreshes ..

/-- And so are all of them, one after another. -/
theorem mapDirents_refreshes (env : Env) (replies : ℕ → RefreshReplies) (i : ℕ) (paths : List CStr) (w : World) :
    w.Refreshes (mapDirents env replies i paths w) := by
  induction paths generalizing i w with
  | nil => exact .refl w
  | cons path paths ih => exact (cbMapDirents_refreshes env w path (replies i)).trans (ih (i + 1) _)

/-- A worker refreshes entries and does nothing else. -/
theorem updateMd_refreshes {env : Env} {w : World} {addr : ℕ} {replies : UpdateReplies} {refreshed : Refreshed}
    (h : updateMd env w addr replies = .done refreshed) : w.Refreshes refreshed := by
  unfold updateMd at h
  split at h
  · cases h
  · rename_i pe _
    split at h
    · cases h
    · obtain rfl := Exec.done.inj h
      unfold updateMdOf
      split
      · exact .refl w
      · rename_i type metadata _
        have hmapped : w.Refreshes (if type = .dir then mapDirents env replies.listed 0 pe.dirent w else ⟨w, []⟩) := by
          split
          · exact mapDirents_refreshes ..
          · exact .refl w
        exact hmapped.trans (storeMd_refreshes ..)

end Dropletfs
