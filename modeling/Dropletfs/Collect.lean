import Dropletfs.Entry

/-!
# Collecting unused entries

`gc_callback` looks at one entry of the table. It drops an entry that nobody uses, with its
cache file, when that file is old or its descriptor cannot be examined.
-/

namespace Dropletfs

/-- Replies to the calls of `gc_callback`, and the clock it reads. -/
structure GcReplies where
  trylock : Bool
  fstat : Option FileTimes
  now : ℤ
  unlinkCache : Bool
  unlock : Bool

/-- The age in seconds from which `gc_callback` removes a cache file; ten times as much, in `int`
arithmetic, for an excluded path. -/
def Pentry.gcThreshold (pe : Pentry) (conf : Conf) : ℤ :=
  if pe.exclude then Int.bmod (conf.gcAgeThreshold * 10) (2 ^ 32) else conf.gcAgeThreshold

/-- A number as a `time_t` of 64 bits holds it. -/
def timeT (t : ℤ) : ℤ := Int.bmod t (2 ^ 64)

/-- The file is too old: not all of its times are recent. The sums are of the type `time_t`. -/
def Stat.expired (st : Stat) (threshold now : ℤ) : Bool :=
  ¬ (now < timeT (st.atime + threshold) ∧ now < timeT (st.mtime + threshold) ∧ now < timeT (st.ctime + threshold))

/-- The label `remove` of `gc_callback`. -/
def World.collect (w : World) (conf : Conf) (path : CStr) (unlinkReply : Bool) : World :=
  { w with fs := w.fs.unlink (cacheName conf path) unlinkReply }.remove path

/-- What `gc_callback` does with an entry that nobody uses. -/
def gcExamine (env : Env) (w : World) (path : CStr) (addr : ℕ) (pe : Pentry) (replies : GcReplies) : World :=
  -- the mutex, taken before the entry is examined, is released unless the entry goes away
  let kept := w.put addr { pe with locked := if replies.unlock then false else true }
  if pe.fd = -1 then kept
  else
    match w.fs.fstat pe.fd replies.fstat with
    | none => w.collect env.conf path replies.unlinkCache
    | some st =>
      if st.expired (pe.gcThreshold env.conf) replies.now then w.collect env.conf path replies.unlinkCache
      else kept

/-- `gc_callback` on the entry that the table holds for a path. -/
def gcCallback (env : Env) (w : World) (path : CStr) (replies : GcReplies) : Exec World :=
  match w.table path with
  | none => .done w
  | some addr =>
    match w.heap addr with
    | none => .undefined
    | some pe =>
      if pe.refcount ≠ 0 then .done w
      else if pe.locked ∨ replies.trylock = false then .done w
      else .done (gcExamine env w path addr pe replies)

end Dropletfs
