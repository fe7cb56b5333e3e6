import Dropletfs.Access
import Dropletfs.Collect
import Dropletfs.Create
import Dropletfs.Library.GuardedRuns
import Dropletfs.Lookup
import Dropletfs.Release
import Dropletfs.Rename

/-!
# Sequences of requests

FUSE keeps a handle for each successful open or create and passes it to the later calls on
that file, under the path and with the flags it was opened with. A session is the state of
the program with the handles that are open. Each request, or visit of the garbage
collector, comes with the replies to the calls it makes.
-/

namespace Dropletfs

/-- An open file of FUSE: `info->fh`, the path, and `info->flags`. -/
structure Handle where
  addr : ℕ
  path : CStr
  flags : BitVec 32

/-- The program and the open handles. -/
structure Session where
  world : World
  handles : List Handle

/-- A request, or a visit of the collector to one key. Handles are named by their position. -/
inductive Op where
  | getattr (path : CStr) (replies : GetattrReplies)
  | opendir (path : CStr) (replies : OpendirReplies)
  | mkdir (path : CStr) (replies : ℕ → Reply)
  | mknod (path : CStr) (replies : ℕ → Reply)
  | create (path : CStr) (mode flags : BitVec 32) (replies : CreateReplies)
  | open (path : CStr) (flags : BitVec 32) (replies : OpenReplies)
  | read (i size offset : ℕ) (replies : ReadReplies)
  | write (i : ℕ) (data : Bytes) (offset : ℕ) (replies : WriteReplies)
  | release (i : ℕ) (replies : ReleaseReplies)
  | unlink (path : CStr) (replies : UnlinkReplies)
  | rmdir (path : CStr) (replies : RmdirReplies)
  | rename (depth : ℕ) (ring : Ring) (old new : CStr) (replies : RenameReplies)
  | gc (path : CStr) (replies : GcReplies)

/-- The session after an open or a create: a handle for zero, none for a failure. -/
def Session.opened (s : Session) (path : CStr) (flags : BitVec 32) (opened : Opened) : Session where
  world := opened.world
  handles :=
    if opened.ret = 0 then (opened.fh.map fun addr => ⟨addr, path, flags⟩).toList ++ s.handles
    else s.handles

/-- One request. A handle that is not open is not used, and a write through a handle opened read-only
is refused before it gets to the program. -/
def Session.step (env : Env) (s : Session) : Op → Exec Session
  | .getattr path replies => do
    let looked ← dfsGetattr env s.world path replies
    return { s with world := looked.world }
  | .opendir path replies => .done { s with world := (dfsOpendir env s.world path replies).2 }
  | .mkdir path replies => .done { s with world := (dfsMkdir env s.world path replies).2 }
  | .mknod path replies => .done { s with world := (dfsMknod env s.world path replies).2 }
  | .create path mode flags replies => do
    let opened ← dfsCreate env s.world path mode flags replies
    return s.opened path flags opened
  | .open path flags replies => do
    let opened ← dfsOpen env s.world path flags replies
    return s.opened path flags opened
  | .read i size offset replies =>
    match s.handles[i]? with
    | none => .done s
    | some handle => do
      let _ ← dfsRead s.world handle.addr size offset replies
      return s
  | .write i data offset replies =>
    match s.handles[i]? with
    | none => .done s
    | some handle =>
      if isRdonly handle.flags then .done s
      else do
        let (_, w) ← dfsWrite s.world handle.addr data offset replies
        return { s with world := w }
  | .release i replies =>
    match s.handles[i]? with
    | none => .done s
    | some handle => do
      let released ← dfsRelease env s.world handle.addr handle.path handle.flags replies
      return ⟨released.world, s.handles.eraseIdx i⟩
  | .unlink path replies => .done { s with world := (dfsUnlink env s.world path replies).2 }
  | .rmdir path replies => .done { s with world := (dfsRmdir env s.world path replies).2 }
  | .rename depth ring old new replies => do
    let (_, renamed) ← dfsRename env depth ⟨s.world, ring⟩ old new replies
    return { s with world := renamed.world }
  | .gc path replies => do
    let w ← gcCallback env s.world path replies
    return { s with world := w }

/-- The program as it starts: an empty table, and no open handle. -/
structure Session.Initial (s : Session) : Prop where
  handles : s.handles = []
  table : ∀ path, s.world.table path = none
  heap : ∀ addr, s.world.heap addr = none

/-- The program started on these local files and this store. -/
def Session.start (fs : LocalFs) (remote : Remote) : Session := ⟨.start fs remote, []⟩

/-- The program starts out as it should. -/
theorem Session.start_initial (fs : LocalFs) (remote : Remote) : (Session.start fs remote).Initial :=
  ⟨rfl, fun _ => rfl, fun _ => rfl⟩

/-- The sessions reached by requests that all meet a guard. -/
def Session.Reached (env : Env) (guard : Session → Op → Prop) : Session → Prop :=
  GuardedRuns.Reaches (Session.step env) guard Session.Initial

end Dropletfs
