import Dropletfs.Library.Parties
import Dropletfs.Rename

/-!
# Requests whose library calls interleave

`dfs_readdir` and `dfs_rename` as programs that issue library calls one at a time, so that
the calls of several requests can come in any order. All of them share one libdroplet
context and thus one current directory: `dpl_opendir` of `.` lists the directory that was
changed to last, by whichever request. Each thread has its own ring of strings.
-/

namespace Dropletfs.Interleaving

open Parties (Prog Contract)

/-- The calls of the two requests, and what they do to the table and the local files in between. `opendir` is
made on `.`; the directory it is meant for is noted. `format` is a `tmpstr_printf`, noting whether the string it
writes over is in use. -/
inductive Call where
  | lookup (path : CStr)
  | namei (path : CStr)
  | mkdir (path : CStr)
  | chdir (dir : CStr)
  | opendir (dir : CStr)
  | readdir
  | fill (name : CStr)
  | fcopy (old new : CStr)
  | removeDirent (dir : Option CStr) (path : CStr)
  | unlink (path : CStr)
  | forget (path : CStr)
  | rmdir (path : CStr)
  | format (reuses : Bool)

/-- The answer to a call: its status, the type found, and the names listed; `before` and `after` note what the
store is around the call. -/
structure Answer where
  status : Status
  found : Option Ftype
  names : List CStr
  before : Remote
  after : Remote

/-- What the outside adds to an answer: the reply of the service or of the filler, whether the cache file can be
unlinked, and what an uninitialised file type holds. -/
structure StepReply where
  call : Reply
  unlinkCache : Bool
  junkType : Filetype

/-- An answer that is only a status, and the state after the call. -/
def answered (w : World) (status : Status) (w' : World) : Answer × World :=
  (⟨status, none, [], w.remote, w'.remote⟩, w')

/-- One call on the shared state. -/
def perform (env : Env) (w : World) : Call → StepReply → Answer × World
  | .lookup path, _ => answered w (if (w.table path).isSome then .success else .enoent) w
  | .namei path, reply =>
    let (status, found) := dplNamei reply.call.status path w.remote
    (⟨status, found, [], w.remote, w.remote⟩, w)
  | .mkdir path, reply =>
    let (status, r) := dplMkdir reply.call path w.remote
    answered w status { w with remote := r }
  | .chdir dir, reply =>
    let status := dplChdir reply.call.status dir w.remote
    answered w status (if status = .success then { w with cwd := dir } else w)
  | .opendir _, reply => (⟨reply.call.status, none, w.remote.children w.cwd, w.remote, w.remote⟩, w)
  | .readdir, reply => answered w reply.call.status w
  | .fill _, reply => answered w reply.call.status w
  | .fcopy old new, reply =>
    let (status, r) := dplFcopy reply.call old new w.remote
    answered w status { w with remote := r }
  | .removeDirent dir path, reply => answered w .success (w.removeDirentOf dir path reply.junkType)
  | .unlink path, reply =>
    let (status, r) := dplUnlink reply.call path w.remote
    answered w status { w with remote := r }
  | .forget path, reply =>
    let w' := { w with fs := w.fs.unlink (cacheName env.conf path) reply.unlinkCache }
    answered w .success (match w.table path with
      | none => w'
      | some _ => (w'.remove path).removeDirentOf (parentName path) path reply.junkType)
  | .rmdir path, reply =>
    let (status, r) := dplRmdir reply.call path w.remote
    answered w status { w with remote := r }
  | .format _, _ => answered w .success w

/-- The name of an entry in a directory, as `rename_directory` forms it. -/
def entryPath (dir name : CStr) : CStr := dropTrailingSlash (tmpstrPrintf (slashed dir name))

/-- A request, or a part of one. -/
abbrev Request (α : Type) := Prog Call Answer α

section Wrappers

variable (env : Env)

/-- A wrapper: `max_retry` repetitions of a call. -/
def timeout (retriable : Status → Bool) (call : Call) : Request Answer :=
  .retry (fun answer => retriable answer.status) call env.conf.maxRetry.toNat

/-- `dfs_namei_timeout`. -/
def dfsNameiTimeout (path : CStr) : Request Answer := timeout env Status.retriable (.namei path)

/-- `dfs_mkdir_timeout`. -/
def dfsMkdirTimeout (path : CStr) : Request Answer := timeout env Status.retriable (.mkdir path)

/-- `dfs_chdir_timeout`. -/
def dfsChdirTimeout (dir : CStr) : Request Answer := timeout env Status.retriableChdir (.chdir dir)

/-- `dfs_opendir_timeout` of `.`. -/
def dfsOpendirTimeout (dir : CStr) : Request Answer := timeout env Status.retriable (.opendir dir)

/-- `dfs_fcopy_timeout`. -/
def dfsFcopyTimeout (old new : CStr) : Request Answer := timeout env Status.retriable (.fcopy old new)

/-- `dfs_unlink_timeout`. -/
def dfsUnlinkTimeout (path : CStr) : Request Answer := timeout env Status.retriable (.unlink path)

/-- `dfs_rmdir_timeout`. -/
def dfsRmdirTimeout (path : CStr) : Request Answer := timeout env Status.retriable (.rmdir path)

end Wrappers

section Readdir

/-- The loop of `dfs_readdir`. -/
def fillEntries : List CStr → Request Unit
  | [] => do
    let _ ← Prog.request .readdir
    return ()
  | name :: names => do
    let answer ← Prog.request .readdir
    if answer.status ≠ .success then return ()
    else
      let answer ← Prog.request (.fill name)
      if answer.status ≠ .success then return ()
      else fillEntries names

/-- `dfs_readdir`. -/
def dfsReaddir (env : Env) (path : CStr) : Request ℤ := do
  let answer ← Prog.request (.lookup path)
  if answer.status ≠ .success then return -1
  else
    let answer ← dfsChdirTimeout env path
    if answer.status ≠ .success then return env.statusCode answer.status
    else
      let answer ← dfsOpendirTimeout env path
      if answer.status ≠ .success then return env.statusCode answer.status
      else
        fillEntries answer.names
        return 0

end Readdir

section Rename

variable (env : Env)

/-- The slot that the next string goes to is in use. -/
def reuses (ring : Ring) : Bool := decide (SlotRing.next tmpstrNb ring.current ∈ ring.live)

/-- `tmpstr_printf("%s/%s", dir, name)`. -/
def printf (ring : Ring) (dir : StrPtr) (name : CStr) : Request (ℕ × Ring) := do
  let _ ← Prog.request (.format (reuses ring))
  Prog.ofExec (ring.printf dir name)

/-- `dfs_mkdir`. -/
def dfsMkdir (path : CStr) : Request ℤ := do
  let answer ← dfsMkdirTimeout env path
  return if answer.status ≠ .success ∧ answer.status ≠ .enoent then -1 else 0

/-- `dfs_unlink`, with its string. -/
def dfsUnlink (ring : Ring) (path : CStr) : Request (ℤ × Ring) := do
  let answer ← dfsUnlinkTimeout env path
  if answer.status ≠ .success then return (1, ring)
  else
    let _ ← Prog.request (.format (reuses ring))
    let _ ← Prog.request (.forget path)
    return (0, ring.push (cacheName env.conf path))

/-- `dfs_rmdir`. -/
def dfsRmdir (path : CStr) : Request ℤ := do
  let answer ← dfsRmdirTimeout env path
  if answer.status ≠ .success then return -1
  else
    let _ ← Prog.request (.removeDirent (some path) path)
    return 0

/-- `rename_file`. -/
def renameFile (ring : Ring) (old new : CStr) : Request (ℤ × Ring) := do
  let answer ← dfsFcopyTimeout env old new
  if answer.status ≠ .success then return (-1, ring)
  else
    let dir := match beforeLastSlash new with
      | some [] => none
      | dir => dir
    let _ ← Prog.request (.removeDirent dir old)
    dfsUnlink env ring old

/-- The new directory of `rename_directory`, made if there is none. -/
def makeMissing (new : CStr) (status : Status) : Request ℤ :=
  if status = .enoent then dfsMkdir env new else .done 0

/-- `rename_directory` up to its loop. -/
def enterDirectory (old new : CStr) (junkEntryType : CStr → Ftype) :
    Request (Except ℤ (Ftype × List CStr)) := do
  let answer ← dfsNameiTimeout env new
  if answer.status ≠ .success ∧ answer.status ≠ .enoent then return .error (-1)
  else
    let type := answer.found.getD (junkEntryType new)
    let ret ← makeMissing env new answer.status
    if ret ≠ 0 then return .error (-1)
    else
      let answer ← dfsChdirTimeout env old
      if answer.status ≠ .success then return .error (env.statusCode answer.status)
      else
        let answer ← dfsOpendirTimeout env old
        if answer.status ≠ .success then return .error (env.statusCode answer.status)
        else return .ok (type, answer.names)

/-- What is done with an entry of the listing, by its type. -/
def renameEntry (recurse : Ring → StrPtr → StrPtr → Request (ℤ × Ring)) (ring : Ring) (type : Ftype)
    (src dst : StrPtr) : Request (ℤ × Ring) :=
  if type = .dir then recurse ring src dst else renameFile env ring (ring.deref src) (ring.deref dst)

/-- The loop of `rename_directory`. -/
def renameEntries (recurse : Ring → StrPtr → StrPtr → Request (ℤ × Ring)) (old new : StrPtr) :
    List CStr → Ftype → ℤ → Ring → Request (ℤ × Ring)
  | [], _, ret, ring => do
    let _ ← Prog.request .readdir
    return (ret, ring)
  | name :: names, type, ret, ring => do
    let answer ← Prog.request .readdir
    if answer.status ≠ .success then return (ret, ring)
    else if skipped name then renameEntries recurse old new names type ret ring
    else
      let (src, ring) ← printf ring old name
      let (dst, ring) ← printf ring new name
      let ring := (ring.amend src dropTrailingSlash).amend dst dropTrailingSlash
      let answer ← dfsNameiTimeout env (ring.slots src)
      if answer.status ≠ .success ∧ answer.status ≠ .enoent then return (-1, ring)
      else
        let type := answer.found.getD type
        let (ret, ring) ← renameEntry env recurse ring type (.slot src) (.slot dst)
        renameEntries recurse old new names type ret ring

/-- `rename_directory`, with the number of nested calls it may make. -/
def renameDirectory (junkEntryType : CStr → Ftype) : ℕ → Ring → StrPtr → StrPtr → Request (ℤ × Ring)
  | 0, _, _, _ => .stuck
  | depth + 1, ring, old, new => do
    match ← enterDirectory env (ring.deref old) (ring.deref new) junkEntryType with
    | .error ret => return (ret, ring)
    | .ok (type, names) =>
      let live := ring.live
      let (ret, ring) ← renameEntries env (renameDirectory junkEntryType depth) old new names type 0
        (ring.enter (old.slots ++ new.slots))
      if ret = -1 then return (-1, ring.leave live)
      else
        let _ ← dfsRmdir env (ring.deref old)
        return (0, ring.leave live)

/-- `dfs_rename`. -/
def dfsRename (junkType : Ftype) (junkEntryType : CStr → Ftype) (depth : ℕ) (ring : Ring) (old new : CStr) :
    Request ℤ := do
  let new := renameTarget old new
  let answer ← dfsNameiTimeout env old
  match answer.found.getD junkType with
  | .reg =>
    let (ret, _) ← renameFile env ring old new
    return if ret = -1 then -1 else 0
  | .dir =>
    let (ret, _) ← renameDirectory env junkEntryType depth ring (.caller old) (.caller new)
    return if ret = -1 then -1 else 0
  | .other => return -1

end Rename

/-- The object of the old path was put under the new one. -/
def Answer.Copies (answer : Answer) (old new : CStr) : Prop :=
  ∃ obj, answer.before.lookup old = some obj ∧ answer.after = answer.before.insert new obj

/-- The object of the path was removed. -/
def Answer.Removes (answer : Answer) (path : CStr) : Prop :=
  (answer.before.lookup path).isSome = true ∧ answer.after = answer.before.erase path

/-- The answer is what the call asks for: the entries of the directory that is meant, a copy, or a removal. A string
that is formatted is not one in use. -/
def Answer.Serves (answer : Answer) : Call → Prop
  | .opendir dir => answer.names = answer.before.children dir
  | .fcopy old new => answer.status = .success → answer.Copies old new
  | .unlink path => answer.status = .success → answer.Removes path
  | .format reuses => reuses = false
  | _ => True

/-- A request may list a directory right after it has changed to it, and what it then gets are the entries of that
directory. -/
def listing : Contract Call Answer (Option CStr) where
  track entered call answer :=
    match call with
    | .chdir dir => if answer.status = .success then some dir else none
    | .opendir _ => if answer.status = .success then none else entered
    | _ => none
  may entered call :=
    match call with
    | .opendir dir => entered = some dir
    | _ => True
  gets _ call answer := answer.Serves call

section Strings

/-- The strings in use are as before. -/
structure Keeps (ring ring' : Ring) : Prop where
  live : ring'.live = ring.live
  slots : ∀ i ∈ ring.live, ring'.slots i = ring.slots i

/-- Nothing has been formatted. -/
theorem Keeps.refl (ring : Ring) : Keeps ring ring := ⟨rfl, fun _ _ => rfl⟩

/-- One change after another. -/
theorem Keeps.trans {ring ring₁ ring₂ : Ring} (h₁ : Keeps ring ring₁) (h₂ : Keeps ring₁ ring₂) : Keeps ring ring₂ where
  live := h₂.live.trans h₁.live
  slots := by
    intro i hi
    rw [h₂.slots i (h₁.live ▸ hi), h₁.slots i hi]

/-- A string that goes to a slot not in use. -/
theorem Keeps.push {ring : Ring} (h : reuses ring = false) (text : CStr) : Keeps ring (ring.push text) where
  live := rfl
  slots := by
    intro i hi
    have hfree : SlotRing.next tmpstrNb ring.current ∉ ring.live := by simpa [reuses] using h
    have hne : i ≠ SlotRing.next tmpstrNb ring.current := fun heq => hfree (heq ▸ hi)
    exact Function.update_of_ne hne ..

/-- A string not in use that is changed. -/
theorem Keeps.amend {ring : Ring} {slot : ℕ} (h : slot ∉ ring.live) (change : CStr → CStr) :
    Keeps ring (ring.amend slot change) where
  live := rfl
  slots := by
    intro i hi
    have hne : i ≠ slot := fun heq => h (heq ▸ hi)
    exact Function.update_of_ne hne ..

/-- The slot of a string is in use and holds this text, or the caller holds it. -/
structure Held (ring : Ring) (string : StrPtr) (text : CStr) : Prop where
  deref : ring.deref string = text
  live : ∀ i ∈ string.slots, i ∈ ring.live

/-- A string in use stays what it is. -/
theorem Held.keeps {ring ring' : Ring} {string : StrPtr} {text : CStr} (h : Held ring string text)
    (hkeeps : Keeps ring ring') : Held ring' string text where
  deref := by
    rw [← h.deref]
    cases string with
    | caller _ => rfl
    | slot i => exact hkeeps.slots i (h.live i (List.mem_singleton.mpr rfl))
  live := by
    rw [hkeeps.live]
    exact h.live

/-- The two paths that the loop forms for an entry. -/
theorem entryPaths_formed {ring : Ring} {old new name : CStr}
    (hfree : reuses ring = false) (hfree' : reuses (ring.push (tmpstrPrintf (slashed old name))) = false) :
    let ring₁ := ring.push (tmpstrPrintf (slashed old name))
    let ring₂ := ring₁.push (tmpstrPrintf (slashed new name))
    let ring₃ := (ring₂.amend ring₁.current dropTrailingSlash).amend ring₂.current dropTrailingSlash
    Keeps ring ring₃ ∧ ring₃.slots ring₁.current = entryPath old name ∧
      ring₃.slots ring₂.current = entryPath new name := by
  intro ring₁ ring₂ ring₃
  have hne : ring₁.current ≠ ring₂.current := (SlotRing.next_ne (by decide)).symm
  have hsrc : ring₁.current ∉ ring₂.live := of_decide_eq_false hfree
  have hdst : ring₂.current ∉ (ring₂.amend ring₁.current dropTrailingSlash).live := of_decide_eq_false hfree'
  refine ⟨?_, ?_, ?_⟩
  · have hpushed : Keeps ring ring₂ := (Keeps.push hfree _).trans (.push hfree' _)
    have hsrcAmended : Keeps ring₂ (ring₂.amend ring₁.current dropTrailingSlash) := .amend hsrc _
    have hdstAmended : Keeps (ring₂.amend ring₁.current dropTrailingSlash) ring₃ := .amend hdst _
    exact (hpushed.trans hsrcAmended).trans hdstAmended
  · have hpushed : ring₂.slots ring₁.current = tmpstrPrintf (slashed old name) :=
      (Function.update_of_ne hne ..).trans (Function.update_self ..)
    have hamended : ring₃.slots ring₁.current = dropTrailingSlash (ring₂.slots ring₁.current) :=
      (Function.update_of_ne hne ..).trans (Function.update_self ..)
    rw [hamended, hpushed, entryPath]
  · have hother : (ring₂.amend ring₁.current dropTrailingSlash).slots ring₂.current = ring₂.slots ring₂.current :=
      Function.update_of_ne hne.symm ..
    have hamended : ring₃.slots ring₂.current =
        dropTrailingSlash ((ring₂.amend ring₁.current dropTrailingSlash).slots ring₂.current) :=
      Function.update_self ..
    rw [hamended, hother, entryPath]
    exact congrArg dropTrailingSlash (Function.update_self ..)

/-- The paths of a directory are in use while it is renamed. -/
theorem held_enter (ring : Ring) (old new : StrPtr) :
    Held (ring.enter (old.slots ++ new.slots)) old (ring.deref old) ∧
      Held (ring.enter (old.slots ++ new.slots)) new (ring.deref new) := by
  constructor
  · refine ⟨by cases old <;> rfl, fun i hi => ?_⟩
    exact List.mem_append_left _ (List.mem_append_left _ hi)
  · refine ⟨by cases new <;> rfl, fun i hi => ?_⟩
    exact List.mem_append_left _ (List.mem_append_right _ hi)

/-- The strings in use before a call are as before after it. -/
theorem Keeps.leave {ring ring' : Ring} {args : List ℕ} (h : Keeps (ring.enter args) ring') :
    Keeps ring (ring'.leave ring.live) where
  live := rfl
  slots := fun i hi => h.slots i (List.mem_append_right _ hi)

end Strings

end Dropletfs.Interleaving
