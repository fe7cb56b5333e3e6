import Dropletfs.Metadata
import Mathlib.Data.List.AList

/-!
# The remote store behind libdroplet

The store maps paths to objects. Each call of the library comes with the reply of the
service as an input. A reply can only report success on an object that exists; a failed
call that changes the store may still have been applied, the answer being lost.
-/

namespace Dropletfs

/-- `dpl_status_t`, with the values the program tells apart. -/
inductive Status where
  | success
  | failure
  | enoent
  | eisdir
  | einval
  | other (code : ℕ)
  deriving DecidableEq, Repr

/-- The reply to a call that changes the store. -/
structure Reply where
  status : Status
  applied : Bool
  applied_of_success : status = .success → applied = true

/-- The change was made and is reported as a success. -/
def Reply.granted : Reply := ⟨.success, true, fun _ => rfl⟩

/-- The change was not made and is reported as a failure. -/
def Reply.refused : Reply := ⟨.failure, false, fun h => by cases h⟩

/-- `dpl_ftype_t`, with the values the program tells apart. -/
inductive Ftype where
  | reg
  | dir
  | other
  deriving DecidableEq, Repr

/-- An object of the store. -/
structure Obj where
  ftype : Ftype
  content : Bytes
  metadata : Option Dict
  etag : Option CStr

/-- The objects by path. -/
abbrev Remote := AList fun _ : CStr => Obj

/-- A store with one regular object, uploaded without metadata. -/
def Remote.file (path : CStr) (content : Bytes) : Remote :=
  (∅ : Remote).insert path ⟨.reg, content, none, none⟩

/-- The type of what a path names; the root always is a directory. -/
def Remote.ftype (r : Remote) (path : CStr) : Option Ftype :=
  if path = "/".toList then some .dir else (r.lookup path).map Obj.ftype

/-- A success reported for something that does not exist is an `ENOENT`. -/
def Status.onExisting (status : Status) (found : Bool) : Status :=
  if status = .success ∧ found = false then .enoent else status

/-- `dpl_namei`: the type of the object on success. -/
def dplNamei (reply : Status) (path : CStr) (r : Remote) : Status × Option Ftype :=
  let status := reply.onExisting (r.ftype path).isSome
  (status, if status = .success then r.ftype path else none)

/-- `dpl_getattr`: the metadata of the object on success or for a directory. -/
def dplGetattr (reply : Status) (path : CStr) (r : Remote) : Status × Option Dict :=
  let status := reply.onExisting (r.lookup path).isSome
  (status, if status = .success ∨ status = .eisdir then (r.lookup path).bind Obj.metadata else none)

/-- `dpl_head_all`: the object whose headers are returned on success. -/
def dplHeadAll (reply : Status) (path : CStr) (r : Remote) : Status × Option Obj :=
  let status := reply.onExisting (r.lookup path).isSome
  (status, if status = .success then r.lookup path else none)

/-- `dpl_mknod`: an empty regular object. -/
def dplMknod (reply : Reply) (path : CStr) (r : Remote) : Status × Remote :=
  (reply.status, if reply.applied then r.insert path ⟨.reg, [], none, none⟩ else r)

/-- `dpl_mkdir`: a directory object where there is no object yet. -/
def dplMkdir (reply : Reply) (path : CStr) (r : Remote) : Status × Remote :=
  (reply.status,
    if reply.applied ∧ (r.lookup path).isNone then r.insert path ⟨.dir, [], none, none⟩ else r)

/-- `dpl_setattr`, which replaces the metadata of an object. -/
def dplSetattr (reply : Reply) (path : CStr) (dict : Dict) (r : Remote) : Status × Remote :=
  match r.lookup path with
  | none => (reply.status.onExisting false, r)
  | some obj => (reply.status, if reply.applied then r.insert path { obj with metadata := some dict } else r)

/-- `dpl_unlink`. -/
def dplUnlink (reply : Reply) (path : CStr) (r : Remote) : Status × Remote :=
  (reply.status.onExisting (r.lookup path).isSome, if reply.applied then r.erase path else r)

/-- `dpl_rmdir`, which removes directories only and refuses what is not one. -/
def dplRmdir (reply : Reply) (path : CStr) (r : Remote) : Status × Remote :=
  let status := reply.status.onExisting (r.lookup path).isSome
  if (r.lookup path).map Obj.ftype = some .dir then (status, if reply.applied then r.erase path else r)
  else (if status = .success then .einval else status, r)

/-- `dpl_fcopy`: content and metadata of the source under the new path. -/
def dplFcopy (reply : Reply) (old new : CStr) (r : Remote) : Status × Remote :=
  match r.lookup old with
  | none => (reply.status.onExisting false, r)
  | some obj => (reply.status, if reply.applied then r.insert new obj else r)

/-- `dpl_chdir`, which refuses what is not a directory. -/
def dplChdir (reply : Status) (path : CStr) (r : Remote) : Status :=
  if reply = .success ∧ r.ftype path ≠ some .dir then .einval else reply

/-- The name of an entry of a directory, from the path of the entry. -/
def childName (dir path : CStr) : Option CStr :=
  match (if dir = "/".toList then dir else dir ++ "/".toList).isPrefixOf? path with
  | some name => if name = [] ∨ '/' ∈ name then none else some name
  | none => none

/-- What `dpl_opendir` and `dpl_readdir` list for a directory: the names of its entries, those of
directories with a trailing slash. -/
def Remote.children (r : Remote) (dir : CStr) : List CStr :=
  r.entries.filterMap fun entry =>
    (childName dir entry.1).map fun name => if entry.2.ftype = .dir then name ++ "/".toList else name

/-- Success is reported on existing objects only. -/
theorem Status.onExisting_eq_success (status : Status) (found : Bool) :
    status.onExisting found = .success ↔ status = .success ∧ found = true := by
  cases found with
  | true => simp [Status.onExisting]
  | false =>
    simp only [Status.onExisting, and_true, Bool.false_eq_true, and_false, iff_false]
    split
    · exact fun h => Status.noConfusion h
    · assumption

/-- Copying to a path leaves the objects under the other paths alone. -/
theorem dplFcopy_lookup_ne (reply : Reply) (old new path : CStr) (r : Remote) (h : path ≠ new) :
    (dplFcopy reply old new r).2.lookup path = r.lookup path := by
  unfold dplFcopy
  cases r.lookup old with
  | none => rfl
  | some obj =>
    simp only
    split
    · exact AList.lookup_insert_ne h
    · rfl

/-- Unlinking a path leaves the objects under the other paths alone. -/
theorem dplUnlink_lookup_ne (reply : Reply) (path other : CStr) (r : Remote) (h : other ≠ path) :
    (dplUnlink reply path r).2.lookup other = r.lookup other := by
  unfold dplUnlink
  simp only
  split
  · exact AList.lookup_erase_ne h
  · rfl

end Dropletfs
