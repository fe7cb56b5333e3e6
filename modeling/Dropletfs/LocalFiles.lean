import Dropletfs.Metadata
import Dropletfs.Library.Overlay

/-!
# The local cache files

Names lead to inodes, descriptors to open file descriptions with their own offset, and a
name can be removed or replaced while a descriptor keeps its inode. The descriptor handed
out by a successful `open` is any one that is not in use. Directories are not modelled:
an `open` that fails for a missing directory is one of its failures.
-/

namespace Dropletfs

/-- Content, permission bits and ownership of a local file. -/
structure Inode where
  content : Bytes
  mode : BitVec 32
  uid : BitVec 32
  gid : BitVec 32

/-- An open file description. Every file the program opens is readable. -/
structure OpenFile where
  ino : ℕ
  offset : ℕ
  writable : Bool

/-- Names, inodes and descriptors of the local file system as the process sees them. The cache has
no hard links. -/
structure LocalFs where
  names : CStr → Option ℕ
  inodes : ℕ → Inode
  files : ℕ → Option OpenFile
  nextIno : ℕ
  names_lt : ∀ name ino, names name = some ino → ino < nextIno
  names_inj : ∀ name other ino, names name = some ino → names other = some ino → name = other

/-- The open flags the program uses: write access, `O_CREAT`, `O_TRUNC`. -/
structure OpenFlags where
  write : Bool
  creat : Bool
  trunc : Bool
  deriving DecidableEq, Repr

/-- Identity of the process, for the files it creates. -/
structure Process where
  uid : BitVec 32
  gid : BitVec 32
  umask : BitVec 32

/-- The three time stamps `fstat` reports. -/
structure FileTimes where
  atime : ℤ
  mtime : ℤ
  ctime : ℤ

namespace LocalFs

/-- No file and no descriptor. -/
def empty : LocalFs where
  names _ := none
  inodes _ := ⟨[], 0, 0, 0⟩
  files _ := none
  nextIno := 0
  names_lt := by simp
  names_inj := by simp

/-- The inode a name resolves to. -/
def resolve (fs : LocalFs) (name : CStr) : Option ℕ := fs.names (collapse name)

/-- The content a name resolves to. -/
def contentAt (fs : LocalFs) (name : CStr) : Option Bytes :=
  (fs.resolve name).map fun ino => (fs.inodes ino).content

/-- Replace the content of an inode. -/
def setContent (fs : LocalFs) (ino : ℕ) (bytes : Bytes) : LocalFs :=
  { fs with inodes := Function.update fs.inodes ino { fs.inodes ino with content := bytes } }

/-- Bind a descriptor to an inode, at offset zero. -/
def bind (fs : LocalFs) (fd ino : ℕ) (write : Bool) : LocalFs :=
  { fs with files := Function.update fs.files fd (some ⟨ino, 0, write⟩) }

/-- A new empty file under a name. -/
def create (fs : LocalFs) (proc : Process) (name : CStr) (mode : BitVec 32) : LocalFs :=
  { fs with
    names := Function.update fs.names (collapse name) (some fs.nextIno)
    inodes := Function.update fs.inodes fs.nextIno ⟨[], mode &&& ~~~proc.umask, proc.uid, proc.gid⟩
    nextIno := fs.nextIno + 1
    names_lt := by
      intro n ino h
      rw [Function.update_apply] at h
      split at h
      · simp only [Option.some.injEq] at h
        omega
      · exact Nat.lt_succ_of_lt (fs.names_lt n ino h)
    names_inj := by
      intro n m ino hn hm
      rw [Function.update_apply] at hn hm
      have fresh : ∀ n, fs.names n ≠ some fs.nextIno := fun n h => Nat.lt_irrefl _ (fs.names_lt n _ h)
      split at hn <;> split at hm <;> simp_all
      exact fs.names_inj n m ino hn hm }

/-- `open(name, flags, mode)`. The reply is the descriptor the kernel picks, or a failure. -/
def openFile (fs : LocalFs) (proc : Process) (name : CStr) (flags : OpenFlags) (mode : BitVec 32)
    (reply : Option ℕ) : Option (ℕ × LocalFs) :=
  match reply with
  | none => none
  | some fd =>
    if (fs.files fd).isSome then none
    else match fs.resolve name with
      | some ino =>
        let fs := if flags.trunc then fs.setContent ino [] else fs
        some (fd, fs.bind fd ino flags.write)
      | none =>
        if flags.creat then some (fd, (fs.create proc name mode).bind fd fs.nextIno flags.write)
        else none

/-- `close(fd)`. The descriptor is released whatever the call returns. -/
def close (fs : LocalFs) (fd : ℕ) : LocalFs := { fs with files := Function.update fs.files fd none }

/-- `close` of each descriptor. -/
def closeAll (fs : LocalFs) (fds : List ℕ) : LocalFs := fds.foldl close fs

/-- Remove a name. -/
def forget (fs : LocalFs) (name : CStr) : LocalFs :=
  { fs with
    names := Function.update fs.names (collapse name) none
    names_lt := by
      intro n ino h
      rw [Function.update_apply] at h
      split at h
      · cases h
      · exact fs.names_lt n ino h
    names_inj := by
      intro n m ino hn hm
      rw [Function.update_apply] at hn hm
      split at hn
      · cases hn
      · split at hm
        · cases hm
        · exact fs.names_inj n m ino hn hm }

/-- `unlink(name)`, which can only succeed on a name that exists. -/
def unlink (fs : LocalFs) (name : CStr) (reply : Bool) : LocalFs := if reply then fs.forget name else fs

/-- Give the inode of one name to another name. -/
def move (fs : LocalFs) (old new : CStr) (ino : ℕ) (h : fs.names (collapse old) = some ino) : LocalFs :=
  { fs with
    names := Function.update (Function.update fs.names (collapse old) none) (collapse new) (some ino)
    names_lt := by
      intro n i hn
      rw [Function.update_apply, Function.update_apply] at hn
      split at hn
      · exact Option.some.inj hn ▸ fs.names_lt _ _ h
      · split at hn
        · cases hn
        · exact fs.names_lt n i hn
    names_inj := by
      intro n m i hn hm
      rw [Function.update_apply, Function.update_apply] at hn hm
      have old_only : ∀ k, k ≠ collapse old → fs.names k ≠ some ino :=
        fun k hk hsame => hk (fs.names_inj _ _ _ hsame h)
      have hinj := fs.names_inj n m i
      grind }

/-- `rename(old, new)` of an existing name. -/
def rename (fs : LocalFs) (old new : CStr) : LocalFs :=
  match h : fs.names (collapse old) with
  | none => fs
  | some ino => fs.move old new ino h

/-- The content behind a descriptor. -/
def fdContent (fs : LocalFs) (fd : ℕ) : Option Bytes :=
  (fs.files fd).map fun file => (fs.inodes file.ino).content

/-- A size that `off_t` can represent; otherwise `fstat` fails with `EOVERFLOW`. -/
def offMax : ℕ := 2 ^ 63 - 1

/-- `fstat(fd)`; the reply carries the time stamps, or is a failure. -/
def fstat (fs : LocalFs) (fd : ℤ) (reply : Option FileTimes) : Option Stat :=
  match (if fd < 0 then none else fs.files fd.toNat), reply with
  | some file, some times =>
    let inode := fs.inodes file.ino
    if inode.content.length ≤ offMax then
      some ⟨sIfreg ||| inode.mode, 1, inode.uid, inode.gid, inode.content.length, times.atime, times.mtime,
        times.ctime⟩
    else none
  | _, _ => none

/-- `fchmod(fd, mode)`, which leaves the file type alone. -/
def fchmod (fs : LocalFs) (fd : ℕ) (mode : BitVec 32) (reply : Bool) : LocalFs :=
  match fs.files fd, reply with
  | some file, true =>
    let mode := mode &&& ~~~sIfmt
    { fs with inodes := Function.update fs.inodes file.ino { fs.inodes file.ino with mode := mode } }
  | _, _ => fs

/-- What one call transfers at most. -/
def maxTransfer : ℕ := 0x7ffff000

/-- `pread(fd, buf, size, offset)`; a failure, or at most `size` bytes from the offset on. -/
def pread (fs : LocalFs) (fd size offset : ℕ) (reply : Bool) : Option Bytes :=
  match fs.files fd, reply with
  | some file, true => some (((fs.inodes file.ino).content.drop offset).take (min size maxTransfer))
  | _, _ => none

/-- `pwrite(fd, buf, size, offset)`; a failure, or the number of bytes the kernel took. -/
def pwrite (fs : LocalFs) (fd : ℕ) (data : Bytes) (offset : ℕ) (reply : Option ℕ) :
    Option (ℕ × LocalFs) :=
  match fs.files fd, reply with
  | some file, some count =>
    if file.writable then
      let taken := data.take (min count maxTransfer)
      let content := Overlay.writeAt 0 (fs.inodes file.ino).content offset taken
      some (taken.length, fs.setContent file.ino content)
    else none
  | _, _ => none

/-- Move the offset of a descriptor. -/
def seek (fs : LocalFs) (fd offset : ℕ) : LocalFs :=
  { fs with files := Function.update fs.files fd ((fs.files fd).map fun file => { file with offset := offset }) }

/-- Reading from a descriptor moves its offset forward. -/
def advance (fs : LocalFs) (fd count : ℕ) : LocalFs :=
  { fs with
    files := Function.update fs.files fd
      ((fs.files fd).map fun file => { file with offset := file.offset + count }) }

/-- `write(fd, ...)` at the current offset, moving it to the end of what was written. -/
def append (fs : LocalFs) (fd : ℕ) (data : Bytes) : LocalFs :=
  match fs.files fd with
  | none => fs
  | some file =>
    (fs.setContent file.ino (Overlay.writeAt 0 (fs.inodes file.ino).content file.offset data)).seek fd
      (file.offset + data.length)

/-- What is left to read from a descriptor. -/
def unread (fs : LocalFs) (fd : ℕ) : Bytes :=
  match fs.files fd with
  | none => []
  | some file => (fs.inodes file.ino).content.drop file.offset

/-- Not to read moves nothing. -/
theorem advance_zero (fs : LocalFs) (fd : ℕ) : fs.advance fd 0 = fs := by
  have hsame : (fs.files fd).map (fun file => { file with offset := file.offset + 0 }) = fs.files fd := by simp
  rw [advance, hsame, Function.update_eq_self]

/-- Reading twice moves the offset twice. -/
theorem advance_advance (fs : LocalFs) (fd count count' : ℕ) :
    (fs.advance fd count).advance fd count' = fs.advance fd (count + count') := by
  simp only [advance, Function.update_self, Function.update_idem, Option.map_map, Function.comp_def, Nat.add_assoc]

/-- What is left to read after reading. -/
theorem unread_advance (fs : LocalFs) (fd count : ℕ) : (fs.advance fd count).unread fd = (fs.unread fd).drop count := by
  unfold unread advance
  cases hfile : fs.files fd with
  | none => simp
  | some file => simp [List.drop_drop]

end LocalFs

end Dropletfs
