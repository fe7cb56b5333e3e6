import Dropletfs.LocalFiles
import Dropletfs.Timeout
import Dropletfs.Zip

/-!
# Path entries and the state of the program

The table maps paths to the addresses of path entries. A handle given to FUSE keeps the
address, so the table forgetting an entry and the entry being destroyed are visible to it.
The state also holds the local files, the store, the current directory of the libdroplet
context, and a record of the calls issued.
-/

namespace Dropletfs

/-- `FLAG_CLEAN` and `FLAG_DIRTY`. -/
inductive Flag where
  | clean
  | dirty
  deriving DecidableEq, Repr

/-- `filetype_t`. -/
inductive Filetype where
  | reg
  | dir
  | symlink
  deriving DecidableEq, Repr

/-- `FILE_LOCAL`, `FILE_REMOTE` and `FILE_UNSET`. -/
inductive Placeholder where
  | localFile
  | remote
  | unset
  deriving DecidableEq, Repr

/-- `struct pentry`. Fields that `pentry_new` leaves uninitialised are optional. -/
structure Pentry where
  fd : ℤ
  path : Option CStr
  digest : Option CStr
  metadata : Option Dict
  mdLocked : Bool
  locked : Bool
  refcount : ℕ
  flag : Flag
  exclude : Bool
  filetype : Option Filetype
  dirent : List CStr
  ondisk : Placeholder
  atime : Option ℤ

/-- `struct re`: the compiled expression counts only when it is set. -/
structure Re where
  set : Bool
  rx : CStr → Bool

/-- The settings of `struct conf` that the file operations read. -/
structure Conf where
  cacheDir : CStr
  compressionMethod : CStr
  zlibLevel : ℤ
  maxRetry : ℤ
  gcAgeThreshold : ℤ
  regex : Re
  encryptionMethod : CStr

/-- The cipher of libdroplet; encryption draws a salt. -/
structure Cipher where
  encrypt : ℕ → Bytes → Bytes
  decrypt : Bytes → Bytes
  decrypt_encrypt : ∀ salt plain, decrypt (encrypt salt plain) = plain

/-- The settings, the identity of the process, and the libraries. -/
structure Env where
  conf : Conf
  proc : Process
  zlib : Zlib
  cipher : Cipher
  statusCode : Status → ℤ
  statusCode_success : statusCode .success = 0
  statusCode_neg : ∀ status, status ≠ .success → statusCode status < 0

/-- Default settings: files are neither compressed nor encrypted, and none is excluded. -/
def Env.plain : Env where
  conf :=
    { cacheDir := "/tmp/b".toList
      compressionMethod := "NONE".toList
      zlibLevel := 3
      maxRetry := 5
      gcAgeThreshold := 900
      regex := ⟨false, fun _ => false⟩
      encryptionMethod := "NONE".toList }
  proc := ⟨1000, 1000, 0o022⟩
  zlib := .unavailable
  cipher := ⟨fun _ plain => plain, id, fun _ _ => rfl⟩
  statusCode
    | .success => 0
    | .failure => -1
    | .enoent => -2
    | .einval => -3
    | .eisdir => -12
    | .other code => -13 - code
  statusCode_success := rfl
  statusCode_neg := by
    intro status h
    cases status <;> simp at h ⊢
    omega

/-- Settings that compress, with zlib as it acts on the one letter `A`. -/
def Env.zipping : Env where
  __ := Env.plain
  conf := { Env.plain.conf with compressionMethod := "zlib".toList }
  zlib := .onFile [65] letterStream

/-- The calls issued on the store, and the two helpers of a recursive rename. -/
inductive Event where
  | mknod (path : CStr)
  | mkdir (path : CStr)
  | unlink (path : CStr)
  | rmdir (path : CStr)
  | fcopy (old new : CStr)
  | openwrite (path : CStr) (encrypted : Bool) (size : ℕ)
  | renameFile (old new : CStr)
  | dfsRmdir (path : CStr)
  deriving DecidableEq, Repr

/-- The state of the program and of what it works on. -/
structure World where
  fs : LocalFs
  heap : ℕ → Option Pentry
  nextAddr : ℕ
  table : CStr → Option ℕ
  remote : Remote
  cwd : CStr
  trace : List Event

/-- `re_matcher`. -/
def reMatcher (re : Re) (path : CStr) : Bool := re.set && re.rx path

/-- The cache file of a path, as all functions but the download name it. -/
def cacheName (conf : Conf) (path : CStr) : CStr := tmpstrPrintf (slashed conf.cacheDir path)

/-- The scratch file next to a cache file. -/
def scratchName (name : CStr) : CStr := tmpstrPrintf (name ++ ".tmp".toList)

/-- The configured method starts with `zlib`, in any letter case. -/
def Conf.usesZlib (conf : Conf) : Bool := strncasecmpEq "zlib".toList conf.compressionMethod

/-- The configured method starts with `aes`, in any letter case. -/
def Conf.usesAes (conf : Conf) : Bool := strncasecmpEq "aes".toList conf.encryptionMethod

/-- `pentry_new`. -/
def pentryNew : Pentry where
  fd := -1
  path := none
  digest := none
  metadata := none
  mdLocked := false
  locked := false
  refcount := 0
  flag := .dirty
  exclude := false
  filetype := none
  dirent := []
  ondisk := .unset
  atime := none

/-- `pentry_inc_refcount`; the reply is that of `sem_post`. -/
def Pentry.incRefcount (pe : Pentry) (reply : Bool) : Pentry :=
  if reply then { pe with refcount := pe.refcount + 1 } else pe

/-- `pentry_dec_refcount`; `sem_wait` fails, or waits as long as the count is zero. -/
def Pentry.decRefcount (pe : Pentry) (reply : Bool) : Exec Pentry :=
  if reply then
    if pe.refcount = 0 then .blocked else .done { pe with refcount := pe.refcount - 1 }
  else .done pe

/-- Replies of `dpl_dict_new` and `dpl_dict_copy`. -/
structure MetadataReplies where
  alloc : Bool
  copy : Status

/-- `pentry_set_metadata`: whether it returned zero, and the entry. -/
def Pentry.setMetadata (pe : Pentry) (dict : Dict) (replies : MetadataReplies) : Bool × Pentry :=
  if replies.alloc = false then (false, { pe with metadata := none })
  else if replies.copy = .failure then (false, { pe with metadata := some Dict.new })
  else (true, { pe with metadata := some dict })

/-- `pentry_remove_dirent`; `junk` is what an uninitialised file type happens to hold. -/
def Pentry.removeDirent (pe : Pentry) (path : CStr) (junk : Filetype) : Pentry :=
  if pe.filetype.getD junk = .dir then { pe with dirent := pe.dirent.erase path } else pe

/-- `pentry_add_dirent`; the reply tells whether both allocations succeed. -/
def Pentry.addDirent (pe : Pentry) (path : CStr) (reply : Bool) : Pentry :=
  if reply then { pe with dirent := path :: pe.dirent } else pe

namespace World

/-- An empty table. -/
def start (fs : LocalFs) (remote : Remote) : World := ⟨fs, fun _ => none, 0, fun _ => none, remote, "/".toList, []⟩

/-- Store an entry at its address. -/
def put (w : World) (addr : ℕ) (pe : Pentry) : World :=
  { w with heap := Function.update w.heap addr (some pe) }

/-- Change the entry at an address, if there is one. -/
def modify (w : World) (addr : ℕ) (change : Pentry → Pentry) : World :=
  match w.heap addr with
  | none => w
  | some pe => w.put addr (change pe)

/-- Record a call. -/
def log (w : World) (event : Event) : World := { w with trace := w.trace ++ [event] }

/-- The entry the table holds for a path. -/
def entry (w : World) (path : CStr) : Option Pentry := (w.table path).bind w.heap

/-- `g_hash_table_insert` of a new entry, which gets an unused address. -/
def insert (w : World) (path : CStr) (pe : Pentry) : ℕ × World :=
  (w.nextAddr, { w with
    heap := Function.update w.heap w.nextAddr (some pe)
    nextAddr := w.nextAddr + 1
    table := Function.update w.table path (some w.nextAddr) })

/-- `pentry_free`: the entry is gone and its descriptor closed. -/
def free (w : World) (addr : ℕ) : World :=
  match w.heap addr with
  | none => w
  | some pe =>
    { w with
      fs := if 0 ≤ pe.fd then w.fs.close pe.fd.toNat else w.fs
      heap := Function.update w.heap addr none }

/-- `g_hash_table_remove`, which destroys the entry. -/
def remove (w : World) (path : CStr) : World :=
  match w.table path with
  | none => w
  | some addr => { w with table := Function.update w.table path none }.free addr

/-- The reference count of the entry of a path; no entry counts as one that was never opened. -/
def refcountOf (w : World) (path : CStr) : ℕ := ((w.entry path).map Pentry.refcount).getD 0

/-- Whether the mutex of the entry of a path is held; no entry counts as a free mutex. -/
def lockedOf (w : World) (path : CStr) : Bool := ((w.entry path).map Pentry.locked).getD false

@[simp] theorem put_fs (w : World) (addr : ℕ) (pe : Pentry) : (w.put addr pe).fs = w.fs := rfl
@[simp] theorem put_table (w : World) (addr : ℕ) (pe : Pentry) : (w.put addr pe).table = w.table := rfl
@[simp] theorem put_remote (w : World) (addr : ℕ) (pe : Pentry) : (w.put addr pe).remote = w.remote := rfl

@[simp] theorem put_heap_self (w : World) (addr : ℕ) (pe : Pentry) : (w.put addr pe).heap addr = some pe :=
  Function.update_self ..

theorem put_heap_ne (w : World) {addr other : ℕ} (pe : Pentry) (h : other ≠ addr) :
    (w.put addr pe).heap other = w.heap other := Function.update_of_ne h ..

/-- Storing an entry at the address the table has for a path makes it the entry of that path. -/
theorem put_entry (w : World) {path : CStr} {addr : ℕ} (pe : Pentry) (h : w.table path = some addr) :
    (w.put addr pe).entry path = some pe := by
  simp [entry, h]

end World

end Dropletfs
