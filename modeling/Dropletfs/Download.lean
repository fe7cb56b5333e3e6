import Dropletfs.Entry
import Dropletfs.Transfer

/-!
# Fetching a local copy

`dfs_get_local_copy` looks the object up, stores its metadata in the entry, downloads it
into the cache file, decompresses it when its label says so, and opens the result with the
requested flags. Each call along the way has its reply in a record. The messages it logs
are left out, and `check_permissions`, which accepts everything, with them.
-/

namespace Dropletfs

/-- Replies to the calls of `handle_compression`. `fclose` tells how many bytes of the buffered
output reach the scratch file when not all of them do. -/
structure UnpackReplies where
  fopenSource : Option ℕ
  fopenScratch : Option ℕ
  io : ZipIo
  update : Status
  rename : Bool
  reopen : Option ℕ
  fclose : Option ℕ

/-- Replies to a download: its status, the sizes of its chunks, the results of the writes, and how
much is passed on before a failure. -/
structure OpenreadReplies where
  status : Status
  chunkSizes : List ℕ
  writes : List WriteResult
  delivered : ℕ

/-- Replies to the calls of `dfs_get_local_copy`. -/
structure CopyReplies where
  namei : ℕ → Status
  headAll : ℕ → Status
  newDict : Bool
  extract : Status
  setMetadata : MetadataReplies
  junkDigest : CStr
  access : Bool
  unlink : Bool
  create : Option ℕ
  openread : OpenreadReplies
  unpack : UnpackReplies
  close : Bool
  reopen : Option ℕ

/-- Every call succeeds, and descriptors from this one on are free. -/
def CopyReplies.granted (fd : ℕ) : CopyReplies where
  namei _ := .success
  headAll _ := .success
  newDict := true
  extract := .success
  setMetadata := ⟨true, .success⟩
  junkDigest := []
  access := true
  unlink := true
  create := some fd
  openread := ⟨.success, [], [], 0⟩
  unpack := ⟨some (fd + 1), some (fd + 2), .clean, .success, true, some fd, none⟩
  close := true
  reopen := some fd

/-- `O_RDONLY`. -/
def readOnly : OpenFlags := ⟨false, false, false⟩

/-- `O_RDWR|O_CREAT|O_TRUNC`, and what `fopen` does for `"w"` and `"w+"`. -/
def createTruncated : OpenFlags := ⟨true, true, true⟩

/-- `download_headers`: `none` when it returns -1, otherwise the headers it obtained. A failing
`dpl_head_all` makes it return 1, which its caller does not take for a failure. -/
def downloadHeaders (maxRetry : ℤ) (r : Remote) (path : CStr) (replies : CopyReplies) :
    Option (Option Obj) :=
  if (dfsNameiTimeout maxRetry replies.namei path r).1 ≠ .success then none
  else some (dfsHeadAllTimeout maxRetry replies.headAll path r).2

/-- `dpl_get_metadata_from_headers`. -/
def getMetadataFromHeaders (reply : Status) (headers : Option Obj) : Dict :=
  if reply = .success then (headers.bind Obj.metadata).getD Dict.new else Dict.new

/-- `MD5_DIGEST_LENGTH`. -/
def md5DigestLength : ℕ := 16

/-- `compare_digests`: whether the digests match, and the entry. -/
def compareDigests (pe : Pentry) (headers : Option Obj) (junk : CStr) : Bool × Pentry :=
  if pe.ondisk ≠ .localFile then (false, pe)
  else match headers.bind Obj.etag with
    | none => (false, pe)
    | some etag =>
      if (pe.digest.getD junk).take md5DigestLength = etag.take md5DigestLength then (true, pe)
      else (false, { pe with digest := some (etag.take md5DigestLength) })

/-- `check_encryption_flag`: whether the result has `DPL_VFILE_FLAG_ENCRYPT` set. -/
def checkEncryptionFlag (conf : Conf) (metadata : Dict) : Bool :=
  if conf.usesAes = false then false
  else match metadata "cipher".toList, metadata "cipher-type".toList with
    | some cipher, some _ =>
      -- The `goto end` under the test of `cipher` is not part of it, so both outcomes leave here
      -- and the test of the cipher type that follows is never reached.
      if strncasecmpEq "yes".toList cipher = false then false else false
    | _, _ => false

/-- What `handle_compression` returns, and the descriptor it leaves in `get_data`. -/
structure Unpacked where
  ret : ℤ
  fs : LocalFs
  fd : Option ℕ

/-- `fclose` of the two streams, the output of `unzip` being flushed to the scratch file. -/
def closeStreams (fs : LocalFs) (source scratch : ℕ) (out : Bytes) (fclose : Option ℕ) : LocalFs :=
  ((fs.append scratch (flushed fclose out)).close source).close scratch

/-- The part of `handle_compression` after both streams are open. -/
def unpackInto (env : Env) (fs : LocalFs) (name : CStr) (fd source scratch : ℕ) (replies : UnpackReplies) :
    Exec Unpacked := do
  let (zret, out) ← unzip env.zlib (fs.unread source) replies.io
  let finish (fs : LocalFs) := closeStreams fs source scratch out replies.fclose
  if zret ≠ .ok then
    return ⟨-1, finish fs, some fd⟩
  else if replies.update ≠ .success then
    return ⟨-1, finish fs, some fd⟩
  else if replies.rename = false then
    return ⟨1, finish fs, some fd⟩
  else
    let fs := (fs.rename (scratchName name) name).close fd
    match fs.openFile env.proc name readOnly 0o666 replies.reopen with
    | none => return ⟨-1, finish fs, none⟩
    | some (fd', fs) => return ⟨0, finish fs, some fd'⟩

/-- `handle_compression` on the downloaded file. -/
def handleCompression (env : Env) (fs : LocalFs) (name : CStr) (fd : ℕ) (metadata : Dict)
    (replies : UnpackReplies) : Exec Unpacked :=
  match metadata "compression".toList with
  | none => .done ⟨0, fs, some fd⟩
  | some label =>
    if strncmpEq "none".toList label then .done ⟨0, fs, some fd⟩
    else if strncmpEq "zlib".toList label = false then .done ⟨-1, fs, some fd⟩
    else
      match fs.openFile env.proc name readOnly 0o666 replies.fopenSource with
      | none => .done ⟨-1, fs, some fd⟩
      | some (source, fs) =>
        match fs.openFile env.proc (scratchName name) createTruncated 0o666 replies.fopenScratch with
        | none => .done ⟨-1, fs.close source, some fd⟩
        | some (scratch, fs) => unpackInto env fs name fd source scratch replies

/-- `dpl_openread`: the status, the file written through the callback, and the metadata. -/
def dplOpenread (cipher : Cipher) (r : Remote) (path : CStr) (encryption : Bool) (fs : LocalFs) (fd : ℕ)
    (metadata : Dict) (replies : OpenreadReplies) : Status × LocalFs × Dict :=
  match r.lookup path with
  | none => (replies.status.onExisting false, fs, metadata)
  | some obj =>
    let plain := if encryption then cipher.decrypt obj.content else obj.content
    if replies.status = .success then
      let (taken, bytes) := cbGetBuffered replies.writes (chunks replies.chunkSizes plain)
      if taken then (.success, fs.append fd bytes, obj.metadata.getD Dict.new)
      else (.failure, fs.append fd bytes, metadata)
    else (replies.status, fs.append fd (plain.take replies.delivered), metadata)

/-- The name `dfs_get_local_copy` gives to the cache file. -/
def copyName (conf : Conf) (path : CStr) : CStr := tmpstrPrintf (conf.cacheDir ++ path)

/-- The end of `dfs_get_local_copy`: close the descriptor of the download, open the result. -/
def openCopy (env : Env) (name : CStr) (flags : OpenFlags) (pe : Pentry) (replies : CopyReplies)
    (unpacked : Unpacked) : ℤ × LocalFs × Pentry :=
  if unpacked.ret = -1 then (-1, unpacked.fs, pe)
  else
    match unpacked.fd with
    | none => (-1, unpacked.fs, pe)
    | some fd =>
      let fs := unpacked.fs.close fd
      if replies.close = false then (-1, fs, pe)
      else
        match fs.openFile env.proc name flags 0o600 replies.reopen with
        | none => (-1, fs, pe)
        | some (fd, fs) => (fd, fs, pe)

/-- `dfs_get_local_copy` from the download on. -/
def fetchCopy (env : Env) (fs : LocalFs) (r : Remote) (pe : Pentry) (path : CStr) (flags : OpenFlags)
    (metadata : Dict) (replies : CopyReplies) : Exec (ℤ × LocalFs × Pentry) :=
  let name := copyName env.conf path
  let fs := if replies.access && (fs.resolve name).isSome then fs.unlink name replies.unlink else fs
  match fs.openFile env.proc name createTruncated 0o600 replies.create with
  | none => .done (-1, fs, pe)
  | some (fd, fs) =>
    let encryption := checkEncryptionFlag env.conf metadata
    let (status, fs, metadata) := dplOpenread env.cipher r path encryption fs fd metadata replies.openread
    if status ≠ .success then .done (-1, fs.close fd, pe)
    else do
      let unpacked ← handleCompression env fs name fd metadata replies.unpack
      return openCopy env name flags pe replies unpacked

/-- `dfs_get_local_copy`: the descriptor it returns, and the entry with its new metadata. -/
def dfsGetLocalCopy (env : Env) (fs : LocalFs) (r : Remote) (pe : Pentry) (path : CStr) (flags : OpenFlags)
    (replies : CopyReplies) : Exec (ℤ × LocalFs × Pentry) :=
  match downloadHeaders env.conf.maxRetry r path replies with
  | none => .done (-1, fs, pe)
  | some headers =>
    if replies.newDict = false then .done (-1, fs, pe)
    else if replies.extract = .failure then .done (-1, fs, pe)
    else
      let metadata := getMetadataFromHeaders replies.extract headers
      let (stored, pe) := pe.setMetadata metadata replies.setMetadata
      if stored = false then .done (-1, fs, pe)
      else
        let (same, pe) := compareDigests pe headers replies.junkDigest
        if same then .done (pe.fd, fs, pe)
        else fetchCopy env fs r pe path flags metadata replies

/-- Storing metadata changes nothing else in an entry. -/
theorem Pentry.setMetadata_eq (pe : Pentry) (dict : Dict) (replies : MetadataReplies) :
    ∃ metadata, (pe.setMetadata dict replies).2 = { pe with metadata := metadata } := by
  unfold Pentry.setMetadata
  split
  · exact ⟨none, rfl⟩
  · split
    · exact ⟨some Dict.new, rfl⟩
    · exact ⟨some dict, rfl⟩

/-- Comparing digests changes nothing but the digest of the entry. -/
theorem compareDigests_eq (pe : Pentry) (headers : Option Obj) (junk : CStr) :
    ∃ digest, (compareDigests pe headers junk).2 = { pe with digest := digest } := by
  unfold compareDigests
  split
  · exact ⟨pe.digest, rfl⟩
  · split
    · exact ⟨pe.digest, rfl⟩
    · split
      · exact ⟨pe.digest, rfl⟩
      · exact ⟨_, rfl⟩

/-- Fetching the content leaves the entry to its caller. -/
theorem fetchCopy_entry {env : Env} {fs fs' : LocalFs} {r : Remote} {pe pe' : Pentry} {path : CStr}
    {flags : OpenFlags} {metadata : Dict} {replies : CopyReplies} {fd : ℤ}
    (h : fetchCopy env fs r pe path flags metadata replies = .done (fd, fs', pe')) : pe' = pe := by
  have hopen : ∀ unpacked, (openCopy env (copyName env.conf path) flags pe replies unpacked).2.2 = pe := by
    intro unpacked
    unfold openCopy
    split
    · rfl
    · split
      · rfl
      · simp only
        split
        · rfl
        · split <;> rfl
  unfold fetchCopy at h
  simp only at h
  split at h
  · simp only [Exec.done.injEq, Prod.mk.injEq] at h
    exact h.2.2.symm
  · split at h
    · simp only [Exec.done.injEq, Prod.mk.injEq] at h
      exact h.2.2.symm
    · obtain ⟨unpacked, -, hdone⟩ := Exec.bind_eq_done.mp h
      have heq : openCopy env (copyName env.conf path) flags pe replies unpacked = (fd, fs', pe') := by
        simpa [pure] using hdone
      rw [← hopen unpacked, heq]

/-- A local copy changes nothing but the metadata and the digest of the entry. -/
theorem dfsGetLocalCopy_entry {env : Env} {fs fs' : LocalFs} {r : Remote} {pe pe' : Pentry} {path : CStr}
    {flags : OpenFlags} {replies : CopyReplies} {fd : ℤ}
    (h : dfsGetLocalCopy env fs r pe path flags replies = .done (fd, fs', pe')) :
    ∃ metadata digest, pe' = { pe with metadata := metadata, digest := digest } := by
  unfold dfsGetLocalCopy at h
  split at h
  · simp only [Exec.done.injEq, Prod.mk.injEq] at h
    exact ⟨pe.metadata, pe.digest, h.2.2.symm⟩
  · rename_i headers _
    split at h
    · simp only [Exec.done.injEq, Prod.mk.injEq] at h
      exact ⟨pe.metadata, pe.digest, h.2.2.symm⟩
    · split at h
      · simp only [Exec.done.injEq, Prod.mk.injEq] at h
        exact ⟨pe.metadata, pe.digest, h.2.2.symm⟩
      · obtain ⟨metadata, hmetadata⟩ :=
          pe.setMetadata_eq (getMetadataFromHeaders replies.extract headers) replies.setMetadata
        simp only at h
        rw [hmetadata] at h
        split at h
        · simp only [Exec.done.injEq, Prod.mk.injEq] at h
          exact ⟨metadata, pe.digest, h.2.2.symm⟩
        · obtain ⟨digest, hdigest⟩ :=
            compareDigests_eq { pe with metadata := metadata } headers replies.junkDigest
          rw [hdigest] at h
          split at h
          · simp only [Exec.done.injEq, Prod.mk.injEq] at h
            exact ⟨metadata, digest, h.2.2.symm⟩
          · exact ⟨metadata, digest, fetchCopy_entry h⟩

end Dropletfs
