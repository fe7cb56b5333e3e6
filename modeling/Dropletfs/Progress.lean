import Dropletfs.CacheNames
import Dropletfs.WriteBack

/-!
# Transfers whose calls all succeed

When every call succeeds and every descriptor the kernel picks is one that is not in use, a
download ends with a descriptor and a release with a stored object. What the download
leaves in the cache file, and what the release stores, is known from before.
-/

namespace Dropletfs

open LocalFs (openFile_files)

/-- The descriptor a call opens is one that is not in use. -/
def LocalFs.Picks (fs : LocalFs) (reply : Option ℕ) (fd : ℕ) : Prop := reply = some fd ∧ fs.files fd = none

/-- Opening an existing file, or any file with `O_CREAT`, succeeds on a descriptor not in use. -/
theorem LocalFs.openFile_picks {fs : LocalFs} {name : CStr} {flags : OpenFlags} {fd : ℕ} (proc : Process)
    (mode : BitVec 32) (hfree : fs.files fd = none)
    (h : (fs.names (collapse name)).isSome = true ∨ flags.creat = true) :
    ∃ fs', fs.openFile proc name flags mode (some fd) = some (fd, fs') ∧
      ∀ other, other ≠ fd → fs'.files other = fs.files other := by
  have hnot : ¬ (fs.files fd).isSome = true := by simp [hfree]
  unfold LocalFs.openFile
  simp only [hnot, Bool.false_eq_true, if_false]
  cases hname : fs.resolve name with
  | some ino =>
    refine ⟨_, rfl, fun other hother => ?_⟩
    simp only [bind, Function.update_of_ne hother]
    split <;> rfl
  | none =>
    have hcreat := h.resolve_left (by simp only [LocalFs.resolve] at hname; simp [hname])
    simp only [hcreat, if_true]
    exact ⟨_, rfl, fun other hother => by simp only [bind, Function.update_of_ne hother]; rfl⟩

/-- Every call of a decompression succeeds, on a local file system whose descriptor of the download may
be reused after it was closed. -/
structure UnpackReplies.Smooth (fs : LocalFs) (download : ℕ) (replies : UnpackReplies) : Prop where
  readFails : ∀ i, replies.io.readFails i = false
  writeFails : ∀ i, replies.io.writeFails i = false
  update : replies.update = .success
  rename : replies.rename = true
  fclose : replies.fclose = none
  fds : ∃ source scratch again, fs.Picks replies.fopenSource source ∧ fs.Picks replies.fopenScratch scratch ∧
    replies.reopen = some again ∧ (again = download ∨ fs.files again = none) ∧ source ≠ scratch ∧
    again ≠ source ∧ again ≠ scratch

/-- Every call of a download succeeds. -/
structure CopyReplies.Smooth (fs : LocalFs) (replies : CopyReplies) : Prop where
  namei : ∀ i, replies.namei i = .success
  newDict : replies.newDict = true
  extract : replies.extract = .success
  setMetadata : replies.setMetadata = ⟨true, .success⟩
  openread : replies.openread.status = .success
  writes : .failed ∉ replies.openread.writes
  close : replies.close = true
  fds : ∃ download cached source scratch, fs.Picks replies.create download ∧
    fs.Picks replies.reopen cached ∧ replies.unpack.Smooth fs download ∧
    replies.unpack.fopenSource = some source ∧ source ≠ download ∧
    replies.unpack.fopenScratch = some scratch ∧ scratch ≠ download

section Download

variable {env : Env} {fs : LocalFs} {name : CStr}

/-- What is left open after a decompression and the closing of its result. -/
def ClosedAfter (fs fs' : LocalFs) (download : ℕ) : Prop :=
  ∀ fd, fd = download ∨ fs.files fd = none → fs'.files fd = none

/-- Flushing and closing the streams leaves the other descriptors alone. -/
theorem closeStreams_files (fs : LocalFs) (source scratch : ℕ) (out : Bytes) (fclose : Option ℕ) {fd : ℕ} :
    (closeStreams fs source scratch out fclose).files fd =
      if fd = scratch ∨ fd = source then none else fs.files fd := by
  have happend : ∀ data, fd ≠ scratch → (fs.append scratch data).files fd = fs.files fd := by
    intro data hne
    unfold LocalFs.append
    split
    · rfl
    · simp only [LocalFs.seek, LocalFs.setContent, Function.update_of_ne hne]
  unfold closeStreams LocalFs.close
  simp only [Function.update_apply]
  by_cases hscratch : fd = scratch
  · simp [hscratch]
  · simp [hscratch, happend _ hscratch]

/-- A decompression with both streams open. -/
theorem unpackInto_done {raw out : Bytes} {source scratch again : ℕ} {replies : UnpackReplies} (download : ℕ)
    (h : Streams fs name raw source scratch) (hunzip : unzip env.zlib raw replies.io = .done (.ok, out))
    (hupdate : replies.update = .success) (hrename : replies.rename = true)
    (hreopen : replies.reopen = some again) (hagain : again = download ∨ fs.files again = none) :
    ∃ unpacked, unpackInto env fs name download source scratch replies = .done unpacked ∧ unpacked.ret ≠ -1 ∧
      unpacked.fd = some again ∧ ∀ fd, fd = download ∨ fd = source ∨ fd = scratch ∨ fs.files fd = none →
        (unpacked.fs.close again).files fd = none := by
  obtain ⟨ino, -, -, hname, -⟩ := h.scratch
  have hmoved : ((fs.rename (scratchName name) name).close download).names (collapse name) = some ino := by
    unfold LocalFs.rename
    split
    · rename_i hnone
      rw [hname] at hnone
      cases hnone
    · rename_i i hi
      obtain rfl : i = ino := Option.some.inj (hi.symm.trans hname)
      exact Function.update_self ..
  have hfiles : ∀ fd, ((fs.rename (scratchName name) name).close download).files fd =
      if fd = download then none else fs.files fd := by
    intro fd
    simp only [LocalFs.close, LocalFs.rename_files, Function.update_apply]
  have hfree : ((fs.rename (scratchName name) name).close download).files again = none := by
    rw [hfiles]
    rcases hagain with rfl | hnone
    · simp
    · simp [hnone]
  obtain ⟨fs', hopen, hother⟩ : ∃ fs', ((fs.rename (scratchName name) name).close download).openFile env.proc
      name readOnly 0o666 (some again) = some (again, fs') ∧ ∀ other, other ≠ again →
        fs'.files other = ((fs.rename (scratchName name) name).close download).files other :=
    LocalFs.openFile_picks _ _ hfree (.inl (by rw [hmoved]; rfl))
  refine ⟨⟨0, closeStreams fs' source scratch out replies.fclose, some again⟩, ?_, by simp, rfl, ?_⟩
  · have hsource : fs.unread source = raw := h.source
    simp only [unpackInto, hsource, hunzip, Exec.done_bind, hupdate, hrename, hreopen, hopen, ne_eq,
      not_true_eq_false, Bool.true_eq_false, if_false]
    rfl
  · intro fd hfd
    simp only [LocalFs.close, closeStreams_files, Function.update_apply]
    by_cases hsame : fd = again
    · simp [hsame]
    · rw [if_neg hsame, hother fd hsame, hfiles]
      grind

/-- The scratch file is opened next to the source, unless the two are the same file. -/
theorem handleCompression_done {obj : Obj} {bytes : Bytes} {download : ℕ} {replies : UnpackReplies}
    (hsmooth : replies.Smooth fs download)
    (hcached : fs.contentAt name = some obj.content) (hopen : (fs.files download).isSome = true)
    (hdistinct : collapse (scratchName name) ≠ collapse name) (hfetched : obj.fetched env replies = some bytes) :
    ∃ unpacked fd, handleCompression env fs name download (obj.metadata.getD Dict.new) replies = .done unpacked ∧
      unpacked.ret ≠ -1 ∧ unpacked.fd = some fd ∧ ClosedAfter fs (unpacked.fs.close fd) download := by
  have hkept : ∃ unpacked fd, Exec.done (Unpacked.mk 0 fs (some download)) = .done unpacked ∧
      unpacked.ret ≠ -1 ∧ unpacked.fd = some fd ∧ ClosedAfter fs (unpacked.fs.close fd) download := by
    refine ⟨_, download, rfl, by simp, rfl, ?_⟩
    intro fd hfd
    simp only [LocalFs.close, Function.update_apply]
    grind
  unfold Obj.fetched Obj.label at hfetched
  unfold handleCompression
  cases hlabel : obj.metadata.getD Dict.new "compression".toList with
  | none => exact hkept
  | some label =>
    simp only [hlabel] at hfetched
    simp only
    cases hnone : strncmpEq "none".toList label with
    | true => exact hkept
    | false =>
      simp only [hnone, Bool.false_eq_true, if_false] at hfetched ⊢
      cases hzlib : strncmpEq "zlib".toList label with
      | false =>
        simp only [hzlib, if_true] at hfetched
        cases hfetched
      | true =>
        simp only [hzlib, Bool.true_eq_false, if_false] at hfetched ⊢
        obtain ⟨source, scratch, again, ⟨hsource, hsourceFree⟩, ⟨hscratch, hscratchFree⟩, hreopen, hagain, hne,
          hneSource, hneScratch⟩ := hsmooth.fds
        obtain ⟨ino, hname, hcontent⟩ := LocalFs.contentAt_eq_some.mp hcached
        obtain ⟨fs₁, hopen₁, hfiles₁⟩ : ∃ fs₁, fs.openFile env.proc name readOnly 0o666 (some source) =
            some (source, fs₁) ∧ ∀ other, other ≠ source → fs₁.files other = fs.files other :=
          LocalFs.openFile_picks _ _ hsourceFree (.inl (by rw [hname]; rfl))
        obtain ⟨ino', -, hname', hcontent', rfl⟩ := LocalFs.openFile_contentAt rfl rfl hcached hopen₁
        obtain ⟨fs₂, hopen₂, hfiles₂⟩ : ∃ fs₂, (fs.bind source ino' readOnly.write).openFile env.proc
            (scratchName name) createTruncated 0o666 (some scratch) = some (scratch, fs₂) ∧
            ∀ other, other ≠ scratch → fs₂.files other = (fs.bind source ino' readOnly.write).files other :=
          LocalFs.openFile_picks _ _ (by rw [hfiles₁ scratch hne.symm]; exact hscratchFree) (.inr rfl)
        cases hunzip : unzip env.zlib obj.content replies.io with
        | blocked => simp [hunzip] at hfetched
        | undefined => simp [hunzip] at hfetched
        | done result =>
          obtain ⟨zret, out⟩ := result
          obtain rfl : zret = .ok := by
            cases zret <;> simp [hunzip] at hfetched ⊢
          rcases openScratch_streams hname' hcontent' hopen₂ with hstreams | ⟨hsame, -⟩
          · obtain ⟨unpacked, hdone, hret, hfd, hclosed⟩ := unpackInto_done download hstreams hunzip
              hsmooth.update hsmooth.rename hreopen (by
                rcases hagain with rfl | hfree
                · exact .inl rfl
                · refine .inr ?_
                  rw [hfiles₂ again hneScratch, hfiles₁ again hneSource]
                  exact hfree)
            refine ⟨unpacked, again, ?_, hret, hfd, ?_⟩
            · rw [hsource, hopen₁]
              simp only [hscratch, hopen₂]
              exact hdone
            · intro fd hfd
              apply hclosed
              by_cases hfdScratch : fd = scratch
              · exact .inr (.inr (.inl hfdScratch))
              · by_cases hfdSource : fd = source
                · exact .inr (.inl hfdSource)
                · rw [hfiles₂ fd hfdScratch, hfiles₁ fd hfdSource]
                  grind
          · exact absurd hsame hdistinct

/-- A download all of whose calls succeed yields a file exactly when there is something to fetch. -/
theorem fetchCopy_done {r : Remote} {path : CStr} {replies : CopyReplies} {obj : Obj} {bytes : Bytes}
    (pe : Pentry) (flags : OpenFlags) (metadata : Dict) (hsmooth : replies.Smooth fs)
    (hdistinct : collapse (scratchName (copyName env.conf path)) ≠ collapse (copyName env.conf path))
    (hlookup : r.lookup path = some obj) (hfetched : obj.fetched env replies.unpack = some bytes) :
    ∃ (fd : ℕ) (fs' : LocalFs), fetchCopy env fs r pe path flags metadata replies = .done (fd, fs', pe) := by
  obtain ⟨download, cached, source, scratch, ⟨hcreate, hdownload⟩, ⟨hreopen, hcachedFree⟩, hunpack, hsource,
    hneSource, hscratch, hneScratch⟩ := hsmooth.fds
  obtain ⟨fs₁, hfiles₁, hfs₁⟩ : ∃ fs₁ : LocalFs, fs₁.files = fs.files ∧
      (if (replies.access && (fs.resolve (copyName env.conf path)).isSome) = true then
        fs.unlink (copyName env.conf path) replies.unlink else fs) = fs₁ := by
    refine ⟨_, ?_, rfl⟩
    split
    · unfold LocalFs.unlink
      split <;> rfl
    · rfl
  obtain ⟨fs₂, hopen, hfiles₂⟩ : ∃ fs₂, fs₁.openFile env.proc (copyName env.conf path) createTruncated 0o600
      (some download) = some (download, fs₂) ∧ ∀ other, other ≠ download → fs₂.files other = fs₁.files other :=
    LocalFs.openFile_picks _ _ (by rw [hfiles₁]; exact hdownload) (.inr rfl)
  obtain ⟨-, ino, hfile, hname⟩ := LocalFs.openFile_file hopen
  have hempty := LocalFs.openFile_trunc rfl hopen
  simp only [LocalFs.fdContent, hfile, Option.map_some, Option.some.injEq] at hempty
  have htaken : cbGetBuffered replies.openread.writes (chunks replies.openread.chunkSizes obj.content) =
      (true, obj.content) := by
    have hok := cbGetBuffered_of_no_failure replies.openread.writes
      (chunks replies.openread.chunkSizes obj.content) hsmooth.writes
    exact Prod.ext hok (by rw [cbGetBuffered_eq_flatten _ _ hok, chunks_flatten])
  have hread : dplOpenread env.cipher r path (checkEncryptionFlag env.conf metadata) fs₂ download metadata
      replies.openread = (.success, fs₂.append download obj.content, obj.metadata.getD Dict.new) := by
    simp only [dplOpenread, checkEncryptionFlag_eq_false, hlookup, Bool.false_eq_true, if_false, hsmooth.openread,
      if_true, htaken]
  have hwritten := LocalFs.append_empty obj.content hfile hempty
  have hcached : (fs₂.append download obj.content).contentAt (copyName env.conf path) = some obj.content := by
    rw [hwritten]
    exact LocalFs.contentAt_eq_some.mpr ⟨ino, hname, by simp [LocalFs.seek, LocalFs.setContent]⟩
  have hfiles₃ : ∀ other, other ≠ download →
      (fs₂.append download obj.content).files other = fs.files other := by
    intro other hother
    rw [hwritten]
    simp only [LocalFs.seek, LocalFs.setContent, Function.update_of_ne hother]
    rw [hfiles₂ other hother, hfiles₁]
  have hstill : ((fs₂.append download obj.content).files download).isSome = true := by
    rw [hwritten]
    simp [LocalFs.seek, LocalFs.setContent, hfile]
  have hunpack' : replies.unpack.Smooth (fs₂.append download obj.content) download := by
    obtain ⟨source', scratch', again, ⟨hsource', hsourceFree⟩, ⟨hscratch', hscratchFree⟩, hagain, hagainFree, hne⟩ :=
      hunpack.fds
    obtain rfl : source = source' := Option.some.inj (hsource.symm.trans hsource')
    obtain rfl : scratch = scratch' := Option.some.inj (hscratch.symm.trans hscratch')
    refine ⟨hunpack.readFails, hunpack.writeFails, hunpack.update, hunpack.rename, hunpack.fclose, source, scratch,
      again, ⟨hsource', by rw [hfiles₃ _ hneSource]; exact hsourceFree⟩,
      ⟨hscratch', by rw [hfiles₃ _ hneScratch]; exact hscratchFree⟩, hagain, ?_, hne⟩
    by_cases hsame : again = download
    · exact .inl hsame
    · refine .inr ?_
      rw [hfiles₃ _ hsame]
      exact hagainFree.resolve_left hsame
  obtain ⟨unpacked, fd, hdone, hret, hfd, hclosed⟩ :=
    handleCompression_done hunpack' hcached hstill hdistinct hfetched
  obtain ⟨bytes', -, hat⟩ := handleCompression_content hcached hstill hdone hret
  obtain ⟨ino', hname', -⟩ := LocalFs.contentAt_eq_some.mp hat
  have hfree : (unpacked.fs.close fd).files cached = none := by
    apply hclosed
    by_cases hsame : cached = download
    · exact .inl hsame
    · refine .inr ?_
      rw [hfiles₃ _ hsame]
      exact hcachedFree
  obtain ⟨fs₄, hopen₄, -⟩ : ∃ fs₄, (unpacked.fs.close fd).openFile env.proc (copyName env.conf path) flags 0o600
      (some cached) = some (cached, fs₄) ∧
      ∀ other, other ≠ cached → fs₄.files other = (unpacked.fs.close fd).files other :=
    LocalFs.openFile_picks _ _ hfree (.inl (Option.isSome_iff_exists.mpr ⟨ino', hname'⟩))
  refine ⟨cached, fs₄, ?_⟩
  simp only [fetchCopy, hfs₁, hcreate, hopen, hread, ne_eq, not_true_eq_false, if_false, hdone, Exec.done_bind]
  simp only [openCopy, hret, if_false, hfd, hsmooth.close, Bool.true_eq_false, hreopen, hopen₄]
  rfl

/-- A lookup that succeeds at every attempt finds what is there. -/
theorem dfsNameiTimeout_granted (maxRetry : ℤ) {replies : ℕ → Status} {path : CStr} {r : Remote}
    (hreplies : ∀ i, replies i = .success) (h : (r.ftype path).isSome = true) :
    (dfsNameiTimeout maxRetry replies path r).1 = .success := by
  obtain ⟨i, hi⟩ := readTimeout_eq_attempt maxRetry Status.retriable fun i => dplNamei (replies i) path r
  rw [dfsNameiTimeout, hi]
  exact (Status.onExisting_eq_success _ _).mpr ⟨hreplies i, h⟩

/-- A local copy through an entry that has none, all of its calls succeeding, yields a file with some
content exactly when that is what there is to fetch. -/
theorem dfsGetLocalCopy_yields_iff {r : Remote} {pe : Pentry} {path : CStr} {flags : OpenFlags}
    {replies : CopyReplies} {obj : Obj} {bytes : Bytes} (hsmooth : replies.Smooth fs)
    (hdistinct : collapse (scratchName (copyName env.conf path)) ≠ collapse (copyName env.conf path))
    (hlookup : r.lookup path = some obj) (hfd : pe.fd = -1) (hondisk : pe.ondisk ≠ .localFile)
    (htrunc : flags.trunc = false) (hcreat : flags.creat = false) :
    (∃ (fd : ℕ) (fs' : LocalFs) (pe' : Pentry), dfsGetLocalCopy env fs r pe path flags replies =
        .done (fd, fs', pe') ∧ fs'.OpenAt (copyName env.conf path) fd flags.write bytes) ↔
      obj.fetched env replies.unpack = some bytes := by
  have hcontent : ∀ (fd : ℕ) fs' pe',
      dfsGetLocalCopy env fs r pe path flags replies = .done ((fd : ℤ), fs', pe') →
      ∃ bytes, obj.fetched env replies.unpack = some bytes ∧
        fs'.OpenAt (copyName env.conf path) fd flags.write bytes := by
    intro fd fs' pe' hdone
    obtain ⟨obj', bytes', fd', hlookup', hfetched, heq, -, hat⟩ :=
      dfsGetLocalCopy_content htrunc hcreat hdone (by omega) (by omega)
    obtain rfl := Option.some.inj (hlookup'.symm.trans hlookup)
    obtain rfl := Int.ofNat.inj heq
    exact ⟨bytes', hfetched, hat⟩
  constructor
  · rintro ⟨fd, fs', pe', hdone, ino, -, hfile, hbytes⟩
    obtain ⟨bytes', hfetched, ino', -, hfile', hbytes'⟩ := hcontent fd fs' pe' hdone
    obtain rfl : ino = ino' := congrArg OpenFile.ino (Option.some.inj (hfile.symm.trans hfile'))
    rw [hfetched, ← hbytes, ← hbytes']
  · intro hfetched
    have hexists : (r.ftype path).isSome = true := by
      unfold Remote.ftype
      split
      · rfl
      · rw [hlookup]
        rfl
    have hnamei := dfsNameiTimeout_granted env.conf.maxRetry hsmooth.namei hexists
    obtain ⟨headers, hheaders⟩ : ∃ headers, downloadHeaders env.conf.maxRetry r path replies = some headers :=
      ⟨_, by rw [downloadHeaders, if_neg (not_not.mpr hnamei)]⟩
    obtain ⟨fd, fs', hdone⟩ :=
      fetchCopy_done { pe with metadata := some (getMetadataFromHeaders replies.extract headers) }
      flags (getMetadataFromHeaders replies.extract headers) hsmooth hdistinct hlookup hfetched
    have hcopy : dfsGetLocalCopy env fs r pe path flags replies = .done ((fd : ℤ), fs',
        { pe with metadata := some (getMetadataFromHeaders replies.extract headers) }) := by
      simp only [dfsGetLocalCopy, hheaders, hsmooth.newDict, hsmooth.extract, Pentry.setMetadata,
        hsmooth.setMetadata, compareDigests, Bool.true_eq_false, reduceCtorEq, if_false, hondisk, ne_eq,
        not_false_eq_true, if_true, Bool.false_eq_true]
      simpa only [hsmooth.extract] using hdone
    obtain ⟨bytes', hfetched', hat⟩ := hcontent fd fs' _ hcopy
    obtain rfl := Option.some.inj (hfetched'.symm.trans hfetched)
    exact ⟨fd, fs', _, hcopy, hat⟩

end Download

/-- Every call of a release succeeds, and the scratch file gets a descriptor other than zero. -/
structure ReleaseReplies.Smooth (fs : LocalFs) (replies : ReleaseReplies) : Prop where
  fstat : replies.fstat.isSome = true
  semWait : replies.semWait = true
  newDict : replies.newDict = true
  readFails : ∀ i, replies.zip.readFails i = false
  writeFails : ∀ i, replies.zip.writeFails i = false
  fflush : replies.fflush = none
  fileno : replies.fileno = true
  fstatScratch : replies.fstatScratch = true
  lseekScratch : replies.lseekScratch = true
  update : replies.update = .success
  openwrite : replies.openwrite = .success
  read : ∀ i, (replies.read i).isSome = true
  write : ∀ i, replies.write i = .success
  close : replies.close.status = .success
  fds : ∃ source scratch, fs.Picks replies.fopenSource source ∧ fs.Picks replies.fopenScratch scratch ∧
    source ≠ scratch ∧ 0 < scratch

/-- A release compresses: `zlib` is set, and takes the level. -/
def Env.compresses (env : Env) : Bool :=
  env.conf.usesZlib && decide (env.zlib.deflateInit env.conf.zlibLevel = .ok)

/-- Compressing takes both. -/
theorem Env.compresses_eq {env : Env} :
    env.compresses = true ↔ env.conf.usesZlib = true ∧ env.zlib.deflateInit env.conf.zlibLevel = .ok := by
  simp [Env.compresses]

/-- What a release stores: the content itself, or a stream that decompresses to it and is labelled so. -/
structure Payload (env : Env) (io : ZipIo) (content : Bytes) (dict : Dict) (payload : Bytes) : Prop where
  size : dict "size".toList = some (decimal content.length)
  plain : env.compresses = false → dict "compression".toList = none ∧ payload = content
  zlib : env.compresses = true → dict "compression".toList = some "zlib".toList ∧
    zip env.zlib env.conf.zlibLevel content io = .done (.ok, payload) ∧
    ∀ io' : ZipIo, (∀ i, io'.readFails i = false) → (∀ i, io'.writeFails i = false) →
      unzip env.zlib payload io' = .done (.ok, content)

/-- zlib as a release with this configuration relies on it for a content. -/
def Zlib.Serves (env : Env) (content : Bytes) : Prop :=
  env.compresses = true → env.zlib.Undoes env.conf.zlibLevel content

section Release

variable {env : Env} {fs : LocalFs} {name : CStr}

/-- The streams of a compression are opened, all calls succeeding. -/
theorem openStreams_done (env : Env) {content : Bytes} {ino : ℕ} {replies : ReleaseReplies}
    (hsmooth : replies.Smooth fs) (hname : fs.names (collapse name) = some ino)
    (hcontent : (fs.inodes ino).content = content) (hdistinct : collapse (scratchName name) ≠ collapse name) :
    ∃ source scratch fs₁ fs₂, fs.openFile env.proc name readOnly 0o666 replies.fopenSource = some (source, fs₁) ∧
      fs₁.openFile env.proc (scratchName name) createTruncated 0o666 replies.fopenScratch = some (scratch, fs₂) ∧
      Streams fs₂ name content source scratch ∧ 0 < scratch := by
  obtain ⟨source, scratch, ⟨hsource, hsourceFree⟩, ⟨hscratch, hscratchFree⟩, hne, hpos⟩ := hsmooth.fds
  have hcached := LocalFs.contentAt_eq_some.mpr ⟨ino, hname, hcontent⟩
  obtain ⟨fs₁, hopen₁, hfiles₁⟩ : ∃ fs₁, fs.openFile env.proc name readOnly 0o666 (some source) =
      some (source, fs₁) ∧ ∀ other, other ≠ source → fs₁.files other = fs.files other :=
    LocalFs.openFile_picks _ _ hsourceFree (.inl (by rw [hname]; rfl))
  obtain ⟨ino', -, hname', hcontent', rfl⟩ := LocalFs.openFile_contentAt rfl rfl hcached hopen₁
  obtain ⟨fs₂, hopen₂, -⟩ : ∃ fs₂, (fs.bind source ino' readOnly.write).openFile env.proc
      (scratchName name) createTruncated 0o666 (some scratch) = some (scratch, fs₂) ∧
      ∀ other, other ≠ scratch → fs₂.files other = (fs.bind source ino' readOnly.write).files other :=
    LocalFs.openFile_picks _ _ (by rw [hfiles₁ scratch hne.symm]; exact hscratchFree) (.inr rfl)
  have hstreams := (openScratch_streams hname' hcontent' hopen₂).resolve_right fun h => hdistinct h.1
  exact ⟨source, scratch, _, fs₂, by rw [hsource]; exact hopen₁, by rw [hscratch]; exact hopen₂, hstreams, hpos⟩

section Pack

variable {content : Bytes} {fd size : ℕ} {file : OpenFile} {dict : Dict} {replies : ReleaseReplies}

/-- Without `zlib` the cache file itself is sent. -/
theorem pack_plain (hfile : fs.files fd = some file) (hoffset : file.offset = 0)
    (hcontent : (fs.inodes file.ino).content = content) (huses : env.conf.usesZlib = false) :
    ∃ packed, pack env fs name ⟨fd, size, dict⟩ replies = .done packed ∧
      packed.outgoing = some ⟨fd, size, dict⟩ ∧ packed.fs.unread fd = content := by
  rw [pack, if_pos huses]
  refine ⟨_, rfl, rfl, ?_⟩
  simp only [LocalFs.unread, hfile, hoffset, List.drop_zero, hcontent]

/-- When `deflateInit` does not take the level, the cache file itself is sent. -/
theorem pack_refused (hsmooth : replies.Smooth fs) (hfile : fs.files fd = some file) (hoffset : file.offset = 0)
    (hname : fs.names (collapse name) = some file.ino) (hcontent : (fs.inodes file.ino).content = content)
    (hdistinct : collapse (scratchName name) ≠ collapse name) (huses : env.conf.usesZlib = true)
    (hinit : env.zlib.deflateInit env.conf.zlibLevel ≠ .ok) :
    ∃ packed, pack env fs name ⟨fd, size, dict⟩ replies = .done packed ∧
      packed.outgoing = some ⟨fd, size, dict⟩ ∧ packed.fs.unread fd = content := by
  obtain ⟨source, scratch, fs₁, fs₂, hopen₁, hopen₂, -, -⟩ := openStreams_done env hsmooth hname hcontent
    hdistinct
  have hpack : pack env fs name ⟨fd, size, dict⟩ replies = .done ⟨fs₂.append scratch (flushed replies.fflush []),
      some ⟨fd, size, dict⟩, [source, scratch], some (scratchName name)⟩ := by
    rw [pack, if_neg (by simp [huses])]
    simp only [hopen₁, hopen₂, compressBeforeSending, zip, hinit, ne_eq, not_false_eq_true, if_true, Exec.done_bind,
      true_or]
    rfl
  refine ⟨_, hpack, rfl, ?_⟩
  obtain ⟨hframe, -, -⟩ := pack_frame hpack
  have hkept : ((fs₂.append scratch (flushed replies.fflush [])).inodes file.ino).content = content := by
    rw [hframe.inodes file.ino (fs.names_lt _ _ hname), hcontent]
    rintro other rfl hother
    exact hdistinct (fs.names_inj _ _ _ hother hname)
  have hopen : (fs₂.append scratch (flushed replies.fflush [])).files fd = some file := hframe.files _ _ hfile
  simp only [LocalFs.unread, hopen, hoffset, List.drop_zero, hkept]

/-- When `deflateInit` takes the level, a stream that inflates to the cache file is sent. -/
theorem pack_compressed (hsmooth : replies.Smooth fs) (hname : fs.names (collapse name) = some file.ino)
    (hcontent : (fs.inodes file.ino).content = content) (hdistinct : collapse (scratchName name) ≠ collapse name)
    (huses : env.conf.usesZlib = true) {stream : Bytes}
    (hzip : zip env.zlib env.conf.zlibLevel content replies.zip = .done (.ok, stream)) :
    ∃ packed scratch sent, pack env fs name ⟨fd, size, dict⟩ replies = .done packed ∧
      packed.outgoing = some ⟨scratch, sent, dict.updateValue "compression".toList "zlib".toList⟩ ∧
      packed.fs.unread scratch = stream := by
  obtain ⟨source, scratch, fs₁, fs₂, hopen₁, hopen₂, hstreams, hpos⟩ := openStreams_done env hsmooth hname
    hcontent hdistinct
  obtain ⟨ino', write, hfile', -, hempty⟩ := hstreams.scratch
  have hwritten := LocalFs.append_empty stream hfile' hempty
  have hcompressed : compressBeforeSending env fs₂ source scratch dict replies = .done ⟨scratch,
      (fs₂.append scratch stream).seek scratch 0, dict.updateValue "compression".toList "zlib".toList,
      (((fs₂.append scratch stream).fdContent scratch).getD []).length⟩ := by
    simp only [compressBeforeSending, hstreams.source, hzip, Exec.done_bind, hsmooth.fflush, flushed,
      hsmooth.fileno, hsmooth.fstatScratch, hsmooth.lseekScratch, hsmooth.update, ne_eq, not_true_eq_false,
      Bool.true_eq_false, or_self, if_false, if_true]
    rfl
  have hunread : ((fs₂.append scratch stream).seek scratch 0).unread scratch = stream := by
    rw [hwritten]
    simp [LocalFs.unread, LocalFs.seek, LocalFs.setContent, hfile']
  have hpack : pack env fs name ⟨fd, size, dict⟩ replies = .done ⟨(fs₂.append scratch stream).seek scratch 0,
      some ⟨scratch, (((fs₂.append scratch stream).fdContent scratch).getD []).length,
        dict.updateValue "compression".toList "zlib".toList⟩, [source, scratch], some (scratchName name)⟩ := by
    rw [pack, if_neg (by simp [huses])]
    simp only [hopen₁, hopen₂, hcompressed, Exec.done_bind, hpos, if_true]
    rfl
  exact ⟨_, scratch, _, hpack, rfl, hunread⟩

/-- The choice of what to send, all calls succeeding. -/
theorem pack_done (size : ℕ) (hsmooth : replies.Smooth fs) (hfile : fs.files fd = some file)
    (hoffset : file.offset = 0) (hname : fs.names (collapse name) = some file.ino)
    (hcontent : (fs.inodes file.ino).content = content)
    (hdistinct : collapse (scratchName name) ≠ collapse name) (hzlib : Zlib.Serves env content)
    (hsize : dict "size".toList = some (decimal content.length))
    (hlabel : dict "compression".toList = none) :
    ∃ packed outgoing, pack env fs name ⟨fd, size, dict⟩ replies = .done packed ∧
      packed.outgoing = some outgoing ∧
        Payload env replies.zip content outgoing.dict (packed.fs.unread outgoing.fd) := by
  cases hcompresses : env.compresses with
  | false =>
    obtain ⟨packed, hpack, houtgoing, hunread⟩ : ∃ packed, pack env fs name ⟨fd, size, dict⟩ replies = .done packed ∧
        packed.outgoing = some ⟨fd, size, dict⟩ ∧ packed.fs.unread fd = content := by
      cases huses : env.conf.usesZlib with
      | false => exact pack_plain hfile hoffset hcontent huses
      | true =>
        refine pack_refused hsmooth hfile hoffset hname hcontent hdistinct huses fun hinit => ?_
        rw [Env.compresses_eq.mpr ⟨huses, hinit⟩] at hcompresses
        cases hcompresses
    exact ⟨packed, _, hpack, houtgoing, hsize, fun _ => ⟨hlabel, hunread⟩, fun htrue => by
      rw [hcompresses] at htrue
      cases htrue⟩
  | true =>
    obtain ⟨huses, hinit⟩ := Env.compresses_eq.mp hcompresses
    obtain ⟨stream, hzip, hunzip⟩ := zip_unzip env.zlib env.conf.zlibLevel content replies.zip (hzlib hcompresses)
      hinit hsmooth.readFails hsmooth.writeFails
    obtain ⟨packed, scratch, sent, hpack, houtgoing, hunread⟩ : ∃ packed scratch sent,
        pack env fs name ⟨fd, size, dict⟩ replies = .done packed ∧
        packed.outgoing = some ⟨scratch, sent, dict.updateValue "compression".toList "zlib".toList⟩ ∧
        packed.fs.unread scratch = stream := pack_compressed hsmooth hname hcontent hdistinct huses hzip
    have hne : "size".toList ≠ "compression".toList := by decide
    have hsize' := (dict.updateValue_of_ne hne "zlib".toList).trans hsize
    have hlabel' := dict.updateValue_self "compression".toList "zlib".toList
    refine ⟨packed, _, hpack, houtgoing, hsize', fun hplain => ?_, fun _ => ?_⟩
    · rw [hcompresses] at hplain
      cases hplain
    · rw [hunread]
      exact ⟨hlabel', hzip, hunzip⟩

end Pack

/-- Sending, all calls succeeding. -/
theorem push_done {w : World} {path : CStr} {outgoing : Outgoing} {replies : ReleaseReplies}
    (hsmooth : replies.Smooth fs) : (push env w path outgoing replies).1 = true := by
  have hret := readWriteAllVfile_ret replies.read replies.write (w.fs.unread outgoing.fd) hsmooth.read
    hsmooth.write
  unfold push
  simp only [hsmooth.openwrite, ne_eq, not_true_eq_false, if_false, hsmooth.close, and_true, decide_eq_true_eq]
  change (readWriteAllVfile replies.read replies.write (w.fs.unread outgoing.fd)).ret ≠ -1
  omega

/-- The cache file of an entry: its descriptor is at the start of the file its name leads to. -/
structure World.Cached (env : Env) (w : World) (addr : ℕ) (path : CStr) (pe : Pentry) (file : OpenFile)
    (content : Bytes) : Prop where
  holds : w.Holds addr pe file content
  name : w.fs.names (collapse (cacheName env.conf path)) = some file.ino

/-- A release of a handle open for writing, all calls succeeding, stores the content of the cache file. -/
theorem dfsRelease_done {w : World} {addr : ℕ} {path : CStr} {pe : Pentry} {file : OpenFile}
    {content : Bytes} {flags : BitVec 32} {replies : ReleaseReplies} (h : w.Cached env addr path pe file content)
    (hplaced : Placed env.conf path) (hsmooth : replies.Smooth w.fs) (hzlib : Zlib.Serves env content)
    (hlength : content.length ≤ LocalFs.offMax) (hcount : 0 < pe.refcount) (hexclude : pe.exclude = false)
    (hflags : isRdonly flags = false) :
    ∃ w', dfsRelease env w addr path flags replies = .done ⟨0, w'⟩ ∧ ∃ dict payload,
      Payload env replies.zip content dict payload ∧
      w'.remote.lookup path = some (storedObject env dict payload replies) := by
  have hfd := h.holds.fd
  obtain ⟨times, htimes⟩ := Option.isSome_iff_exists.mp hsmooth.fstat
  obtain ⟨st, hstat, hsize⟩ : ∃ st, w.fs.fstat pe.fd replies.fstat = some st ∧ st.size = content.length := by
    have hneg : ¬ pe.fd < 0 := by omega
    have hle : (w.fs.inodes file.ino).content.length ≤ LocalFs.offMax := by rw [h.holds.content]; exact hlength
    simp only [LocalFs.fstat, hneg, if_false, h.holds.isOpen, htimes, hle, if_true]
    exact ⟨_, rfl, by simp only [h.holds.content]⟩
  have hsizeKey : fillMetadataFromStat Dict.new st "size".toList = some (decimal content.length) := by
    have hmod : unsignedLong (content.length : ℤ) = content.length := by
      have : (content.length : ℤ) % 2 ^ 64 = content.length := by
        apply Int.emod_eq_of_lt <;> simp only [LocalFs.offMax] at hlength <;> omega
      rw [unsignedLong, this, Int.toNat_natCast]
    rw [fillMetadataFromStat_size, hsize, hmod]
  have hlabel : fillMetadataFromStat Dict.new st "compression".toList = none :=
    fillMetadataFromStat_other _ _ _ (by decide)
  obtain ⟨packed, outgoing, hpack, houtgoing, hpayload⟩ := pack_done st.size.toNat hsmooth h.holds.isOpen h.holds.offset
    h.name h.holds.content hplaced.scratch_ne hzlib hsizeKey hlabel
  have hpushed : (pushPacked env w path packed replies).1 = true := by
    unfold pushPacked
    rw [houtgoing]
    exact push_done hsmooth
  have hremote : (pushPacked env w path packed replies).2.remote = w.remote.insert path
      (storedObject env outgoing.dict (packed.fs.unread outgoing.fd) replies) := by
    unfold pushPacked at hpushed ⊢
    rw [houtgoing] at hpushed ⊢
    exact push_success hpushed
  have hupload : ∃ w₁, upload env w path pe.fd.toNat st replies = .done (true, w₁) ∧
      w₁.remote = (pushPacked env w path packed replies).2.remote := by
    unfold upload
    rw [if_neg (by simp [hsmooth.newDict])]
    simp only [hpack, Exec.done_bind, hpushed]
    exact ⟨_, rfl, rfl⟩
  obtain ⟨w₁, hupload, hw₁⟩ := hupload
  have hwait : pe.decRefcount replies.semWait = .done { pe with refcount := pe.refcount - 1 } := by
    rw [Pentry.decRefcount, if_pos hsmooth.semWait, if_neg (by omega)]
  refine ⟨w₁.put addr ({ pe with refcount := pe.refcount - 1 }.markClean replies.unlock), ?_, outgoing.dict, _,
    hpayload, ?_⟩
  · unfold dfsRelease
    rw [h.holds.heap]
    simp only
    rw [if_neg (by omega)]
    simp only [hstat, releaseCounted, hwait, Exec.done_bind, hflags, Bool.false_eq_true, if_false, hexclude,
      hupload, if_true]
    rfl
  · rw [World.put_remote, hw₁, hremote]
    exact AList.lookup_insert _

end Release

end Dropletfs
