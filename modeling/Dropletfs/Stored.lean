import Dropletfs.Progress

/-!
# What the store keeps of a cache file

An object keeps a content when it decodes to it or when a download gives it. A release whose
transfer succeeds stores such an object, also when compression failed on the way and the
file was sent as it is.
-/

namespace Dropletfs

/-- zlib as a configuration that compresses relies on it. -/
def Zlib.Reliable (env : Env) : Prop :=
  env.conf.usesZlib = true → env.zlib.deflateInit env.conf.zlibLevel = .ok →
    ∀ content, env.zlib.Undoes env.conf.zlibLevel content

/-- Whatever the reads and writes reply, a stream that was made with `Z_OK` decompresses to the content. -/
theorem zip_ok_unzip {env : Env} {content stream : Bytes} {io : ZipIo} (hzlib : Zlib.Reliable env)
    (huses : env.conf.usesZlib = true)
    (h : zip env.zlib env.conf.zlibLevel content io = .done (.ok, stream)) :
    unzip env.zlib stream .clean = .done (.ok, content) := by
  have hinit : env.zlib.deflateInit env.conf.zlibLevel = .ok := zip_ok_init h
  have hundoes := hzlib huses hinit content
  exact unzip_inflates (zip_ok_inflates hundoes h) hundoes.inflateInit (fun _ => rfl) fun _ => rfl

/-- The object gives a content: decoded, or as a download all of whose calls succeed leaves it. -/
def Obj.Gives (env : Env) (obj : Obj) (content : Bytes) : Prop :=
  obj.decoded env = some content ∨ obj.fetched env .granted = some content

/-- The store keeps a content under a path. -/
def Remote.Keeps (env : Env) (r : Remote) (path : CStr) (content : Bytes) : Prop :=
  ∃ obj, r.lookup path = some obj ∧ obj.Gives env content

/-- Bytes with metadata stand for a content: they are the content, without a label, or decompress to it and are
labelled so. -/
inductive Stands (env : Env) (content : Bytes) : Dict → Bytes → Prop
  | plain {dict : Dict} : dict "compression".toList = none → Stands env content dict content
  | zlib {dict : Dict} {stream : Bytes} : dict "compression".toList = some "zlib".toList →
      unzip env.zlib stream .clean = .done (.ok, content) → Stands env content dict stream

/-- What stands for a content is fetched as the content. -/
theorem Stands.fetched {env : Env} {content : Bytes} {obj : Obj} {dict : Dict} {bytes : Bytes}
    (h : Stands env content dict bytes) (hlabel : obj.label = dict "compression".toList)
    (hcontent : obj.content = bytes) : obj.fetched env .granted = some content := by
  unfold Obj.fetched
  cases h with
  | plain hnone => rw [hlabel, hnone, hcontent]
  | zlib hzlib hunzip =>
    have hnone : strncmpEq "none".toList "zlib".toList = false := by decide
    have hmatch : strncmpEq "zlib".toList "zlib".toList = true := by decide
    rw [hlabel, hzlib, hcontent]
    simp only [hnone, hmatch, UnpackReplies.granted, hunzip, flushed, Bool.false_eq_true, Bool.true_eq_false,
      if_false, if_true]

/-- An object that was stored carries the label of its metadata. -/
theorem storedObject_label (env : Env) (dict : Dict) (bytes : Bytes) (replies : ReleaseReplies) :
    (storedObject env dict bytes replies).label = dict "compression".toList := by
  unfold storedObject
  split
  · simp only [Obj.label, Option.getD_some, Dict.updateValue]
    rw [Function.update_of_ne (by decide), Function.update_of_ne (by decide)]
  · rfl

/-- An object that was stored is deciphered as the bytes that were sent. -/
theorem storedObject_deciphered (env : Env) (dict : Dict) (bytes : Bytes) (replies : ReleaseReplies) :
    (storedObject env dict bytes replies).deciphered env = bytes := by
  cases haes : env.conf.usesAes with
  | false => simp [storedObject, haes, Obj.deciphered]
  | true =>
    have hencrypted : (((dict.updateValue "cipher".toList "yes".toList).updateValue "cipher-type".toList
        "aes-256-cfb".toList)).encrypted = true := by
      have hcipher : "cipher".toList ≠ "cipher-type".toList := by decide
      simp only [Dict.encrypted, Dict.updateValue, Function.update_of_ne hcipher, Function.update_self]
      decide
    simp only [storedObject, haes, if_true, Obj.deciphered, Option.getD_some, hencrypted, Bool.and_self,
      env.cipher.decrypt_encrypt]

/-- A transfer of bytes that stand for a content stores an object that decodes to it. -/
theorem Stands.decoded {env : Env} {content : Bytes} {dict : Dict} {bytes : Bytes} (replies : ReleaseReplies)
    (h : Stands env content dict bytes) :
    (storedObject env dict bytes replies).decoded env = some content :=
  h.fetched (storedObject_label env dict bytes replies) (storedObject_deciphered env dict bytes replies)

/-- The calls of a release on which its upload depends succeed; with compression, the cache file can be opened
again, and a stream that is sent is complete, read from its start, and not on descriptor zero. -/
structure ReleaseReplies.Sends (env : Env) (fs : LocalFs) (name : CStr) (replies : ReleaseReplies) : Prop where
  openwrite : replies.openwrite = .success
  read : ∀ i, (replies.read i).isSome = true
  write : ∀ i, replies.write i = .success
  close : replies.close.status = .success
  source : env.conf.usesZlib = true → (fs.openFile env.proc name readOnly 0o666 replies.fopenSource).isSome = true
  flushed : env.conf.usesZlib = true → replies.fflush = none
  rewound : env.conf.usesZlib = true → replies.lseekScratch = true
  scratch : env.conf.usesZlib = true → replies.fopenScratch ≠ some 0

section Release

variable {env : Env} {fs : LocalFs} {name : CStr}

/-- A rewound descriptor of a name that is left alone reads what it read. -/
theorem LocalFs.Frame.unread {N : CStr → Prop} {fs' : LocalFs} {fd : ℕ} {file : OpenFile} (h : fs.Frame N fs')
    (hfile : fs.files fd = some file) (hname : fs.names (collapse name) = some file.ino)
    (hN : ¬ N (collapse name)) : fs'.unread fd = fs.unread fd := by
  have hother : ∀ other, N other → fs.names other ≠ some file.ino := by
    intro other hother hsame
    exact hN (fs.names_inj _ _ _ hsame hname ▸ hother)
  simp only [LocalFs.unread, hfile, h.files fd file hfile, h.inodes _ (fs.names_lt _ _ hname) hother]

/-- A stream that is sent is complete. -/
theorem compressBeforeSending_stands {content : Bytes} {source scratch : ℕ} {dict : Dict}
    {replies : ReleaseReplies} {z : Compressed} (hstreams : Streams fs name content source scratch)
    (hzlib : Zlib.Reliable env) (huses : env.conf.usesZlib = true) (hflushed : replies.fflush = none)
    (hrewound : replies.lseekScratch = true)
    (h : compressBeforeSending env fs source scratch dict replies = .done z) :
    z.fd = 0 ∧ z.dict = dict ∨ z.fd = scratch ∧ Stands env content z.dict (z.fs.unread scratch) := by
  obtain ⟨⟨zret, out⟩, hzip, h⟩ := Exec.bind_eq_done.mp h
  simp only [pure] at h
  split at h
  · obtain rfl := Exec.done.inj h
    exact .inl ⟨rfl, rfl⟩
  · rename_i hok
    split at h
    · obtain rfl := Exec.done.inj h
      exact .inl ⟨rfl, rfl⟩
    · obtain rfl := Exec.done.inj h
      obtain ⟨ino, write, hfile, -, hempty⟩ := hstreams.scratch
      have hwritten := LocalFs.append_empty out hfile hempty
      have hunread : ((fs.append scratch out).seek scratch 0).unread scratch = out := by
        rw [hwritten]
        simp [LocalFs.unread, LocalFs.seek, LocalFs.setContent, hfile]
      obtain rfl : zret = .ok := by
        by_contra hne
        exact hok (.inl hne)
      rw [hstreams.source] at hzip
      refine .inr ⟨rfl, ?_⟩
      simp only [hflushed, Dropletfs.flushed, hunread]
      exact .zlib (Function.update_self ..) (zip_ok_unzip hzlib huses hzip)

/-- What is chosen to be sent stands for the content of the cache file. -/
theorem pack_stands {content : Bytes} {fd size : ℕ} {file : OpenFile} {dict : Dict} {replies : ReleaseReplies}
    {packed : Packed} (hsends : replies.Sends env fs name) (hzlib : Zlib.Reliable env)
    (hfile : fs.files fd = some file) (hoffset : file.offset = 0)
    (hname : fs.names (collapse name) = some file.ino) (hcontent : (fs.inodes file.ino).content = content)
    (hdistinct : collapse (scratchName name) ≠ collapse name) (hlabel : dict "compression".toList = none)
    (h : pack env fs name ⟨fd, size, dict⟩ replies = .done packed) :
    ∃ outgoing, packed.outgoing = some outgoing ∧
      Stands env content outgoing.dict (packed.fs.unread outgoing.fd) := by
  have hunread : packed.fs.unread fd = content := by
    rw [(pack_frame h).1.unread hfile hname fun heq => hdistinct heq.symm]
    simp only [LocalFs.unread, hfile, hoffset, List.drop_zero, hcontent]
  have hplain : ∀ size, Stands env content (Outgoing.mk fd size dict).dict (packed.fs.unread fd) := by
    intro size
    rw [hunread]
    exact .plain hlabel
  unfold pack at h
  split at h
  · obtain rfl := Exec.done.inj h
    exact ⟨_, rfl, hplain size⟩
  · rename_i huses
    simp only [Bool.not_eq_false] at huses
    simp only at h
    split at h
    · rename_i hnone
      have hsource := hsends.source huses
      rw [hnone] at hsource
      cases hsource
    · rename_i source fs₁ hsource
      have hcached := LocalFs.contentAt_eq_some.mpr ⟨file.ino, hname, hcontent⟩
      obtain ⟨ino, -, hname', hcontent', rfl⟩ := LocalFs.openFile_contentAt rfl rfl hcached hsource
      split at h
      · obtain rfl := Exec.done.inj h
        exact ⟨_, rfl, hplain size⟩
      · rename_i scratch fs₂ hscratch
        have hstreams := (openScratch_streams hname' hcontent' hscratch).resolve_right fun h => hdistinct h.1
        obtain ⟨z, hz, h⟩ := Exec.bind_eq_done.mp h
        simp only [pure] at h
        have hcompressed := compressBeforeSending_stands hstreams hzlib huses (hsends.flushed huses)
          (hsends.rewound huses) hz
        split at h
        · rename_i hpos
          obtain rfl := Exec.done.inj h
          rcases hcompressed with ⟨hzero, -⟩ | ⟨hfd, hstands⟩
          · omega
          · refine ⟨_, rfl, ?_⟩
            simp only [hfd]
            exact hstands
        · rename_i hzero
          obtain rfl := Exec.done.inj h
          rcases hcompressed with ⟨-, hdict⟩ | ⟨hfd, -⟩
          · refine ⟨_, rfl, ?_⟩
            simp only [hdict]
            exact hplain size
          · -- the scratch file would be on descriptor zero
            have hreply := (LocalFs.openFile_outcome hscratch).1
            exact absurd (by rw [hreply]; congr 1; omega) (hsends.scratch huses)

/-- Sending succeeds when its calls do. -/
theorem push_sends {w : World} {path : CStr} {outgoing : Outgoing} {replies : ReleaseReplies}
    (hsends : replies.Sends env fs name) : (push env w path outgoing replies).1 = true := by
  have hret := readWriteAllVfile_ret replies.read replies.write (w.fs.unread outgoing.fd) hsends.read hsends.write
  unfold push
  simp only [hsends.openwrite, ne_eq, not_true_eq_false, if_false, hsends.close, and_true, decide_eq_true_eq]
  change (readWriteAllVfile replies.read replies.write (w.fs.unread outgoing.fd)).ret ≠ -1
  omega

/-- An upload whose calls succeed succeeds, and the store then keeps the content of the cache file. -/
theorem upload_keeps {w w' : World} {path : CStr} {addr : ℕ} {pe : Pentry} {file : OpenFile} {content : Bytes}
    {st : Stat} {replies : ReleaseReplies} {ok : Bool} (hcached : w.Cached env addr path pe file content)
    (hplaced : Placed env.conf path) (hsends : replies.Sends env w.fs (cacheName env.conf path))
    (hzlib : Zlib.Reliable env) (h : upload env w path pe.fd.toNat st replies = .done (ok, w')) :
    ok = true ∧ w'.remote.Keeps env path content := by
  obtain ⟨packed, hpack, rfl, rfl⟩ := upload_eq_done h
  have hlabel : fillMetadataFromStat Dict.new st "compression".toList = none :=
    fillMetadataFromStat_other _ _ _ (by decide)
  obtain ⟨outgoing, houtgoing, hstands⟩ := pack_stands hsends hzlib hcached.holds.isOpen hcached.holds.offset
    hcached.name hcached.holds.content hplaced.scratch_ne hlabel hpack
  have hpushed : (pushPacked env w path packed replies).1 = true := by
    unfold pushPacked
    rw [houtgoing]
    exact push_sends hsends
  refine ⟨hpushed, ?_⟩
  have hremote : (pushPacked env w path packed replies).2.remote = w.remote.insert path
      (storedObject env outgoing.dict (packed.fs.unread outgoing.fd) replies) := by
    unfold pushPacked at hpushed ⊢
    rw [houtgoing] at hpushed ⊢
    exact push_success hpushed
  refine ⟨storedObject env outgoing.dict (packed.fs.unread outgoing.fd) replies, ?_, .inl (hstands.decoded replies)⟩
  simp only [hremote]
  exact AList.lookup_insert _

end Release

end Dropletfs
