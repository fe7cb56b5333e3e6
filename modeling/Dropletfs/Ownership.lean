import Dropletfs.Labels

/-!
# Permissions and owners of the cache files

A download creates the cache file for the process alone, and a decompression puts its scratch file in the
place of it. Writing does not change the owner of a file, so that an upload, which takes the metadata from
the cache file, records the mode and the owner that the download gave it.
-/

namespace Dropletfs

open Overlay (Write)

/-- Permission bits and owner of a file. -/
structure Owner where
  mode : BitVec 32
  uid : BitVec 32
  gid : BitVec 32
  deriving DecidableEq, Repr

/-- The owner that an inode records. -/
def Inode.owner (inode : Inode) : Owner := ⟨inode.mode, inode.uid, inode.gid⟩

/-- The owner of a file that the process creates. -/
def Process.creates (proc : Process) (mode : BitVec 32) : Owner := ⟨mode &&& ~~~proc.umask, proc.uid, proc.gid⟩

namespace LocalFs

/-- The owner of the file a name resolves to. -/
def ownerAt (fs : LocalFs) (name : CStr) : Option Owner :=
  (fs.resolve name).map fun ino => (fs.inodes ino).owner

/-- A new content keeps the owner of each inode. -/
@[simp] theorem setContent_owner (fs : LocalFs) (ino other : ℕ) (bytes : Bytes) :
    ((fs.setContent ino bytes).inodes other).owner = (fs.inodes other).owner := by
  simp only [setContent, Function.update_apply]
  split
  · rename_i heq
    rw [heq]
    rfl
  · rfl

/-- A new content keeps the owner of each file. -/
@[simp] theorem ownerAt_setContent (fs : LocalFs) (ino : ℕ) (bytes : Bytes) (name : CStr) :
    (fs.setContent ino bytes).ownerAt name = fs.ownerAt name := by
  have hinodes : (fun other => ((fs.setContent ino bytes).inodes other).owner) = fun other => (fs.inodes other).owner :=
    funext fun other => setContent_owner fs ino other bytes
  exact congrArg ((fs.resolve name).map ·) hinodes

/-- Owners do not depend on the descriptors. -/
@[simp] theorem ownerAt_bind (fs : LocalFs) (fd ino : ℕ) (write : Bool) (name : CStr) :
    (fs.bind fd ino write).ownerAt name = fs.ownerAt name := rfl

/-- Closing a descriptor keeps the owners. -/
@[simp] theorem ownerAt_close (fs : LocalFs) (fd : ℕ) (name : CStr) :
    (fs.close fd).ownerAt name = fs.ownerAt name := rfl

/-- Moving the offset of a descriptor keeps the owners. -/
@[simp] theorem ownerAt_seek (fs : LocalFs) (fd offset : ℕ) (name : CStr) :
    (fs.seek fd offset).ownerAt name = fs.ownerAt name := rfl

/-- Writing at the offset of a descriptor keeps the owners. -/
@[simp] theorem ownerAt_append (fs : LocalFs) (fd : ℕ) (data : Bytes) (name : CStr) :
    (fs.append fd data).ownerAt name = fs.ownerAt name := by
  unfold append
  split
  · rfl
  · rw [ownerAt_seek, ownerAt_setContent]

/-- A name that was removed has no owner. -/
theorem ownerAt_forget_self (fs : LocalFs) (name : CStr) : (fs.forget name).ownerAt name = none := by
  simp [ownerAt, resolve, forget]

/-- Removing a name keeps the owners of the others. -/
theorem ownerAt_forget_ne (fs : LocalFs) {name other : CStr} (h : collapse other ≠ collapse name) :
    (fs.forget name).ownerAt other = fs.ownerAt other := by
  simp [ownerAt, resolve, forget, Function.update_of_ne h]

/-- A new file belongs to the process. -/
theorem ownerAt_create_self (fs : LocalFs) (proc : Process) (name : CStr) (mode : BitVec 32) :
    (fs.create proc name mode).ownerAt name = some (proc.creates mode) := by
  simp [ownerAt, resolve, create, Inode.owner, Process.creates]

/-- A new file keeps the owners of the others. -/
theorem ownerAt_create_ne (fs : LocalFs) (proc : Process) {name other : CStr} (mode : BitVec 32)
    (h : collapse other ≠ collapse name) : (fs.create proc name mode).ownerAt other = fs.ownerAt other := by
  simp only [ownerAt, resolve, create, Function.update_of_ne h]
  cases hother : fs.names (collapse other) with
  | none => rfl
  | some ino =>
    have hold : ino ≠ fs.nextIno := Nat.ne_of_lt (fs.names_lt _ _ hother)
    simp only [Option.map_some, Function.update_of_ne hold]

/-- An open keeps the owner of a file that exists, and creates one that does not for the process. -/
theorem ownerAt_openFile_self {fs fs' : LocalFs} {proc : Process} {name : CStr} {flags : OpenFlags}
    {mode : BitVec 32} {reply : Option ℕ} {fd : ℕ}
    (h : fs.openFile proc name flags mode reply = some (fd, fs')) :
    fs'.ownerAt name = some ((fs.ownerAt name).getD (proc.creates mode)) := by
  cases (openFile_outcome h).2 with
  | @existing ino _ hname =>
    have hbefore : fs.ownerAt name = some (fs.inodes ino).owner := by
      rw [ownerAt, resolve, hname, Option.map_some]
    split
    · simp only [ownerAt_bind, ownerAt_setContent, hbefore, Option.getD_some]
    · simp only [ownerAt_bind, hbefore, Option.getD_some]
  | created _ hname _ =>
    have hbefore : fs.ownerAt name = none := by
      rw [ownerAt, resolve, hname, Option.map_none]
    rw [ownerAt_bind, ownerAt_create_self, hbefore, Option.getD_none]

/-- An open keeps the owners of the other files. -/
theorem ownerAt_openFile_ne {fs fs' : LocalFs} {proc : Process} {name other : CStr} {flags : OpenFlags}
    {mode : BitVec 32} {reply : Option ℕ} {fd : ℕ} (hne : collapse other ≠ collapse name)
    (h : fs.openFile proc name flags mode reply = some (fd, fs')) : fs'.ownerAt other = fs.ownerAt other := by
  cases (openFile_outcome h).2 with
  | existing =>
    split
    · rw [ownerAt_bind, ownerAt_setContent]
    · rw [ownerAt_bind]
  | created => rw [ownerAt_bind, ownerAt_create_ne fs proc mode hne]

/-- A file takes its owner along when it is moved. -/
theorem ownerAt_rename {fs : LocalFs} {old new : CStr} {owner : Owner} (h : fs.ownerAt old = some owner) :
    (fs.rename old new).ownerAt new = some owner := by
  obtain ⟨ino, hino, howner⟩ := Option.map_eq_some_iff.mp h
  unfold rename
  split
  · rename_i hnone
    rw [resolve, hnone] at hino
    cases hino
  · rename_i ino' hino'
    obtain rfl : ino' = ino := Option.some.inj (hino'.symm.trans hino)
    simpa [ownerAt, resolve, move] using howner

end LocalFs

/-- The owner of the cache file that a download of an object leaves: that of the scratch file, if what it
decompresses to replaces the file that was downloaded. -/
def Obj.downloadedOwner (env : Env) (fs : LocalFs) (path : CStr) (obj : Obj) : Owner :=
  if obj.compressed then (fs.ownerAt (scratchName (copyName env.conf path))).getD (env.proc.creates 0o666)
  else env.proc.creates 0o600

section Download

variable {env : Env} {fs fs' : LocalFs} {name : CStr}

/-- Flushing and closing the streams keeps the owners. -/
@[simp] theorem closeStreams_ownerAt (source scratch : ℕ) (out : Bytes) (fclose : Option ℕ) :
    (closeStreams fs source scratch out fclose).ownerAt name = fs.ownerAt name := by
  unfold closeStreams
  rw [LocalFs.ownerAt_close, LocalFs.ownerAt_close, LocalFs.ownerAt_append]

/-- The scratch file takes the place of the cache file with its owner. -/
theorem unpackInto_owner {fd source scratch : ℕ} {replies : UnpackReplies} {unpacked : Unpacked} {owner : Owner}
    (hscratch : fs.ownerAt (scratchName name) = some owner) (hrename : replies.rename = true)
    (hdone : unpackInto env fs name fd source scratch replies = .done unpacked) (hret : unpacked.ret ≠ -1) :
    unpacked.fs.ownerAt name = some owner := by
  obtain ⟨⟨zret, out⟩, -, hdone⟩ := Exec.bind_eq_done.mp hdone
  simp only [pure, hrename, Bool.true_eq_false, if_false] at hdone
  split at hdone
  · obtain rfl := Exec.done.inj hdone
    exact absurd rfl hret
  · split at hdone
    · obtain rfl := Exec.done.inj hdone
      exact absurd rfl hret
    · have hmoved : ((fs.rename (scratchName name) name).close fd).ownerAt name = some owner :=
        LocalFs.ownerAt_rename hscratch
      split at hdone
      · obtain rfl := Exec.done.inj hdone
        exact absurd rfl hret
      · rename_i hopen
        obtain rfl := Exec.done.inj hdone
        rw [closeStreams_ownerAt, LocalFs.ownerAt_openFile_self hopen, hmoved, Option.getD_some]

/-- A decompression that goes on leaves a file that is not labelled alone, and opens two streams otherwise. -/
theorem handleCompression_streams {obj : Obj} {fd : ℕ} {replies : UnpackReplies} {unpacked : Unpacked}
    (hcached : fs.contentAt name = some obj.content)
    (hdone : handleCompression env fs name fd (obj.metadata.getD Dict.new) replies = .done unpacked)
    (hret : unpacked.ret ≠ -1) :
    (obj.compressed = false ∧ unpacked.fs = fs) ∨
      (obj.compressed = true ∧ ∃ ino source scratch fs₁, fs.names (collapse name) = some ino ∧
        (fs.inodes ino).content = obj.content ∧
        (fs.bind source ino false).openFile env.proc (scratchName name) createTruncated 0o666 replies.fopenScratch =
          some (scratch, fs₁) ∧
        unpackInto env fs₁ name fd source scratch replies = .done unpacked) := by
  unfold handleCompression at hdone
  cases hlabel : obj.metadata.getD Dict.new "compression".toList with
  | none =>
    have hnone : obj.label = none := hlabel
    simp only [hlabel] at hdone
    obtain rfl := Exec.done.inj hdone
    exact .inl ⟨by rw [Obj.compressed, hnone], rfl⟩
  | some label =>
    have hsome : obj.label = some label := hlabel
    simp only [hlabel] at hdone
    cases hnone : strncmpEq "none".toList label with
    | true =>
      rw [if_pos hnone] at hdone
      obtain rfl := Exec.done.inj hdone
      exact .inl ⟨by simp only [Obj.compressed, hsome, hnone, Bool.not_true, Bool.false_and], rfl⟩
    | false =>
      simp only [hnone, Bool.false_eq_true, if_false] at hdone
      cases hzlib : strncmpEq "zlib".toList label with
      | false =>
        rw [if_pos hzlib] at hdone
        obtain rfl := Exec.done.inj hdone
        exact absurd rfl hret
      | true =>
        simp only [hzlib, Bool.true_eq_false, if_false] at hdone
        split at hdone
        · obtain rfl := Exec.done.inj hdone
          exact absurd rfl hret
        · rename_i source fs₁ hsource
          obtain ⟨ino, -, hname, hcontent, rfl⟩ := LocalFs.openFile_contentAt rfl rfl hcached hsource
          split at hdone
          · obtain rfl := Exec.done.inj hdone
            exact absurd rfl hret
          · rename_i scratch fs₂ hscratch
            exact .inr ⟨by simp only [Obj.compressed, hsome, hnone, hzlib, Bool.not_false, Bool.true_and],
              ino, source, scratch, fs₂, hname, hcontent, hscratch, hdone⟩

/-- A decompression that goes on leaves a file that was not compressed with its owner; otherwise it had a scratch
file of its own, and puts that in the place of the file. -/
theorem handleCompression_owner {obj : Obj} {fd : ℕ} {replies : UnpackReplies} {unpacked : Unpacked}
    (hcached : fs.contentAt name = some obj.content) (hrename : replies.rename = true)
    (hdone : handleCompression env fs name fd (obj.metadata.getD Dict.new) replies = .done unpacked)
    (hret : unpacked.ret ≠ -1) :
    if obj.compressed then collapse (scratchName name) ≠ collapse name ∧
      unpacked.fs.ownerAt name = some ((fs.ownerAt (scratchName name)).getD (env.proc.creates 0o666))
    else unpacked.fs.ownerAt name = fs.ownerAt name := by
  rcases handleCompression_streams hcached hdone hret with
    ⟨hplain, hfs⟩ | ⟨hcompressed, ino, source, scratch, fs₁, hname, hcontent, hscratch, hunpack⟩
  · rw [hplain, if_neg Bool.false_ne_true, hfs]
  · rw [if_pos hcompressed]
    have hopened := LocalFs.ownerAt_openFile_self hscratch
    rw [LocalFs.ownerAt_bind] at hopened
    refine ⟨?_, unpackInto_owner hopened hrename hunpack hret⟩
    rcases openScratch_streams hname hcontent hscratch with hstreams | ⟨-, hempty⟩
    · exact hstreams.distinct
    · -- a scratch file of the same name empties the file, which then cannot be decompressed
      obtain ⟨⟨zret, out⟩, hunzip, hdone⟩ := Exec.bind_eq_done.mp hunpack
      rw [hempty] at hunzip
      have hzret : zret ≠ .ok := fun hok => unzip_nil _ _ _ (hok ▸ hunzip)
      simp only [pure] at hdone
      rw [if_pos hzret] at hdone
      obtain rfl := Exec.done.inj hdone
      exact absurd rfl hret

/-- Opening the result of a download keeps its owner. -/
theorem openCopy_owner {flags : OpenFlags} {pe pe' : Pentry} {replies : CopyReplies} {unpacked : Unpacked}
    {fd : ℤ} {owner : Owner} (hat : unpacked.ret ≠ -1 → unpacked.fs.ownerAt name = some owner)
    (hdone : openCopy env name flags pe replies unpacked = (fd, fs', pe')) (hfd : fd ≠ -1) :
    fs'.ownerAt name = some owner := by
  unfold openCopy at hdone
  split at hdone
  · simp only [Prod.mk.injEq] at hdone
    exact absurd hdone.1.symm hfd
  · rename_i hret
    split at hdone
    · simp only [Prod.mk.injEq] at hdone
      exact absurd hdone.1.symm hfd
    · simp only at hdone
      split at hdone
      · simp only [Prod.mk.injEq] at hdone
        exact absurd hdone.1.symm hfd
      · split at hdone
        · simp only [Prod.mk.injEq] at hdone
          exact absurd hdone.1.symm hfd
        · rename_i hopen
          simp only [Prod.mk.injEq] at hdone
          rw [← hdone.2.1, LocalFs.ownerAt_openFile_self hopen, LocalFs.ownerAt_close, hat hret, Option.getD_some]

/-- A download creates the cache file anew. -/
theorem fetchCopy_owner {r : Remote} {pe pe' : Pentry} {path : CStr} {flags : OpenFlags} {metadata : Dict}
    {replies : CopyReplies} {fd : ℤ} {obj : Obj} (hlookup : r.lookup path = some obj) (haccess : replies.access = true)
    (hunlink : replies.unlink = true) (hrename : replies.unpack.rename = true)
    (h : fetchCopy env fs r pe path flags metadata replies = .done (fd, fs', pe')) (hfd : fd ≠ -1) :
    fs'.ownerAt (copyName env.conf path) = some (obj.downloadedOwner env fs path) := by
  unfold fetchCopy at h
  simp only [haccess, hunlink, Bool.true_and] at h
  generalize hremoved : (if (fs.resolve (copyName env.conf path)).isSome = true then
    fs.unlink (copyName env.conf path) true else fs) = fs₁ at h
  have habsent : fs₁.ownerAt (copyName env.conf path) = none := by
    rw [← hremoved]
    split
    · exact LocalFs.ownerAt_forget_self ..
    · rename_i hnone
      rw [LocalFs.ownerAt, Option.not_isSome_iff_eq_none.mp hnone, Option.map_none]
  have hothers : ∀ other, collapse other ≠ collapse (copyName env.conf path) →
      fs₁.ownerAt other = fs.ownerAt other := by
    intro other hne
    rw [← hremoved]
    split
    · exact LocalFs.ownerAt_forget_ne fs hne
    · rfl
  split at h
  · simp only [Exec.done.injEq, Prod.mk.injEq] at h
    exact absurd h.1.symm hfd
  · rename_i download fs₂ hcreate
    rw [checkEncryptionFlag_eq_false] at h
    cases hread : dplOpenread env.cipher r path false fs₂ download metadata replies.openread with
    | mk status rest =>
      obtain ⟨fs₃, metadata'⟩ := rest
      rw [hread] at h
      simp only at h
      split at h
      · simp only [Exec.done.injEq, Prod.mk.injEq] at h
        exact absurd h.1.symm hfd
      · rename_i hstatus
        simp only [ne_eq, not_not] at hstatus
        subst hstatus
        obtain ⟨obj', hlookup', rfl, rfl⟩ := dplOpenread_success hread
        obtain rfl : obj' = obj := Option.some.inj (hlookup'.symm.trans hlookup)
        obtain ⟨unpacked, hunpack, hdone⟩ := Exec.bind_eq_done.mp h
        obtain ⟨hcached, -⟩ := LocalFs.openFile_append rfl hcreate obj'.content
        refine openCopy_owner (fun hret => ?_) (Exec.done.inj hdone) hfd
        have hleft := handleCompression_owner hcached hrename hunpack hret
        unfold Obj.downloadedOwner
        split
        · rename_i hcompressed
          rw [if_pos hcompressed] at hleft
          obtain ⟨hdistinct, hleft⟩ := hleft
          rw [hleft, LocalFs.ownerAt_append, LocalFs.ownerAt_openFile_ne hdistinct hcreate, hothers _ hdistinct]
        · rename_i hplain
          rw [if_neg hplain] at hleft
          rw [hleft, LocalFs.ownerAt_append, LocalFs.ownerAt_openFile_self hcreate, habsent, Option.getD_none]

/-- A local copy that provides another descriptor than the one of the entry is a download. -/
theorem dfsGetLocalCopy_owner {r : Remote} {pe pe' : Pentry} {path : CStr} {flags : OpenFlags}
    {replies : CopyReplies} {fd : ℤ} {obj : Obj} (hlookup : r.lookup path = some obj) (haccess : replies.access = true)
    (hunlink : replies.unlink = true) (hrename : replies.unpack.rename = true)
    (h : dfsGetLocalCopy env fs r pe path flags replies = .done (fd, fs', pe')) (hpe : fd ≠ pe.fd) (hfd : fd ≠ -1) :
    fs'.ownerAt (copyName env.conf path) = some (obj.downloadedOwner env fs path) := by
  unfold dfsGetLocalCopy at h
  split at h
  · simp only [Exec.done.injEq, Prod.mk.injEq] at h
    exact absurd h.1.symm hfd
  · rename_i headers _
    split at h
    · simp only [Exec.done.injEq, Prod.mk.injEq] at h
      exact absurd h.1.symm hfd
    · split at h
      · simp only [Exec.done.injEq, Prod.mk.injEq] at h
        exact absurd h.1.symm hfd
      · obtain ⟨stored, hstored⟩ :=
          pe.setMetadata_eq (getMetadataFromHeaders replies.extract headers) replies.setMetadata
        simp only at h
        rw [hstored] at h
        split at h
        · simp only [Exec.done.injEq, Prod.mk.injEq] at h
          exact absurd h.1.symm hfd
        · obtain ⟨digest, hdigest⟩ :=
            compareDigests_eq { pe with metadata := stored } headers replies.junkDigest
          rw [hdigest] at h
          split at h
          · simp only [Exec.done.injEq, Prod.mk.injEq] at h
            exact absurd h.1.symm hpe
          · exact fetchCopy_owner hlookup haccess hunlink hrename h hfd

end Download

/-- The mode, the user and the group of a dictionary are those of a regular file with this owner. -/
def Dict.Records (dict : Dict) (owner : Owner) : Prop :=
  metadatatoll dict "mode".toList = (sIfreg ||| owner.mode).toNat ∧
    metadatatoll dict "uid".toList = owner.uid.toNat ∧ metadatatoll dict "gid".toList = owner.gid.toNat

/-- A number below `2 ^ 32` that is stored in a dictionary reads back as itself. -/
theorem metadatatoll_decimal {dict : Dict} {key : CStr} {n : ℕ} (h : dict key = some (decimal n)) (hn : n < 2 ^ 32) :
    metadatatoll dict key = n := by
  simp only [metadatatoll, h]
  rw [strtoull_decimal (by omega), Int.bmod_eq_of_le (by omega) (by omega)]

/-- The status of an open file reports its owner. -/
theorem LocalFs.fstat_owner {fs : LocalFs} {fd : ℤ} {reply : Option FileTimes} {st : Stat} {file : OpenFile}
    (hfile : fs.files fd.toNat = some file) (h : fs.fstat fd reply = some st) :
    st.mode = sIfreg ||| (fs.inodes file.ino).owner.mode ∧ st.uid = (fs.inodes file.ino).owner.uid ∧
      st.gid = (fs.inodes file.ino).owner.gid := by
  obtain ⟨file', times, -, hopen, -, -, rfl⟩ := fstat_eq_some.mp h
  obtain rfl : file = file' := Option.some.inj (hfile.symm.trans hopen)
  exact ⟨rfl, rfl, rfl⟩

/-- Metadata taken from the status of a file record its mode and its owner. -/
theorem fillMetadataFromStat_records {dict : Dict} {st : Stat} {owner : Owner} (hmode : st.mode = sIfreg ||| owner.mode)
    (huid : st.uid = owner.uid) (hgid : st.gid = owner.gid) : (fillMetadataFromStat dict st).Records owner := by
  have hfields : ∀ key, key ∈ ["mode".toList, "uid".toList, "gid".toList] → ∀ value : BitVec 32,
      fillMetadataFromStat dict st key = some (decimal value.toNat) →
      metadatatoll (fillMetadataFromStat dict st) key = value.toNat :=
    fun key _ value hkey => metadatatoll_decimal hkey value.isLt
  refine ⟨?_, ?_, ?_⟩
  · rw [← hmode]
    exact hfields _ (by simp) _ (by simp [fillMetadataFromStat, assignMetaToDict, Dict.updateValue])
  · rw [← huid]
    exact hfields _ (by simp) _ (by simp [fillMetadataFromStat, assignMetaToDict, Dict.updateValue])
  · rw [← hgid]
    exact hfields _ (by simp) _ (by simp [fillMetadataFromStat, assignMetaToDict, Dict.updateValue])

/-- Other keys do not change what a dictionary records of the owner. -/
theorem Dict.Records.updateValue {dict : Dict} {owner : Owner} {key : CStr} (h : dict.Records owner) (value : CStr)
    (hkey : key ∉ ["mode".toList, "uid".toList, "gid".toList]) : (dict.updateValue key value).Records owner := by
  simp only [List.mem_cons, List.not_mem_nil, or_false, not_or] at hkey
  have hsame : ∀ other, other ≠ key → metadatatoll (dict.updateValue key value) other = metadatatoll dict other := by
    intro other hne
    simp only [metadatatoll, Dict.updateValue, Function.update_of_ne hne]
  unfold Records
  rw [hsame _ (Ne.symm hkey.1), hsame _ (Ne.symm hkey.2.1), hsame _ (Ne.symm hkey.2.2)]
  exact h

/-- What is sent is described by the given metadata, with a label if it is compressed. -/
theorem pack_dict {env : Env} {fs : LocalFs} {name : CStr} {plain outgoing : Outgoing} {replies : ReleaseReplies}
    {packed : Packed} (h : pack env fs name plain replies = .done packed)
    (houtgoing : packed.outgoing = some outgoing) :
    outgoing.dict = plain.dict ∨ outgoing.dict = plain.dict.updateValue "compression".toList "zlib".toList := by
  unfold pack at h
  split at h
  · obtain rfl := Exec.done.inj h
    exact .inl (congrArg Outgoing.dict (Option.some.inj houtgoing)).symm
  · simp only at h
    split at h
    · obtain rfl := Exec.done.inj h
      cases houtgoing
    · split at h
      · obtain rfl := Exec.done.inj h
        exact .inl (congrArg Outgoing.dict (Option.some.inj houtgoing)).symm
      · obtain ⟨z, hz, h⟩ := Exec.bind_eq_done.mp h
        have hdict : z.dict = plain.dict ∨
            z.dict = plain.dict.updateValue "compression".toList "zlib".toList := by
          obtain ⟨⟨zret, out⟩, -, hz⟩ := Exec.bind_eq_done.mp hz
          simp only [pure] at hz
          split at hz
          · obtain rfl := Exec.done.inj hz
            exact .inl rfl
          · split at hz
            · obtain rfl := Exec.done.inj hz
              exact .inl rfl
            · obtain rfl := Exec.done.inj hz
              exact .inr rfl
        simp only [pure] at h
        split at h
        · obtain rfl := Exec.done.inj h
          obtain rfl := Option.some.inj houtgoing
          exact hdict
        · obtain rfl := Exec.done.inj h
          obtain rfl := Option.some.inj houtgoing
          exact hdict

/-- What libdroplet adds to the metadata of a stored object does not change the owner they record. -/
theorem storedObject_records {env : Env} {dict : Dict} {owner : Owner} (bytes : Bytes) (replies : ReleaseReplies)
    (h : dict.Records owner) :
    ∃ dict', (storedObject env dict bytes replies).metadata = some dict' ∧ dict'.Records owner := by
  unfold storedObject
  split
  · exact ⟨_, rfl, (h.updateValue _ (by decide)).updateValue _ (by decide)⟩
  · exact ⟨_, rfl, h⟩

section Reopened

variable {env : Env} {w w' : World} {path : CStr} {flags : BitVec 32} {addr : ℕ}

/-- The calls of a download that replaces the cache file all succeed. -/
structure CopyReplies.Replaces (replies : CopyReplies) : Prop where
  access : replies.access = true
  unlink : replies.unlink = true
  rename : replies.unpack.rename = true

/-- Without a descriptor, `open_wronly` succeeds with that of a local copy. -/
theorem openWronly_downloads {fs fs' : LocalFs} {r : Remote} {pe pe' : Pentry} {openFlags : OpenFlags}
    {replies : OpenReplies} {ret : ℤ} (hnone : pe.fd = -1)
    (h : openWronly env fs r pe path openFlags replies = .done (ret, fs', pe')) (hret : ret ≠ -1) :
    ∃ fd pe₁, dfsGetLocalCopy env fs r pe path openFlags replies.copy = .done (fd, fs', pe₁) ∧ fd ≠ -1 ∧
      pe' = { pe₁ with fd := fd, flag := .dirty } := by
  obtain ⟨⟨ret₁, fs₁, pe₁⟩, hexisting, hdone⟩ := Exec.bind_eq_done.mp h
  unfold openExisting at hexisting
  rw [if_pos (by rw [hnone]; decide)] at hexisting
  obtain ⟨⟨fd, fs₂, pe₂⟩, hcopy, hexisting⟩ := Exec.bind_eq_done.mp hexisting
  simp only [pure] at hexisting hdone
  by_cases hfd : fd = -1
  · rw [if_pos hfd] at hexisting
    obtain ⟨rfl, rfl, rfl⟩ : -1 = ret₁ ∧ fs₂ = fs₁ ∧ pe₂ = pe₁ := by simpa using hexisting
    rw [if_neg (by decide)] at hdone
    simp only [Exec.done.injEq, Prod.mk.injEq] at hdone
    exact absurd hdone.1.symm hret
  · rw [if_neg hfd] at hexisting
    obtain ⟨rfl, rfl, rfl⟩ : 0 = ret₁ ∧ fs₂ = fs₁ ∧ { pe₂ with fd := fd } = pe₁ := by simpa using hexisting
    rw [if_pos rfl] at hdone
    simp only [Exec.done.injEq, Prod.mk.injEq] at hdone
    obtain ⟨-, rfl, rfl⟩ := hdone
    exact ⟨fd, pe₂, hcopy, hfd, rfl⟩

/-- An open for appending of a path without an entry leaves a handle on a download of the object. -/
theorem dfsOpen_downloads {replies : OpenReplies} {opened : Opened} {obj : Obj} (hfresh : w.table path = none)
    (hlookup : w.remote.lookup path = some obj) (happend : hasFlag flags oAppend = true)
    (hreplaces : replies.copy.Replaces) (h : dfsOpen env w path flags replies = .done opened) (hret : opened.ret = 0)
    (hfh : opened.fh = some addr) :
    ∃ pe file content, opened.world.Holds addr pe file content ∧ pe.exclude = false ∧
      (opened.world.fs.inodes file.ino).owner = obj.downloadedOwner env w.fs path := by
  cases dfsOpen_outcome h with
  | noEntry => simp at hret
  | lockFailed => simp at hret
  | failed => simp at hret
  | @succeeded _ w₁ pe pe' fs ret hfound _ hmode hne =>
    obtain rfl : _ = addr := Option.some.inj hfh
    obtain ⟨-, hfs, hremote⟩ := hfound.cached
    obtain ⟨hheldFd, hheldExclude⟩ := pe.held_fd replies.semPost (getModeFromFlags flags)
    have hnew : pe.fd = -1 ∧ pe.exclude = false := by
      rcases findOrPopulate_cases hfound.lookup with ⟨htable, -⟩ | ⟨-, rfl, rfl⟩
      · rw [hfresh] at htable
        cases htable
      · have hheap := hfound.heap
        simp only [World.insert, Function.update_self, Option.some.injEq] at hheap
        rw [← hheap]
        exact ⟨rfl, rfl⟩
    have hrdwr : getModeFromFlags flags = .rdwr := by rw [getModeFromFlags, if_pos happend]
    rw [hrdwr] at hmode hheldFd hheldExclude
    rw [hfs, hremote] at hmode
    have hnone : (pe.held replies.semPost .rdwr).fd = -1 := hheldFd.trans hnew.1
    obtain ⟨fd, pe₁, hcopy, hfd, hentry⟩ := openWronly_downloads hnone hmode hne
    have howner := dfsGetLocalCopy_owner hlookup hreplaces.access hreplaces.unlink hreplaces.rename hcopy
      (by rwa [hnone]) hfd
    obtain ⟨-, bytes, fd', -, -, rfl, -, ino, hname, hfile, hcontent⟩ :=
      dfsGetLocalCopy_content rfl rfl hcopy (by rwa [hnone]) hfd
    obtain ⟨metadata, digest, rfl⟩ := dfsGetLocalCopy_entry hcopy
    subst hentry
    have hinode : (fs.inodes ino).owner = obj.downloadedOwner env w.fs path := by
      simpa only [LocalFs.ownerAt, LocalFs.resolve, hname, Option.map_some, Option.some.injEq] using howner
    exact ⟨_, _, bytes, World.holds_put _ rfl hfile rfl hcontent, hheldExclude.trans hnew.2, hinode⟩

/-- A write keeps the owner of each file. -/
theorem dfsWrite_owner {data : Bytes} {offset : ℕ} {replies : WriteReplies} {ret : ℤ}
    (h : dfsWrite w addr data offset replies = .done (ret, w')) (ino : ℕ) :
    (w'.fs.inodes ino).owner = (w.fs.inodes ino).owner := by
  unfold dfsWrite at h
  split at h
  · cases h
  · split at h
    · simp only [Exec.done.injEq, Prod.mk.injEq] at h
      rw [← h.2]
    · split at h
      · simp only [Exec.done.injEq, Prod.mk.injEq] at h
        rw [← h.2]
      · rename_i count fs hpwrite
        simp only [Exec.done.injEq, Prod.mk.injEq] at h
        obtain ⟨-, rfl⟩ := h
        unfold LocalFs.pwrite at hpwrite
        split at hpwrite
        · split at hpwrite
          · simp only [Option.some.injEq, Prod.mk.injEq] at hpwrite
            rw [← hpwrite.2, LocalFs.setContent_owner]
          · cases hpwrite
        · cases hpwrite

/-- Writes keep the owner of each file. -/
theorem Writes.owner {writes : List (Write UInt8)} (hwrites : Writes addr w writes w') (ino : ℕ) :
    (w'.fs.inodes ino).owner = (w.fs.inodes ino).owner := by
  induction hwrites with
  | nil => rfl
  | cons hwrite _ _ ih => exact ih.trans (dfsWrite_owner hwrite ino)

/-- A release that uploads a cache file with success stores metadata that record the owner of that file. -/
theorem dfsRelease_records {pe : Pentry} {file : OpenFile} {content : Bytes} {replies : ReleaseReplies}
    {released : Released} (h : w.Holds addr pe file content) (hexclude : pe.exclude = false)
    (hflags : isRdonly flags = false) (hrelease : dfsRelease env w addr path flags replies = .done released)
    (hret : released.ret = 0) :
    ∃ obj dict, released.world.remote.lookup path = some obj ∧ obj.metadata = some dict ∧
      dict.Records (w.fs.inodes file.ino).owner := by
  have hsame : ∀ {pe'}, w.heap addr = some pe' → pe' = pe := fun hheap =>
    Option.some.inj (hheap.symm.trans h.heap)
  cases dfsRelease_outcome hrelease with
  | unusable => simp at hret
  | readOnly _ _ _ hrdonly =>
    rw [hflags] at hrdonly
    cases hrdonly
  | excluded hheap _ _ _ hexcluded =>
    rw [hsame hheap, hexclude] at hexcluded
    cases hexcluded
  | @uploaded pe' _ st ok w₁ hheap hstat _ _ _ hupload =>
    obtain rfl := hsame hheap
    cases ok with
    | false => simp at hret
    | true =>
      obtain ⟨packed, hpack, hpushed, rfl⟩ := upload_eq_done hupload
      obtain ⟨hmode, huid, hgid⟩ := LocalFs.fstat_owner h.isOpen hstat
      have hplain : (fillMetadataFromStat Dict.new st).Records (w.fs.inodes file.ino).owner :=
        fillMetadataFromStat_records hmode huid hgid
      cases houtgoing : packed.outgoing with
      | none => simp [pushPacked, houtgoing] at hpushed
      | some outgoing =>
        simp only [pushPacked, houtgoing] at hpushed ⊢
        have hrecords : outgoing.dict.Records (w.fs.inodes file.ino).owner := by
          rcases pack_dict hpack houtgoing with hdict | hdict
          · rw [hdict]
            exact hplain
          · rw [hdict]
            exact hplain.updateValue _ (by decide)
        obtain ⟨dict, hdict, hstored⟩ := storedObject_records (packed.fs.unread outgoing.fd) replies hrecords
        refine ⟨_, dict, ?_, hdict, hstored⟩
        simp only [World.put, push_success hpushed.symm, AList.lookup_insert]
        rfl

end Reopened

/-- After an open for appending, writes and a release that all succeed, the object's mode, user and group are those
it had before exactly when it had those that the download gave to the cache file. -/
theorem reopened_owner_iff {env : Env} {w w' : World} {path : CStr} {flags : BitVec 32} {obj : Obj} {dict : Dict}
    {opening : OpenReplies} {opened : Opened} {addr : ℕ} {writes : List (Write UInt8)} {closing : ReleaseReplies}
    {released : Released} (hfresh : w.table path = none) (hlookup : w.remote.lookup path = some obj)
    (_hdict : obj.metadata = some dict) (happend : hasFlag flags oAppend = true) (hflags : isRdonly flags = false)
    (hreplaces : opening.copy.Replaces) (hopen : dfsOpen env w path flags opening = .done opened)
    (hret : opened.ret = 0) (hfh : opened.fh = some addr) (hwrites : Writes addr opened.world writes w')
    (hrelease : dfsRelease env w' addr path flags closing = .done released) (hreleased : released.ret = 0) :
    (∃ obj' dict', released.world.remote.lookup path = some obj' ∧ obj'.metadata = some dict' ∧
        metadatatoll dict' "mode".toList = metadatatoll dict "mode".toList ∧
        metadatatoll dict' "uid".toList = metadatatoll dict "uid".toList ∧
        metadatatoll dict' "gid".toList = metadatatoll dict "gid".toList) ↔
      dict.Records (obj.downloadedOwner env w.fs path) := by
  obtain ⟨pe, file, content, hholds, hexclude, howner⟩ :=
    dfsOpen_downloads hfresh hlookup happend hreplaces hopen hret hfh
  obtain ⟨obj₁, dict₁, hobj₁, hdict₁, hmode, huid, hgid⟩ :=
    dfsRelease_records (hwrites.holds hholds) hexclude hflags hrelease hreleased
  rw [hwrites.owner file.ino, howner] at hmode huid hgid
  constructor
  · rintro ⟨obj₂, dict₂, hobj₂, hdict₂, hmode₂, huid₂, hgid₂⟩
    obtain rfl : obj₁ = obj₂ := Option.some.inj (hobj₁.symm.trans hobj₂)
    obtain rfl : dict₁ = dict₂ := Option.some.inj (hdict₁.symm.trans hdict₂)
    exact ⟨hmode₂.symm.trans hmode, huid₂.symm.trans huid, hgid₂.symm.trans hgid⟩
  · rintro ⟨hmode₂, huid₂, hgid₂⟩
    exact ⟨obj₁, dict₁, hobj₁, hdict₁, hmode.trans hmode₂.symm, huid.trans huid₂.symm, hgid.trans hgid₂.symm⟩

/-- The metadata of a file with a mode, a user and a group. -/
def Dict.ofOwner (owner : Owner) : Dict :=
  fillMetadataFromStat Dict.new { Stat.zero with mode := sIfreg ||| owner.mode, uid := owner.uid, gid := owner.gid }

/-- A store with one empty file of an owner. -/
def Remote.owned (path : CStr) (owner : Owner) : Remote :=
  (∅ : Remote).insert path ⟨.reg, [], some (.ofOwner owner), none⟩

/-- Appending nothing to a file that is private to the process. -/
theorem reopened_owner_private :
    ∃ opened released, dfsOpen .plain (.start .empty (.owned "/f".toList ⟨0o600, 1000, 1000⟩)) "/f".toList
        (oWronly ||| oAppend) (.granted 3) = .done opened ∧ opened.ret = 0 ∧ opened.fh = some 0 ∧
      dfsRelease .plain opened.world 0 "/f".toList (oWronly ||| oAppend) (.granted 4) = .done released ∧
      released.ret = 0 ∧
      ((∃ obj' dict', released.world.remote.lookup "/f".toList = some obj' ∧ obj'.metadata = some dict' ∧
          metadatatoll dict' "mode".toList = metadatatoll (.ofOwner ⟨0o600, 1000, 1000⟩) "mode".toList ∧
          metadatatoll dict' "uid".toList = metadatatoll (.ofOwner ⟨0o600, 1000, 1000⟩) "uid".toList ∧
          metadatatoll dict' "gid".toList = metadatatoll (.ofOwner ⟨0o600, 1000, 1000⟩) "gid".toList) ↔
        (Dict.ofOwner ⟨0o600, 1000, 1000⟩).Records
          (Obj.downloadedOwner .plain .empty "/f".toList
            ⟨.reg, [], some (.ofOwner ⟨0o600, 1000, 1000⟩), none⟩)) :=
  ⟨⟨0, some 0, _⟩, ⟨0, _⟩, rfl, rfl, rfl, rfl, rfl,
    @reopened_owner_iff .plain (.start .empty (.owned "/f".toList ⟨0o600, 1000, 1000⟩)) _ "/f".toList
      (oWronly ||| oAppend) ⟨.reg, [], some (.ofOwner ⟨0o600, 1000, 1000⟩), none⟩ (.ofOwner ⟨0o600, 1000, 1000⟩)
      (.granted 3) ⟨0, some 0, _⟩ 0 [] (.granted 4) ⟨0, _⟩ rfl rfl rfl (by decide) (by decide) ⟨rfl, rfl, rfl⟩ rfl rfl
      rfl .nil rfl rfl⟩

/-- Appending nothing to a file that others can read makes it private to the process. -/
theorem reopened_becomes_private :
    ∃ opened released obj' dict', (World.start .empty (.owned "/f".toList ⟨0o644, 0, 0⟩)).table "/f".toList = none ∧
      dfsOpen .plain (.start .empty (.owned "/f".toList ⟨0o644, 0, 0⟩)) "/f".toList (oWronly ||| oAppend)
        (.granted 3) = .done opened ∧ opened.ret = 0 ∧ opened.fh = some 0 ∧
      dfsRelease .plain opened.world 0 "/f".toList (oWronly ||| oAppend) (.granted 4) = .done released ∧
      released.ret = 0 ∧ released.world.remote.lookup "/f".toList = some obj' ∧ obj'.metadata = some dict' ∧
      metadatatoll (.ofOwner ⟨0o644, 0, 0⟩) "mode".toList = 0o100644 ∧ metadatatoll dict' "mode".toList = 0o100600 ∧
      metadatatoll (.ofOwner ⟨0o644, 0, 0⟩) "uid".toList = 0 ∧ metadatatoll dict' "uid".toList = 1000 ∧
      metadatatoll (.ofOwner ⟨0o644, 0, 0⟩) "gid".toList = 0 ∧ metadatatoll dict' "gid".toList = 1000 :=
  ⟨⟨0, some 0, _⟩, ⟨0, _⟩, _, _, rfl, rfl, rfl, rfl, rfl, rfl, rfl, rfl, by decide, by decide, by decide, by decide,
    by decide, by decide⟩

end Dropletfs
