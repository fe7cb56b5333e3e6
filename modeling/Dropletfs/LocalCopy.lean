import Dropletfs.Download
import Dropletfs.LocalFrame

/-!
# What a local copy contains

A download works on the cache file, the scratch file next to it, and descriptors of its
own. When it succeeds, its descriptor is at the start of the cache file, and this has the
bytes of the object, decompressed when the label of the object says so.
-/

namespace Dropletfs

/-- The names a download works on. -/
def CopyNames (conf : Conf) (path name : CStr) : Prop :=
  name = collapse (copyName conf path) ∨ name = collapse (scratchName (copyName conf path))

/-- The value of the `compression` key of an object. -/
def Obj.label (obj : Obj) : Option CStr := obj.metadata.getD Dict.new "compression".toList

/-- The object is labelled as compressed. -/
def Obj.compressed (obj : Obj) : Bool :=
  match obj.label with
  | none => false
  | some label => !strncmpEq "none".toList label && strncmpEq "zlib".toList label

/-- What a successful download of an object leaves in the cache file. -/
def Obj.fetched (env : Env) (obj : Obj) (replies : UnpackReplies) : Option Bytes :=
  match obj.label with
  | none => some obj.content
  | some label =>
    if strncmpEq "none".toList label then some obj.content
    else if strncmpEq "zlib".toList label = false then none
    else
      match unzip env.zlib obj.content replies.io with
      | .done (.ok, out) => some (if replies.rename then flushed replies.fclose out else obj.content)
      | _ => none

namespace LocalFs

/-- A descriptor is open at the start of the file a name leads to. -/
def OpenAt (fs : LocalFs) (name : CStr) (fd : ℕ) (write : Bool) (bytes : Bytes) : Prop :=
  ∃ ino, fs.names (collapse name) = some ino ∧ fs.files fd = some ⟨ino, 0, write⟩ ∧
    (fs.inodes ino).content = bytes

/-- The content of a name, through its inode. -/
theorem contentAt_eq_some {fs : LocalFs} {name : CStr} {bytes : Bytes} :
    fs.contentAt name = some bytes ↔
      ∃ ino, fs.names (collapse name) = some ino ∧ (fs.inodes ino).content = bytes := by
  simp [contentAt, resolve, Option.map_eq_some_iff]

/-- Opening a name for what it is finds its content at offset zero. -/
theorem openFile_contentAt {fs fs' : LocalFs} {proc : Process} {name : CStr} {flags : OpenFlags}
    {mode : BitVec 32} {reply : Option ℕ} {fd : ℕ} {bytes : Bytes} (htrunc : flags.trunc = false)
    (hcreat : flags.creat = false) (hbytes : fs.contentAt name = some bytes)
    (h : fs.openFile proc name flags mode reply = some (fd, fs')) :
    ∃ ino, fs.files fd = none ∧ fs.names (collapse name) = some ino ∧ (fs.inodes ino).content = bytes ∧
      fs' = fs.bind fd ino flags.write := by
  obtain ⟨ino, hfree, hname, rfl⟩ := openFile_plain htrunc hcreat h
  obtain ⟨ino', hname', hcontent⟩ := contentAt_eq_some.mp hbytes
  obtain rfl : ino' = ino := Option.some.inj (hname'.symm.trans hname)
  exact ⟨ino', hfree, hname, hcontent, rfl⟩

/-- Appending at offset zero of an empty file makes the data its content. -/
theorem append_empty {fs : LocalFs} {fd ino : ℕ} {write : Bool} (data : Bytes)
    (hfile : fs.files fd = some ⟨ino, 0, write⟩) (hempty : (fs.inodes ino).content = []) :
    fs.append fd data = (fs.setContent ino data).seek fd data.length := by
  have hwrite : Overlay.writeAt 0 ([] : Bytes) 0 data = data := by
    unfold Overlay.writeAt
    split
    · rename_i hnil
      exact hnil.symm
    · simp
  unfold append
  simp only [hfile, hempty, hwrite, Nat.zero_add]

/-- What is written to a file that was opened with truncation is its content. -/
theorem openFile_append {fs fs' : LocalFs} {proc : Process} {name : CStr} {flags : OpenFlags} {mode : BitVec 32}
    {reply : Option ℕ} {fd : ℕ} (htrunc : flags.trunc = true)
    (h : fs.openFile proc name flags mode reply = some (fd, fs')) (data : Bytes) :
    (fs'.append fd data).contentAt name = some data ∧ ((fs'.append fd data).files fd).isSome = true := by
  obtain ⟨-, ino, hfile, hname⟩ := openFile_file h
  have hempty := openFile_trunc htrunc h
  simp only [fdContent, hfile, Option.map_some, Option.some.injEq] at hempty
  rw [append_empty data hfile hempty]
  constructor
  · exact contentAt_eq_some.mpr ⟨ino, hname, by simp [seek, setContent]⟩
  · simp [seek, setContent, hfile]

end LocalFs

/-- An empty file is not a compressed one. -/
theorem unzip_nil (z : Zlib) (io : ZipIo) (out : Bytes) : unzip z [] io ≠ .done (.ok, out) := by
  intro h
  unfold unzip at h
  split at h
  · rename_i hinit
    simp only [Exec.done.injEq, Prod.mk.injEq] at h
    exact hinit h.1
  · rename_i hinit
    simp only [ne_eq, not_not] at hinit
    simp only [List.length_nil, Nat.zero_div, Nat.zero_add, unzipLoop, List.take_nil, if_true, hinit] at h
    split at h <;> simp at h

/-- A decompression that succeeds does what one without any failing call does. -/
theorem unzip_clean {z : Zlib} {source out : Bytes} {io : ZipIo} (h : unzip z source io = .done (.ok, out)) :
    unzip z source .clean = .done (.ok, out) := by
  unfold unzip at h ⊢
  split at h
  · rename_i hinit
    simp only [Exec.done.injEq, Prod.mk.injEq] at h
    exact absurd h.1 hinit
  · rename_i hinit
    rw [if_neg hinit]
    exact unzipLoop_clean _ _ _ _ _ _ _ _ _ h

/-- The flag for libdroplet to decrypt is never set. -/
theorem checkEncryptionFlag_eq_false (conf : Conf) (metadata : Dict) :
    checkEncryptionFlag conf metadata = false := by
  unfold checkEncryptionFlag
  split
  · rfl
  · split <;> simp

section Frame

variable {env : Env} {N : CStr → Prop} {fs₀ fs fs' : LocalFs} {name : CStr}

/-- Closing the streams of a decompression that were opened since. -/
theorem closeStreams_frame {source scratch : ℕ} {file : OpenFile} (out : Bytes) (fclose : Option ℕ)
    (h : fs₀.Frame N fs) (hsource : fs₀.files source = none) (hscratch : fs₀.Owns N fs scratch file) :
    fs₀.Frame N (closeStreams fs source scratch out fclose) :=
  ((h.append hscratch _).close hsource).close hscratch.unused

/-- The part of a decompression with both streams open. -/
theorem unpackInto_frame {fd source scratch : ℕ} {file : OpenFile} {replies : UnpackReplies}
    {unpacked : Unpacked} (h : fs₀.Frame N fs) (hname : N (collapse name))
    (hscratchName : N (collapse (scratchName name))) (hfd : fs₀.files fd = none) (hne : scratch ≠ fd)
    (hsource : fs₀.files source = none) (hscratch : fs₀.Owns N fs scratch file)
    (hdone : unpackInto env fs name fd source scratch replies = .done unpacked) :
    fs₀.Frame N unpacked.fs ∧ ∀ fd', unpacked.fd = some fd' → fs₀.files fd' = none := by
  obtain ⟨⟨zret, out⟩, -, hdone⟩ := Exec.bind_eq_done.mp hdone
  have hkept : ∀ ret, fs₀.Frame N (Unpacked.mk ret (closeStreams fs source scratch out replies.fclose)
      (some fd)).fs ∧ ∀ fd', some fd = some fd' → fs₀.files fd' = none :=
    fun _ => ⟨closeStreams_frame _ _ h hsource hscratch, fun _ heq => Option.some.inj heq ▸ hfd⟩
  simp only [pure] at hdone
  split at hdone
  · obtain rfl := Exec.done.inj hdone
    exact hkept (-1)
  · split at hdone
    · obtain rfl := Exec.done.inj hdone
      exact hkept (-1)
    · split at hdone
      · obtain rfl := Exec.done.inj hdone
        exact hkept 1
      · -- the scratch file has taken the place of the cache file
        have hmoved := (h.rename hscratchName hname).close hfd
        have hown : fs₀.Owns N ((fs.rename (scratchName name) name).close fd) scratch file := by
          refine LocalFs.Frame.owns_close ⟨hscratch.unused, ?_, hscratch.origin⟩ hne
          rw [LocalFs.rename_files]
          exact hscratch.isOpen
        split at hdone
        · obtain rfl := Exec.done.inj hdone
          exact ⟨closeStreams_frame _ _ hmoved hsource hown, fun _ hnone => by cases hnone⟩
        · rename_i fd' fs₁ hopen
          obtain rfl := Exec.done.inj hdone
          have hopened := hmoved.openFile (.inl hname) hopen
          obtain ⟨hfree, ino, hfile, -⟩ := LocalFs.openFile_file hopen
          have hstill := hown.openFile hopen
          exact ⟨closeStreams_frame _ _ hopened hsource hstill, fun _ heq =>
            Option.some.inj heq ▸ hmoved.free_before hfree⟩

/-- A decompression, which works on the scratch file only when the metadata asks for it. -/
theorem handleCompression_frame {fd : ℕ} {metadata : Dict} {replies : UnpackReplies} {unpacked : Unpacked}
    (h : fs₀.Frame N fs) (hname : N (collapse name))
    (hscratchName : ∀ label, metadata "compression".toList = some label → strncmpEq "none".toList label = false →
      strncmpEq "zlib".toList label = true → N (collapse (scratchName name)))
    (hfd : fs₀.files fd = none) (hopen : (fs.files fd).isSome = true)
    (hdone : handleCompression env fs name fd metadata replies = .done unpacked) :
    fs₀.Frame N unpacked.fs ∧ ∀ fd', unpacked.fd = some fd' → fs₀.files fd' = none := by
  have hkept : ∀ ret fs', fs₀.Frame N fs' → unpacked = ⟨ret, fs', some fd⟩ →
      fs₀.Frame N unpacked.fs ∧ ∀ fd', unpacked.fd = some fd' → fs₀.files fd' = none := by
    rintro ret fs' hframe rfl
    exact ⟨hframe, fun _ heq => Option.some.inj heq ▸ hfd⟩
  unfold handleCompression at hdone
  split at hdone
  · exact hkept 0 fs h (Exec.done.inj hdone).symm
  · rename_i label hlabel
    split at hdone
    · exact hkept 0 fs h (Exec.done.inj hdone).symm
    · rename_i hnone
      split at hdone
      · exact hkept (-1) fs h (Exec.done.inj hdone).symm
      · rename_i hzlib
        replace hscratchName := hscratchName label hlabel (by simpa using hnone) (by simpa using hzlib)
        split at hdone
        · exact hkept (-1) fs h (Exec.done.inj hdone).symm
        · rename_i source fs₁ hsource
          obtain ⟨file, hown, -⟩ := h.openFile_owns hname hsource
          have h₁ := h.openFile (.inl hname) hsource
          split at hdone
          · exact hkept (-1) _ (h₁.close hown.unused) (Exec.done.inj hdone).symm
          · rename_i scratch fs₂ hscratch
            obtain ⟨file', hown', -⟩ := h₁.openFile_owns hscratchName hscratch
            have h₂ := h₁.openFile (.inl hscratchName) hscratch
            have hne : scratch ≠ fd := by
              rintro rfl
              obtain ⟨hfree, -⟩ := LocalFs.openFile_file hscratch
              obtain ⟨file'', hfile''⟩ := Option.isSome_iff_exists.mp hopen
              rw [LocalFs.openFile_files hsource hfile''] at hfree
              cases hfree
            exact unpackInto_frame h₂ hname hscratchName hfd hne hown.unused hown' hdone

/-- The end of a download, whose descriptor is a new one. -/
theorem openCopy_frame {flags : OpenFlags} {pe pe' : Pentry} {replies : CopyReplies} {unpacked : Unpacked}
    {fd : ℤ} (h : fs₀.Frame N unpacked.fs) (hname : N (collapse name))
    (hfd : ∀ fd', unpacked.fd = some fd' → fs₀.files fd' = none)
    (hdone : openCopy env name flags pe replies unpacked = (fd, fs', pe')) :
    fs₀.Frame N fs' ∧ ∀ fd' : ℕ, fd = fd' → fs₀.files fd' = none := by
  have hfailed : ∀ fs, fs₀.Frame N fs → ((-1 : ℤ), fs, pe) = (fd, fs', pe') →
      fs₀.Frame N fs' ∧ ∀ fd' : ℕ, fd = fd' → fs₀.files fd' = none := by
    intro fs hframe heq
    simp only [Prod.mk.injEq] at heq
    obtain ⟨rfl, rfl, -⟩ := heq
    exact ⟨hframe, fun fd' heq => by omega⟩
  unfold openCopy at hdone
  split at hdone
  · exact hfailed _ h hdone
  · split at hdone
    · exact hfailed _ h hdone
    · rename_i fd' heq
      have hclosed := h.close (hfd fd' heq)
      simp only at hdone
      split at hdone
      · exact hfailed _ hclosed hdone
      · split at hdone
        · exact hfailed _ hclosed hdone
        · rename_i hopen
          simp only [Prod.mk.injEq] at hdone
          obtain ⟨rfl, rfl, -⟩ := hdone
          refine ⟨hclosed.openFile (.inl hname) hopen, ?_⟩
          intro fd₁ heq
          obtain rfl := Int.ofNat.inj heq
          exact hclosed.free_before (LocalFs.openFile_file hopen).1

/-- A download writes to its descriptor only. -/
theorem dplOpenread_append {cipher : Cipher} {r : Remote} {path : CStr} {encryption : Bool} {fs fs' : LocalFs}
    {fd : ℕ} {metadata metadata' : Dict} {replies : OpenreadReplies} {status : Status}
    (h : dplOpenread cipher r path encryption fs fd metadata replies = (status, fs', metadata')) :
    fs' = fs ∨ ∃ bytes, fs' = fs.append fd bytes := by
  unfold dplOpenread at h
  split at h
  · simp only [Prod.mk.injEq] at h
    exact .inl h.2.1.symm
  · simp only at h
    split at h
    · generalize cbGetBuffered _ _ = written at h
      cases hwritten : written.1 with
      | true =>
        simp only [hwritten, if_true, Prod.mk.injEq] at h
        exact .inr ⟨_, h.2.1.symm⟩
      | false =>
        simp only [hwritten, Bool.false_eq_true, if_false, Prod.mk.injEq] at h
        exact .inr ⟨_, h.2.1.symm⟩
    · simp only [Prod.mk.injEq] at h
      exact .inr ⟨_, h.2.1.symm⟩

/-- A download that succeeds has written the object to its descriptor. -/
theorem dplOpenread_success {cipher : Cipher} {r : Remote} {path : CStr} {fs fs' : LocalFs} {fd : ℕ}
    {metadata metadata' : Dict} {replies : OpenreadReplies}
    (h : dplOpenread cipher r path false fs fd metadata replies = (.success, fs', metadata')) :
    ∃ obj, r.lookup path = some obj ∧ fs' = fs.append fd obj.content ∧ metadata' = obj.metadata.getD Dict.new := by
  unfold dplOpenread at h
  split at h
  · simp only [Prod.mk.injEq] at h
    have hfalse := ((Status.onExisting_eq_success _ _).mp h.1).2
    cases hfalse
  · rename_i obj hlookup
    simp only [Bool.false_eq_true, if_false] at h
    split at h
    · have hflatten := cbGetBuffered_eq_flatten replies.writes (chunks replies.chunkSizes obj.content)
      rw [chunks_flatten] at hflatten
      generalize cbGetBuffered replies.writes (chunks replies.chunkSizes obj.content) = written at h hflatten
      cases hwritten : written.1 with
      | true =>
        simp only [hwritten, if_true, Prod.mk.injEq, true_and] at h
        rw [hflatten hwritten] at h
        exact ⟨obj, hlookup, h.1.symm, h.2.symm⟩
      | false => simp [hwritten] at h
    · rename_i hstatus
      simp only [Prod.mk.injEq] at h
      exact absurd h.1 hstatus

/-- Fetching the content changes the two names and descriptors of its own, and the second name only when it
decompresses. -/
theorem fetchCopy_frame {r : Remote} {pe pe' : Pentry} {path : CStr} {flags : OpenFlags} {metadata : Dict}
    {replies : CopyReplies} {fd : ℤ} (hname : N (collapse (copyName env.conf path)))
    (hscratchName : ∀ obj, r.lookup path = some obj → obj.compressed = true →
      N (collapse (scratchName (copyName env.conf path))))
    (h : fetchCopy env fs r pe path flags metadata replies = .done (fd, fs', pe')) :
    fs.Frame N fs' ∧ ∀ fd' : ℕ, fd = fd' → fs.files fd' = none := by
  have hfresh := LocalFs.Frame.refl N fs
  have hremoved : fs.Frame N (if (replies.access && (fs.resolve (copyName env.conf path)).isSome) = true then
      fs.unlink (copyName env.conf path) replies.unlink else fs) := by
    split
    · exact hfresh.unlink _ hname
    · exact hfresh
  unfold fetchCopy at h
  simp only at h
  generalize (if (replies.access && (fs.resolve (copyName env.conf path)).isSome) = true then
    fs.unlink (copyName env.conf path) replies.unlink else fs) = fs₁ at h hremoved
  split at h
  · simp only [Exec.done.injEq, Prod.mk.injEq] at h
    obtain ⟨rfl, rfl, -⟩ := h
    exact ⟨hremoved, fun fd' heq => by omega⟩
  · rename_i download fs₂ hcreate
    obtain ⟨file, hown, -, -⟩ := hremoved.openFile_owns hname hcreate
    have hcreated := hremoved.openFile (.inl hname) hcreate
    rw [checkEncryptionFlag_eq_false] at h
    cases hread : dplOpenread env.cipher r path false fs₂ download metadata replies.openread with
    | mk status rest =>
      obtain ⟨fs₃, metadata'⟩ := rest
      rw [hread] at h
      simp only at h
      have hwritten : fs.Frame N fs₃ ∧ (fs₃.files download).isSome = true := by
        rcases dplOpenread_append hread with rfl | ⟨bytes, rfl⟩
        · exact ⟨hcreated, by simp [hown.isOpen]⟩
        · exact ⟨hcreated.append hown bytes, by simp [LocalFs.append, hown.isOpen, LocalFs.seek, LocalFs.setContent]⟩
      split at h
      · simp only [Exec.done.injEq, Prod.mk.injEq] at h
        obtain ⟨rfl, rfl, -⟩ := h
        exact ⟨hwritten.1.close hown.unused, fun fd' heq => by omega⟩
      · rename_i hstatus
        obtain ⟨unpacked, hunpack, hdone⟩ := Exec.bind_eq_done.mp h
        obtain ⟨obj, hlookup, -, rfl⟩ := dplOpenread_success (by rw [hread, not_not.mp hstatus])
        obtain ⟨hunpacked, hfd⟩ := handleCompression_frame hwritten.1 hname
          (fun label hlabel hnone hzlib => hscratchName obj hlookup (by
            rw [Obj.compressed, Obj.label, hlabel]
            simp only [hnone, hzlib, Bool.not_false, Bool.and_self])) hown.unused hwritten.2 hunpack
        exact openCopy_frame hunpacked hname hfd (Exec.done.inj hdone)

/-- A local copy changes what fetching the content changes. -/
theorem dfsGetLocalCopy_frame_of {r : Remote} {pe pe' : Pentry} {path : CStr} {flags : OpenFlags}
    {replies : CopyReplies} {fd : ℤ} (hname : N (collapse (copyName env.conf path)))
    (hscratchName : ∀ obj, r.lookup path = some obj → obj.compressed = true →
      N (collapse (scratchName (copyName env.conf path))))
    (h : dfsGetLocalCopy env fs r pe path flags replies = .done (fd, fs', pe')) : fs.Frame N fs' := by
  have hnothing : fs' = fs → fs.Frame N fs' := by
    rintro rfl
    exact .refl _ _
  unfold dfsGetLocalCopy at h
  split at h
  · simp only [Exec.done.injEq, Prod.mk.injEq] at h
    exact hnothing h.2.1.symm
  · split at h
    · simp only [Exec.done.injEq, Prod.mk.injEq] at h
      exact hnothing h.2.1.symm
    · split at h
      · simp only [Exec.done.injEq, Prod.mk.injEq] at h
        exact hnothing h.2.1.symm
      · simp only at h
        split at h
        · simp only [Exec.done.injEq, Prod.mk.injEq] at h
          exact hnothing h.2.1.symm
        · split at h
          · simp only [Exec.done.injEq, Prod.mk.injEq] at h
            exact hnothing h.2.1.symm
          · exact (fetchCopy_frame hname hscratchName h).1

/-- A local copy changes the two names and descriptors of its own. -/
theorem dfsGetLocalCopy_frame {r : Remote} {pe pe' : Pentry} {path : CStr} {flags : OpenFlags}
    {replies : CopyReplies} {fd : ℤ}
    (h : dfsGetLocalCopy env fs r pe path flags replies = .done (fd, fs', pe')) :
    fs.Frame (CopyNames env.conf path) fs' :=
  dfsGetLocalCopy_frame_of (.inl rfl) (fun _ _ _ => .inr rfl) h

end Frame

section Content

variable {env : Env} {fs fs' : LocalFs} {name : CStr}

/-- Flushing to the empty scratch file and closing the streams. -/
theorem closeStreams_eq {scratch ino : ℕ} {write : Bool} (source : ℕ) (out : Bytes) (fclose : Option ℕ)
    (hfile : fs.files scratch = some ⟨ino, 0, write⟩) (hempty : (fs.inodes ino).content = []) :
    closeStreams fs source scratch out fclose = (((fs.setContent ino (flushed fclose out)).seek scratch
      (flushed fclose out).length).close source).close scratch := by
  unfold closeStreams
  rw [LocalFs.append_empty _ hfile hempty]

/-- The two streams of a decompression: one at the start of the cache file, the other at the start of an
empty scratch file. -/
structure Streams (fs : LocalFs) (name : CStr) (raw : Bytes) (source scratch : ℕ) : Prop where
  cached : fs.contentAt name = some raw
  distinct : collapse (scratchName name) ≠ collapse name
  source : fs.unread source = raw
  scratch : ∃ ino write, fs.files scratch = some ⟨ino, 0, write⟩ ∧
    fs.names (collapse (scratchName name)) = some ino ∧ (fs.inodes ino).content = []

/-- A decompression that goes on leaves its output, or what was there, in the cache file. -/
theorem unpackInto_content {raw : Bytes} {fd source scratch : ℕ} {replies : UnpackReplies}
    {unpacked : Unpacked} (h : Streams fs name raw source scratch) (hne : scratch ≠ fd)
    (hdone : unpackInto env fs name fd source scratch replies = .done unpacked) (hret : unpacked.ret ≠ -1) :
    ∃ out, unzip env.zlib raw replies.io = .done (.ok, out) ∧ unpacked.fs.contentAt name =
      some (if replies.rename then flushed replies.fclose out else raw) := by
  obtain ⟨⟨zret, out⟩, hunzip, hdone⟩ := Exec.bind_eq_done.mp hdone
  obtain ⟨ino, hname, hraw⟩ := LocalFs.contentAt_eq_some.mp h.cached
  obtain ⟨ino', write, hfile, hname', hempty⟩ := h.scratch
  have hother : ino ≠ ino' := by
    rintro rfl
    exact h.distinct (fs.names_inj _ _ _ hname' hname)
  rw [h.source] at hunzip
  simp only [pure] at hdone
  split at hdone
  · obtain rfl := Exec.done.inj hdone
    exact absurd rfl hret
  · rename_i hok
    simp only [ne_eq, not_not] at hok
    subst hok
    refine ⟨out, hunzip, ?_⟩
    split at hdone
    · obtain rfl := Exec.done.inj hdone
      exact absurd rfl hret
    · split at hdone
      · rename_i hrename
        obtain rfl := Exec.done.inj hdone
        simp only [hrename, Bool.false_eq_true, if_false]
        rw [closeStreams_eq _ out _ hfile hempty]
        refine LocalFs.contentAt_eq_some.mpr ⟨ino, hname, ?_⟩
        simpa only [LocalFs.close, LocalFs.seek, LocalFs.setContent, Function.update_of_ne hother] using hraw
      · rename_i hrename
        simp only [Bool.not_eq_false] at hrename
        -- the scratch file has taken the place of the cache file and is complete once its stream is closed
        have hmoved : ((fs.rename (scratchName name) name).close fd).names (collapse name) = some ino' ∧
            ((fs.rename (scratchName name) name).close fd).files scratch = some ⟨ino', 0, write⟩ ∧
            (((fs.rename (scratchName name) name).close fd).inodes ino').content = [] := by
          have hren : fs.rename (scratchName name) name = fs.move (scratchName name) name ino' hname' := by
            unfold LocalFs.rename
            split
            · rename_i hnone
              rw [hname'] at hnone
              cases hnone
            · rename_i i hi
              obtain rfl : i = ino' := Option.some.inj (hi.symm.trans hname')
              rfl
          rw [hren]
          refine ⟨Function.update_self .., ?_, hempty⟩
          simpa only [LocalFs.close, LocalFs.move, Function.update_of_ne hne] using hfile
        obtain ⟨hname₁, hfile₁, hempty₁⟩ := hmoved
        split at hdone
        · obtain rfl := Exec.done.inj hdone
          exact absurd rfl hret
        · rename_i fd' fs₁ hopen
          obtain rfl := Exec.done.inj hdone
          have hat := LocalFs.contentAt_eq_some.mpr ⟨ino', hname₁, hempty₁⟩
          obtain ⟨ino₁, hfree, hname₂, -, rfl⟩ := LocalFs.openFile_contentAt rfl rfl hat hopen
          obtain rfl : ino₁ = ino' := Option.some.inj (hname₂.symm.trans hname₁)
          have hne' : scratch ≠ fd' := by
            rintro rfl
            rw [hfree] at hfile₁
            cases hfile₁
          have hfile₂ : (((fs.rename (scratchName name) name).close fd).bind fd' ino₁ false).files scratch =
              some ⟨ino₁, 0, write⟩ := by
            simpa only [LocalFs.bind, Function.update_of_ne hne'] using hfile₁
          have hstreams := closeStreams_eq source out replies.fclose hfile₂ hempty₁
          simp only [readOnly, hstreams, hrename, if_true]
          exact LocalFs.contentAt_eq_some.mpr ⟨ino₁, hname₁, by
            simp only [LocalFs.close, LocalFs.seek, LocalFs.setContent, Function.update_self]⟩

/-- The scratch file opened next: either the two streams are as they should be, or the scratch file is
the cache file itself, which is then empty. -/
theorem openScratch_streams {raw : Bytes} {proc : Process} {source scratch ino : ℕ} {reply : Option ℕ}
    (hname : fs.names (collapse name) = some ino) (hraw : (fs.inodes ino).content = raw)
    (hscratch : (fs.bind source ino false).openFile proc (scratchName name) createTruncated 0o666 reply =
      some (scratch, fs')) :
    Streams fs' name raw source scratch ∨
      (collapse (scratchName name) = collapse name ∧ fs'.unread source = []) := by
  have hne : source ≠ scratch := by
    rintro rfl
    obtain ⟨hnone, -⟩ := LocalFs.openFile_file hscratch
    simp [LocalFs.bind] at hnone
  have hsource : fs'.files source = some ⟨ino, 0, false⟩ :=
    LocalFs.openFile_files hscratch (Function.update_self ..)
  cases (LocalFs.openFile_outcome hscratch).2 with
  | @existing ino' _ hname' =>
    change fs.names (collapse (scratchName name)) = some ino' at hname'
    by_cases hsame : ino = ino'
    · subst hsame
      right
      refine ⟨fs.names_inj _ _ _ hname' hname, ?_⟩
      simp only [LocalFs.unread, hsource]
      simp [LocalFs.bind, createTruncated, LocalFs.setContent]
    · left
      have hdistinct : collapse (scratchName name) ≠ collapse name := by
        intro heq
        rw [heq, hname] at hname'
        exact hsame (Option.some.inj hname')
      refine ⟨LocalFs.contentAt_eq_some.mpr ⟨ino, hname, ?_⟩, hdistinct, ?_, ino', true,
        Function.update_self .., hname', ?_⟩
      · simpa [LocalFs.bind, createTruncated, LocalFs.setContent, Function.update_of_ne hsame] using hraw
      · simp only [LocalFs.unread, hsource]
        simpa [LocalFs.bind, createTruncated, LocalFs.setContent, Function.update_of_ne hsame] using hraw
      · simp [LocalFs.bind, createTruncated, LocalFs.setContent]
  | created _ hname' _ =>
    change fs.names (collapse (scratchName name)) = none at hname'
    left
    have hdistinct : collapse (scratchName name) ≠ collapse name := by
      intro heq
      rw [heq, hname] at hname'
      cases hname'
    have hold : ino ≠ fs.nextIno := Nat.ne_of_lt (fs.names_lt _ _ hname)
    refine ⟨LocalFs.contentAt_eq_some.mpr ⟨ino, ?_, ?_⟩, hdistinct, ?_, fs.nextIno, true,
      Function.update_self .., Function.update_self .., ?_⟩
    · simpa [LocalFs.bind, LocalFs.create, Function.update_of_ne hdistinct.symm] using hname
    · simpa [LocalFs.bind, LocalFs.create, Function.update_of_ne hold] using hraw
    · simp only [LocalFs.unread, hsource]
      simpa [LocalFs.bind, LocalFs.create, Function.update_of_ne hold] using hraw
    · simp [LocalFs.bind, LocalFs.create]

/-- A decompression that succeeds leaves in the cache file what a download of the object is to leave. -/
theorem handleCompression_content {obj : Obj} {fd : ℕ} {replies : UnpackReplies} {unpacked : Unpacked}
    (hcached : fs.contentAt name = some obj.content) (hopen : (fs.files fd).isSome = true)
    (hdone : handleCompression env fs name fd (obj.metadata.getD Dict.new) replies = .done unpacked)
    (hret : unpacked.ret ≠ -1) :
    ∃ bytes, obj.fetched env replies = some bytes ∧ unpacked.fs.contentAt name = some bytes := by
  unfold handleCompression at hdone
  unfold Obj.fetched Obj.label
  cases hlabel : obj.metadata.getD Dict.new "compression".toList with
  | none =>
    simp only [hlabel] at hdone ⊢
    obtain rfl := Exec.done.inj hdone
    exact ⟨obj.content, rfl, hcached⟩
  | some label =>
    simp only [hlabel] at hdone ⊢
    cases hnone : strncmpEq "none".toList label with
    | true =>
      rw [if_pos hnone] at hdone
      obtain rfl := Exec.done.inj hdone
      exact ⟨obj.content, by simp only [if_true], hcached⟩
    | false =>
      simp only [hnone, Bool.false_eq_true, if_false] at hdone ⊢
      cases hzlib : strncmpEq "zlib".toList label with
      | false =>
        rw [if_pos hzlib] at hdone
        obtain rfl := Exec.done.inj hdone
        exact absurd rfl hret
      | true =>
        simp only [hzlib, Bool.true_eq_false, if_false] at hdone ⊢
        split at hdone
        · obtain rfl := Exec.done.inj hdone
          exact absurd rfl hret
        · rename_i source fs₁ hsource
          obtain ⟨ino, hfree, hname, hcontent, rfl⟩ := LocalFs.openFile_contentAt rfl rfl hcached hsource
          split at hdone
          · obtain rfl := Exec.done.inj hdone
            exact absurd rfl hret
          · rename_i scratch fs₂ hscratch
            obtain ⟨file, hfile⟩ := Option.isSome_iff_exists.mp hopen
            obtain ⟨hfree', -⟩ := LocalFs.openFile_file hscratch
            have hne : scratch ≠ fd := by
              rintro rfl
              rw [LocalFs.openFile_files hsource hfile] at hfree'
              cases hfree'
            rcases openScratch_streams hname hcontent hscratch with hstreams | ⟨-, hempty⟩
            · obtain ⟨out, hunzip, hat⟩ := unpackInto_content hstreams hne hdone hret
              rw [hunzip]
              exact ⟨_, rfl, hat⟩
            · obtain ⟨⟨zret, out⟩, hunzip, hdone⟩ := Exec.bind_eq_done.mp hdone
              rw [hempty] at hunzip
              have hzret : zret ≠ .ok := fun hok => unzip_nil _ _ _ (hok ▸ hunzip)
              simp only [pure] at hdone
              rw [if_pos hzret] at hdone
              obtain rfl := Exec.done.inj hdone
              exact absurd rfl hret

/-- Opening the result of a download. -/
theorem openCopy_content {flags : OpenFlags} {pe pe' : Pentry} {replies : CopyReplies} {unpacked : Unpacked}
    {fd : ℤ} {bytes : Bytes} (htrunc : flags.trunc = false) (hcreat : flags.creat = false)
    (hat : unpacked.ret ≠ -1 → unpacked.fs.contentAt name = some bytes)
    (hdone : openCopy env name flags pe replies unpacked = (fd, fs', pe')) (hfd : fd ≠ -1) :
    unpacked.ret ≠ -1 ∧ ∃ fd' : ℕ, fd = fd' ∧ fs'.OpenAt name fd' flags.write bytes := by
  unfold openCopy at hdone
  split at hdone
  · simp only [Prod.mk.injEq] at hdone
    exact absurd hdone.1.symm hfd
  · rename_i hret
    split at hdone
    · simp only [Prod.mk.injEq] at hdone
      exact absurd hdone.1.symm hfd
    · simp only at hdone
      split at hdone
      · simp only [Prod.mk.injEq] at hdone
        exact absurd hdone.1.symm hfd
      · split at hdone
        · simp only [Prod.mk.injEq] at hdone
          exact absurd hdone.1.symm hfd
        · rename_i closed _ _ _ _ _ hopen
          have hclosed : (unpacked.fs.close closed).contentAt name = some bytes := hat hret
          obtain ⟨ino, -, hname, hcontent, rfl⟩ := LocalFs.openFile_contentAt htrunc hcreat hclosed hopen
          simp only [Prod.mk.injEq] at hdone
          obtain ⟨rfl, rfl, -⟩ := hdone
          exact ⟨hret, _, rfl, ino, hname, Function.update_self .., hcontent⟩

/-- Fetching the content provides a descriptor at the start of a cache file that has it. -/
theorem fetchCopy_content {r : Remote} {pe pe' : Pentry} {path : CStr} {flags : OpenFlags} {metadata : Dict}
    {replies : CopyReplies} {fd : ℤ} (htrunc : flags.trunc = false) (hcreat : flags.creat = false)
    (h : fetchCopy env fs r pe path flags metadata replies = .done (fd, fs', pe')) (hfd : fd ≠ -1) :
    ∃ obj bytes, ∃ fd' : ℕ, r.lookup path = some obj ∧ obj.fetched env replies.unpack = some bytes ∧
      fd = fd' ∧ fs.files fd' = none ∧ fs'.OpenAt (copyName env.conf path) fd' flags.write bytes := by
  have hfree := (fetchCopy_frame (N := fun _ => True) trivial (fun _ _ _ => trivial) h).2
  unfold fetchCopy at h
  simp only at h
  generalize (if (replies.access && (fs.resolve (copyName env.conf path)).isSome) = true then
    fs.unlink (copyName env.conf path) replies.unlink else fs) = fs₁ at h
  split at h
  · simp only [Exec.done.injEq, Prod.mk.injEq] at h
    exact absurd h.1.symm hfd
  · rename_i download fs₂ hcreate
    rw [checkEncryptionFlag_eq_false] at h
    cases hread : dplOpenread env.cipher r path false fs₂ download metadata replies.openread with
    | mk status rest =>
      obtain ⟨fs₃, metadata'⟩ := rest
      rw [hread] at h
      simp only at h
      split at h
      · simp only [Exec.done.injEq, Prod.mk.injEq] at h
        exact absurd h.1.symm hfd
      · rename_i hstatus
        simp only [ne_eq, not_not] at hstatus
        subst hstatus
        obtain ⟨obj, hlookup, rfl, rfl⟩ := dplOpenread_success hread
        obtain ⟨unpacked, hunpack, hdone⟩ := Exec.bind_eq_done.mp h
        obtain ⟨hcached, hopen⟩ := LocalFs.openFile_append rfl hcreate obj.content
        by_cases hret : unpacked.ret = -1
        · have hfailed := Exec.done.inj hdone
          rw [openCopy, if_pos hret] at hfailed
          simp only [Prod.mk.injEq] at hfailed
          exact absurd hfailed.1.symm hfd
        · obtain ⟨bytes, hfetched, hat⟩ := handleCompression_content hcached hopen hunpack hret
          obtain ⟨-, fd', hfd', hopenAt⟩ := openCopy_content htrunc hcreat (fun _ => hat) (Exec.done.inj hdone) hfd
          exact ⟨obj, bytes, fd', hlookup, hfetched, hfd', hfree fd' hfd', hopenAt⟩

/-- A local copy that provides another descriptor than the one of the entry is a download of the object. -/
theorem dfsGetLocalCopy_content {r : Remote} {pe pe' : Pentry} {path : CStr} {flags : OpenFlags}
    {replies : CopyReplies} {fd : ℤ} (htrunc : flags.trunc = false) (hcreat : flags.creat = false)
    (h : dfsGetLocalCopy env fs r pe path flags replies = .done (fd, fs', pe')) (hpe : fd ≠ pe.fd)
    (hfd : fd ≠ -1) :
    ∃ obj bytes, ∃ fd' : ℕ, r.lookup path = some obj ∧ obj.fetched env replies.unpack = some bytes ∧
      fd = fd' ∧ fs.files fd' = none ∧ fs'.OpenAt (copyName env.conf path) fd' flags.write bytes := by
  unfold dfsGetLocalCopy at h
  split at h
  · simp only [Exec.done.injEq, Prod.mk.injEq] at h
    exact absurd h.1.symm hfd
  · rename_i headers _
    split at h
    · simp only [Exec.done.injEq, Prod.mk.injEq] at h
      exact absurd h.1.symm hfd
    · split at h
      · simp only [Exec.done.injEq, Prod.mk.injEq] at h
        exact absurd h.1.symm hfd
      · obtain ⟨stored, hstored⟩ :=
          pe.setMetadata_eq (getMetadataFromHeaders replies.extract headers) replies.setMetadata
        simp only at h
        rw [hstored] at h
        split at h
        · simp only [Exec.done.injEq, Prod.mk.injEq] at h
          exact absurd h.1.symm hfd
        · obtain ⟨digest, hdigest⟩ :=
            compareDigests_eq { pe with metadata := stored } headers replies.junkDigest
          rw [hdigest] at h
          split at h
          · simp only [Exec.done.injEq, Prod.mk.injEq] at h
            exact absurd h.1.symm hpe
          · exact fetchCopy_content htrunc hcreat h hfd

end Content

end Dropletfs
