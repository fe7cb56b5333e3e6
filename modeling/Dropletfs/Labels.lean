import Dropletfs.Stored

/-!
# Labels of uploads under failure

A compression step that fails makes `dfs_release` send the file as it is, without a label. Two steps are
not checked: what `fflush` could not write is missing from the stream that is sent, and a stream that was
not rewound is sent from its end. Where the name of the scratch file is cut down to that of the cache
file, opening it empties the cache file before it is compressed.
-/

namespace Dropletfs

/-- What is left of a cache file for a compression to read: nothing, if the scratch file has its name. -/
def keptContent (name : CStr) (content : Bytes) : Bytes :=
  if collapse (scratchName name) = collapse name then [] else content

/-- The scratch file can be opened next to the cache file. -/
def ReleaseReplies.OpensScratch (fs : LocalFs) (replies : ReleaseReplies) : Prop :=
  ∃ fd, replies.fopenScratch = some fd ∧ fs.files fd = none ∧ replies.fopenSource ≠ some fd

/-- A compression that returned this goes on to send the scratch file. -/
def ReleaseReplies.Compresses (replies : ReleaseReplies) (zret : ZRet) : Prop :=
  zret = .ok ∧ replies.fileno = true ∧ replies.fstatScratch = true ∧ replies.update = .success

/-- A compression that is sent compressed the content, was written out as a whole and is read from its
start; one that is not sent left the content in the cache file. -/
def PreservesContent (env : Env) (fs : LocalFs) (name : CStr) (content : Bytes) (replies : ReleaseReplies) :
    Prop :=
  env.conf.usesZlib = true → replies.OpensScratch fs → ∀ zret out,
    zip env.zlib env.conf.zlibLevel (keptContent name content) replies.zip = .done (zret, out) →
      (replies.Compresses zret → keptContent name content = content ∧ flushed replies.fflush out = out ∧
        replies.lseekScratch = true) ∧
      (¬ replies.Compresses zret → collapse (scratchName name) = collapse name →
        flushed replies.fflush out = content)

/-- What reaches a file of a buffered output is a part of it. -/
theorem flushed_part (reply : Option ℕ) (out : Bytes) : flushed reply out <+: out := by
  cases reply with
  | none => exact List.prefix_rfl
  | some count => exact List.take_prefix count out

/-- An object that was stored decodes to a content exactly when its bytes stand for the content. -/
theorem storedObject_decoded_iff {env : Env} {dict : Dict} {bytes content : Bytes} (replies : ReleaseReplies)
    (hlabel : dict "compression".toList = none ∨ dict "compression".toList = some "zlib".toList) :
    (storedObject env dict bytes replies).decoded env = some content ↔ Stands env content dict bytes := by
  constructor
  · intro h
    have hnone : strncmpEq "none".toList "zlib".toList = false := by decide
    have hmatch : strncmpEq "zlib".toList "zlib".toList = true := by decide
    have hsame : Obj.label { storedObject env dict bytes replies with
        content := (storedObject env dict bytes replies).deciphered env } = dict "compression".toList :=
      storedObject_label env dict bytes replies
    unfold Obj.decoded Obj.fetched at h
    rw [hsame, storedObject_deciphered] at h
    cases hlabel with
    | inl hplain =>
      simp only [hplain, Option.some.injEq] at h
      exact h ▸ .plain hplain
    | inr hzlib =>
      simp only [hzlib, hnone, hmatch, Bool.false_eq_true, Bool.true_eq_false, if_false] at h
      split at h
      · rename_i out hunzip
        simp only [UnpackReplies.granted, flushed, if_true, Option.some.injEq] at h hunzip
        exact .zlib hzlib (h ▸ hunzip)
      · cases h
  · exact fun h => h.decoded replies

section Streams

variable {env : Env} {fs fs₁ fs₂ : LocalFs} {name : CStr}

/-- The two streams of a compression: an empty scratch file, and the cache file, which is the same file when the
names are the same. -/
theorem openStreams {proc : Process} {ino source scratch : ℕ} {reply reply' : Option ℕ}
    (hname : fs.names (collapse name) = some ino)
    (hsource : fs.openFile proc name readOnly 0o666 reply = some (source, fs₁))
    (hscratch : fs₁.openFile proc (scratchName name) createTruncated 0o666 reply' = some (scratch, fs₂)) :
    ∃ zino, fs₂.files scratch = some ⟨zino, 0, true⟩ ∧ (fs₂.inodes zino).content = [] ∧
      fs₂.unread source = keptContent name (fs.inodes ino).content ∧
      (zino = ino ↔ collapse (scratchName name) = collapse name) ∧
      (fs₂.inodes ino).content = keptContent name (fs.inodes ino).content := by
  obtain ⟨ino', -, hname', rfl⟩ := LocalFs.openFile_plain rfl rfl hsource
  obtain rfl : ino' = ino := Option.some.inj (hname'.symm.trans hname)
  have hfile : fs₂.files source = some ⟨ino', 0, false⟩ :=
    LocalFs.openFile_files hscratch (Function.update_self ..)
  have hunread : fs₂.unread source = (fs₂.inodes ino').content := by
    simp only [LocalFs.unread, hfile, List.drop_zero]
  -- the content of the cache file is all that depends on the names
  suffices hopened : ∃ zino, fs₂.files scratch = some ⟨zino, 0, true⟩ ∧ (fs₂.inodes zino).content = [] ∧
      (zino = ino' ↔ collapse (scratchName name) = collapse name) ∧
      (fs₂.inodes ino').content = keptContent name (fs.inodes ino').content by
    obtain ⟨zino, hzfile, hempty, hsame, hkept⟩ := hopened
    exact ⟨zino, hzfile, hempty, hunread.trans hkept, hsame, hkept⟩
  cases (LocalFs.openFile_outcome hscratch).2 with
  | @existing zino _ hzname =>
    change fs.names (collapse (scratchName name)) = some zino at hzname
    have hsame : zino = ino' ↔ collapse (scratchName name) = collapse name := by
      constructor
      · rintro rfl
        exact fs.names_inj _ _ _ hzname hname
      · intro heq
        rw [heq, hname] at hzname
        exact (Option.some.inj hzname).symm
    refine ⟨zino, Function.update_self .., ?_, hsame, ?_⟩
    · simp [LocalFs.bind, createTruncated, LocalFs.setContent]
    · by_cases heq : collapse (scratchName name) = collapse name
      · obtain rfl := hsame.mpr heq
        simp [keptContent, heq, LocalFs.bind, createTruncated, LocalFs.setContent]
      · have hother : ino' ≠ zino := fun hino => heq (hsame.mp hino.symm)
        simp [keptContent, heq, LocalFs.bind, createTruncated, LocalFs.setContent, Function.update_of_ne hother]
  | created _ hzname _ =>
    change fs.names (collapse (scratchName name)) = none at hzname
    have hdistinct : collapse (scratchName name) ≠ collapse name := by
      intro heq
      rw [heq, hname] at hzname
      cases hzname
    have hold : ino' ≠ fs.nextIno := Nat.ne_of_lt (fs.names_lt _ _ hname)
    refine ⟨fs.nextIno, Function.update_self .., ?_,
      ⟨fun heq => absurd heq.symm hold, fun heq => absurd heq hdistinct⟩, ?_⟩
    · simp [LocalFs.bind, LocalFs.create]
    · rw [keptContent, if_neg hdistinct]
      simp [LocalFs.bind, LocalFs.create, Function.update_of_ne hold]

/-- The scratch file can be opened when a descriptor is left for it. -/
theorem opensScratch_iff {proc : Process} {source : ℕ} {replies : ReleaseReplies}
    (hsource : fs.openFile proc name readOnly 0o666 replies.fopenSource = some (source, fs₁)) :
    replies.OpensScratch fs ↔
      (fs₁.openFile proc (scratchName name) createTruncated 0o666 replies.fopenScratch).isSome = true := by
  have hreply := (LocalFs.openFile_outcome hsource).1
  obtain ⟨ino, -, -, rfl⟩ := LocalFs.openFile_plain rfl rfl hsource
  unfold ReleaseReplies.OpensScratch LocalFs.openFile
  cases hscratch : replies.fopenScratch with
  | none => simp
  | some fd =>
    simp only [Option.some.injEq, exists_eq_left', hreply]
    by_cases hfd : source = fd
    · simp [hfd, LocalFs.bind]
    · have hfree : (fs.bind source ino readOnly.write).files fd = fs.files fd :=
        Function.update_of_ne (Ne.symm hfd) ..
      have hother : some source ≠ some fd := fun heq => hfd (Option.some.inj heq)
      simp only [hfree, hother, ne_eq, not_false_eq_true, and_true]
      cases fs.files fd with
      | none =>
        simp only [Option.isSome_none, Bool.false_eq_true, if_false, true_iff]
        split
        · rfl
        · rfl
      | some file => simp

/-- What compressing leaves: the descriptor of a labelled stream, or the file as it is. -/
theorem compressBeforeSending_sent {zino source scratch : ℕ} {dict : Dict} {replies : ReleaseReplies}
    {z : Compressed} (hfile : fs.files scratch = some ⟨zino, 0, true⟩) (hempty : (fs.inodes zino).content = [])
    (h : compressBeforeSending env fs source scratch dict replies = .done z) :
    ∃ zret out, zip env.zlib env.conf.zlibLevel (fs.unread source) replies.zip = .done (zret, out) ∧
      ((replies.Compresses zret ∧ z.fd = scratch ∧
          z.dict = dict.updateValue "compression".toList "zlib".toList ∧
          z.size = (flushed replies.fflush out).length ∧
          z.fs.unread scratch = if replies.lseekScratch then flushed replies.fflush out else []) ∨
        (¬ replies.Compresses zret ∧ z.fd = 0 ∧ z.dict = dict ∧
          ∀ fd, fd ≠ scratch →
            z.fs.unread fd = (fs.append scratch (flushed replies.fflush out)).unread fd)) := by
  obtain ⟨⟨zret, out⟩, hzip, h⟩ := Exec.bind_eq_done.mp h
  refine ⟨zret, out, hzip, ?_⟩
  have hwritten := LocalFs.append_empty (flushed replies.fflush out) hfile hempty
  simp only [pure, hwritten] at h ⊢
  split at h
  · rename_i hfailed
    obtain rfl := Exec.done.inj h
    refine .inr ⟨?_, rfl, rfl, fun _ _ => rfl⟩
    rintro ⟨hok, hfileno, hfstat, -⟩
    simp only [hok, hfileno, hfstat, ne_eq, not_true_eq_false, Bool.true_eq_false, or_self] at hfailed
  · rename_i hok
    simp only [ne_eq, not_or, not_not, Bool.not_eq_false] at hok
    split at h
    · rename_i hupdate
      obtain rfl := Exec.done.inj h
      refine .inr ⟨fun hcompresses => hupdate hcompresses.2.2.2, rfl, rfl, ?_⟩
      intro fd hfd
      split
      · simp only [LocalFs.unread, LocalFs.seek, Function.update_of_ne hfd]
      · rfl
    · rename_i hupdate
      simp only [ne_eq, not_not] at hupdate
      obtain rfl := Exec.done.inj h
      refine .inl ⟨⟨hok.1, hok.2.1, hok.2.2, hupdate⟩, rfl, rfl, ?_, ?_⟩
      · simp [LocalFs.fdContent, LocalFs.seek, LocalFs.setContent, hfile]
      · split
        · simp [LocalFs.unread, LocalFs.seek, LocalFs.setContent, hfile]
        · simp [LocalFs.unread, LocalFs.seek, LocalFs.setContent, hfile]

end Streams

section Pack

variable {env : Env} {fs : LocalFs} {name : CStr} {content : Bytes} {dict : Dict} {replies : ReleaseReplies}

/-- zlib as the compression of a content relies on it: the stream inflates to the content, and does not end before
its end. -/
def Zlib.Compresses (env : Env) (content : Bytes) : Prop :=
  env.zlib.Undoes env.conf.zlibLevel content ∧
    ∀ stream, zip env.zlib env.conf.zlibLevel content .clean = .done (.ok, stream) → env.zlib.Whole stream

/-- A labelled stream stands for the content exactly when it is a whole stream made of the content. -/
theorem stands_compressed_iff {kept out : Bytes} (hzlib : Zlib.Compresses env kept)
    (hzip : zip env.zlib env.conf.zlibLevel kept replies.zip = .done (.ok, out)) :
    Stands env content (dict.updateValue "compression".toList "zlib".toList)
        (if replies.lseekScratch then flushed replies.fflush out else []) ↔
      kept = content ∧ flushed replies.fflush out = out ∧ replies.lseekScratch = true := by
  have hlabel : dict.updateValue "compression".toList "zlib".toList "compression".toList = some "zlib".toList :=
    Function.update_self ..
  have hinflates := zip_ok_inflates hzlib.1 hzip
  have hwhole := hzlib.2 out (zip_clean hzip)
  have hunzip : unzip env.zlib out .clean = .done (.ok, kept) :=
    unzip_inflates hinflates hzlib.1.inflateInit (fun _ => rfl) fun _ => rfl
  constructor
  · intro h
    generalize hsent : (if replies.lseekScratch then flushed replies.fflush out else []) = sent at h
    cases h with
    | plain hnone =>
      rw [hlabel] at hnone
      cases hnone
    | zlib _ hcontent =>
      cases hseek : replies.lseekScratch with
      | false =>
        simp only [hseek, Bool.false_eq_true, if_false] at hsent
        exact absurd (hsent ▸ hcontent) (unzip_nil _ _ _)
      | true =>
        simp only [hseek, if_true] at hsent
        by_cases hall : flushed replies.fflush out = out
        · rw [← hsent, hall, hunzip] at hcontent
          exact ⟨congrArg Prod.snd (Exec.done.inj hcontent), hall, rfl⟩
        · exact absurd (hsent ▸ hcontent)
            (unzip_short hinflates hwhole (flushed_part replies.fflush out) hall content)
  · rintro ⟨rfl, hall, hseek⟩
    rw [if_pos hseek, hall]
    exact .zlib hlabel hunzip

/-- What is chosen to be sent has the announced size and stands for the content exactly under these conditions. -/
theorem pack_stands_iff {fd : ℕ} {file : OpenFile} {packed : Packed} {outgoing : Outgoing}
    (hfile : fs.files fd = some file) (hoffset : file.offset = 0)
    (hname : fs.names (collapse name) = some file.ino) (hcontent : (fs.inodes file.ino).content = content)
    (hlabel : dict "compression".toList = none) (hpositive : replies.fopenScratch ≠ some 0)
    (hzlib : env.compresses = true → Zlib.Compresses env (keptContent name content))
    (h : pack env fs name ⟨fd, content.length, dict⟩ replies = .done packed)
    (houtgoing : packed.outgoing = some outgoing) :
    (outgoing.dict "compression".toList = none ∨ outgoing.dict "compression".toList = some "zlib".toList) ∧
      (outgoing.size = (packed.fs.unread outgoing.fd).length ∧
          Stands env content outgoing.dict (packed.fs.unread outgoing.fd) ↔
        PreservesContent env fs name content replies) := by
  -- an upload of the file as it is
  have hplain : ∀ fs', outgoing = ⟨fd, content.length, dict⟩ → packed.fs = fs' →
      (outgoing.dict "compression".toList = none ∨ outgoing.dict "compression".toList = some "zlib".toList) ∧
      (outgoing.size = (packed.fs.unread outgoing.fd).length ∧
          Stands env content outgoing.dict (packed.fs.unread outgoing.fd) ↔ fs'.unread fd = content) := by
    rintro fs' rfl rfl
    refine ⟨.inl hlabel, ?_⟩
    constructor
    · rintro ⟨-, hstands⟩
      generalize packed.fs.unread fd = sent at hstands ⊢
      cases hstands with
      | plain => rfl
      | zlib hzlib =>
        have hnone : dict "compression".toList = some "zlib".toList := hzlib
        rw [hlabel] at hnone
        cases hnone
    · intro hsent
      rw [hsent]
      exact ⟨rfl, .plain hlabel⟩
  unfold pack at h
  split at h
  · rename_i huses
    obtain rfl := Exec.done.inj h
    obtain ⟨hdict, hiff⟩ := hplain fs (Option.some.inj houtgoing).symm rfl
    refine ⟨hdict, hiff.trans ⟨fun _ hcompresses => ?_, fun _ => ?_⟩⟩
    · rw [huses] at hcompresses
      cases hcompresses
    · simp only [LocalFs.unread, hfile, hoffset, List.drop_zero, hcontent]
  · rename_i huses
    simp only [Bool.not_eq_false] at huses
    simp only at h
    split at h
    · obtain rfl := Exec.done.inj h
      cases houtgoing
    · rename_i source fs₁ hsource
      have hopens := opensScratch_iff hsource
      split at h
      · rename_i hnone
        obtain rfl := Exec.done.inj h
        obtain ⟨hdict, hiff⟩ := hplain fs₁ (Option.some.inj houtgoing).symm rfl
        refine ⟨hdict, hiff.trans ⟨fun _ _ hscratch => ?_, fun _ => ?_⟩⟩
        · rw [hopens, hnone] at hscratch
          cases hscratch
        · obtain ⟨ino, -, hname', rfl⟩ := LocalFs.openFile_plain rfl rfl hsource
          simp only [LocalFs.unread, LocalFs.openFile_files hsource hfile, hoffset, List.drop_zero]
          exact hcontent
      · rename_i scratch fs₂ hscratch
        have hscratchOpens : replies.OpensScratch fs := by
          rw [hopens, hscratch]
          rfl
        obtain ⟨zino, hzfile, hempty, hread, hsame, hkept⟩ := openStreams hname hsource hscratch
        obtain ⟨z, hz, h⟩ := Exec.bind_eq_done.mp h
        obtain ⟨zret, out, hzip, hsent⟩ := compressBeforeSending_sent hzfile hempty hz
        rw [hread, hcontent] at hzip
        have hpreserves : PreservesContent env fs name content replies ↔
            (replies.Compresses zret → keptContent name content = content ∧ flushed replies.fflush out = out ∧
              replies.lseekScratch = true) ∧
            (¬ replies.Compresses zret → collapse (scratchName name) = collapse name →
              flushed replies.fflush out = content) := by
          constructor
          · intro hall
            exact hall huses hscratchOpens zret out hzip
          · intro hone _ _ zret' out' hzip'
            obtain ⟨rfl, rfl⟩ := Prod.mk.inj (Exec.done.inj (hzip.symm.trans hzip'))
            exact hone
        rw [hpreserves]
        rcases hsent with ⟨hcompresses, hfd, hdict, hsize, hunread⟩ | ⟨hplainly, hfd, hdict, hunread⟩
        · -- the stream is sent, on a descriptor other than zero
          have hpos : 0 < z.fd := by
            have hreply := (LocalFs.openFile_outcome hscratch).1
            rw [hfd]
            refine Nat.pos_of_ne_zero fun hzero => hpositive ?_
            rw [hreply, hzero]
          simp only [pure, hpos, if_true] at h
          obtain rfl := Exec.done.inj h
          obtain rfl := Option.some.inj houtgoing
          simp only [hcompresses, true_imp_iff, not_true_eq_false, false_imp_iff, and_true, hfd, hdict, hunread,
            hsize]
          refine ⟨.inr (Function.update_self ..), ?_⟩
          obtain rfl := hcompresses.1
          have hreliable := hzlib (Env.compresses_eq.mpr ⟨huses, zip_ok_init hzip⟩)
          constructor
          · rintro ⟨-, hstands⟩
            exact (stands_compressed_iff hreliable hzip).mp hstands
          · intro hall
            exact ⟨by rw [if_pos hall.2.2], (stands_compressed_iff hreliable hzip).mpr hall⟩
        · have hzero : ¬ 0 < z.fd := by omega
          simp only [pure, hzero, if_false, hdict] at h
          obtain rfl := Exec.done.inj h
          obtain ⟨hlabels, hiff⟩ := hplain z.fs (Option.some.inj houtgoing).symm rfl
          refine ⟨hlabels, hiff.trans ?_⟩
          simp only [hplainly, false_imp_iff, not_false_eq_true, true_imp_iff, true_and]
          have hfile₁ := LocalFs.openFile_files hsource hfile
          have hne : fd ≠ scratch := by
            rintro rfl
            rw [(LocalFs.openFile_file hscratch).1] at hfile₁
            cases hfile₁
          have hleft : z.fs.unread fd =
              ((fs₂.setContent zino (flushed replies.fflush out)).inodes file.ino).content := by
            rw [hunread fd hne, LocalFs.append_empty _ hzfile hempty]
            simp only [LocalFs.unread, LocalFs.seek, Function.update_of_ne hne, LocalFs.setContent,
              LocalFs.openFile_files hscratch hfile₁, hoffset, List.drop_zero]
          rw [hleft]
          by_cases heq : collapse (scratchName name) = collapse name
          · obtain rfl := hsame.mpr heq
            simp only [LocalFs.setContent, Function.update_self, heq, true_imp_iff]
          · have hino : file.ino ≠ zino := fun h => heq (hsame.mp h.symm)
            simp only [LocalFs.setContent, Function.update_of_ne hino, hkept, hcontent, keptContent, heq, if_false,
              false_imp_iff]

end Pack

/-- The size that `fstat` reports is that of the content. -/
theorem LocalFs.fstat_size {fs : LocalFs} {fd : ℤ} {reply : Option FileTimes} {st : Stat} {file : OpenFile}
    (hfile : fs.files fd.toNat = some file) (h : fs.fstat fd reply = some st) :
    st.size = (fs.inodes file.ino).content.length := by
  obtain ⟨file', times, -, hopen, -, -, rfl⟩ := fstat_eq_some.mp h
  obtain rfl : file = file' := Option.some.inj (hfile.symm.trans hopen)
  rfl

/-- A release that uploads a cache file with success announces the number of bytes it sends, and stores an
object that decodes to the content of the cache file, exactly when the compression preserves the content. -/
theorem release_labelled_iff {env : Env} {w : World} {addr : ℕ} {path : CStr} {pe : Pentry} {file : OpenFile}
    {content : Bytes} {flags : BitVec 32} {replies : ReleaseReplies} {released : Released}
    (hcached : w.Cached env addr path pe file content) (hflags : isRdonly flags = false)
    (hexclude : pe.exclude = false) (hpositive : replies.fopenScratch ≠ some 0)
    (hzlib : env.compresses = true → Zlib.Compresses env (keptContent (cacheName env.conf path) content))
    (h : dfsRelease env w addr path flags replies = .done released) (hret : released.ret = 0) :
    (∃ obj size, released.world.remote.lookup path = some obj ∧
        released.world.trace = w.trace ++ [.openwrite path env.conf.usesAes size] ∧
        size = (obj.deciphered env).length ∧ obj.decoded env = some content) ↔
      PreservesContent env w.fs (cacheName env.conf path) content replies := by
  have hsame : ∀ {pe'}, w.heap addr = some pe' → pe' = pe := fun hheap =>
    Option.some.inj (hheap.symm.trans hcached.holds.heap)
  cases dfsRelease_outcome h with
  | unusable => simp at hret
  | readOnly _ _ _ hrdonly => rw [hflags] at hrdonly; cases hrdonly
  | excluded hheap _ _ _ hexcluded => rw [hsame hheap, hexclude] at hexcluded; cases hexcluded
  | @uploaded pe' _ st ok w' hheap hstat _ _ _ hupload =>
    obtain rfl := hsame hheap
    cases ok with
    | false => simp at hret
    | true =>
      obtain ⟨packed, hpack, hpushed, rfl⟩ := upload_eq_done hupload
      have hsize : st.size.toNat = content.length := by
        rw [LocalFs.fstat_size hcached.holds.isOpen hstat, hcached.holds.content, Int.toNat_natCast]
      rw [hsize] at hpack
      cases houtgoing : packed.outgoing with
      | none => simp [pushPacked, houtgoing] at hpushed
      | some outgoing =>
        simp only [pushPacked, houtgoing] at hpushed ⊢
        obtain ⟨hlabel, hiff⟩ := pack_stands_iff hcached.holds.isOpen hcached.holds.offset hcached.name
          hcached.holds.content (fillMetadataFromStat_other _ _ _ (by decide)) hpositive hzlib hpack houtgoing
        simp only [World.put, push_success hpushed.symm, push_trace, AList.lookup_insert, Option.some.injEq,
          List.append_cancel_left_eq, List.cons.injEq, Event.openwrite.injEq, true_and, and_true]
        rw [← hiff]
        constructor
        · rintro ⟨obj, size, rfl, rfl, hbytes, hdecoded⟩
          rw [storedObject_deciphered] at hbytes
          exact ⟨hbytes, (storedObject_decoded_iff replies hlabel).mp hdecoded⟩
        · rintro ⟨hbytes, hstands⟩
          refine ⟨_, _, rfl, rfl, ?_, hstands.decoded replies⟩
          rw [storedObject_deciphered]
          exact hbytes

/-- Compressing the letter makes a stream with an end of its own. -/
theorem zipping_compresses : Zlib.Compresses .zipping [65] := by
  refine ⟨Zlib.onFile_undoes _ (by decide), fun stream hzip => ?_⟩
  have hstream : zip Env.zipping.zlib Env.zipping.conf.zlibLevel [65] .clean = .done (.ok, letterStream) := rfl
  obtain rfl : letterStream = stream := congrArg Prod.snd (Exec.done.inj (hstream.symm.trans hzip))
  exact Zlib.onFile_whole

/-- A file of one letter is compressed and uploaded. -/
theorem release_labelled_letter :
    ∃ (opened : Opened) (w : World) (pe : Pentry) (file : OpenFile) (released : Released),
      dfsOpen .zipping (.start .empty ∅) "/f".toList oWronly (.granted 3) = .done opened ∧
      dfsWrite opened.world 0 [65] 0 ⟨some 1, 1, Nat.one_pos⟩ = .done (1, w) ∧
      w.Cached .zipping 0 "/f".toList pe file [65] ∧
      dfsRelease .zipping w 0 "/f".toList oWronly (.granted 4) = .done released ∧
      ((∃ obj size, released.world.remote.lookup "/f".toList = some obj ∧
        released.world.trace = w.trace ++ [.openwrite "/f".toList false size] ∧
        size = (obj.deciphered .zipping).length ∧ obj.decoded .zipping = some [65]) ↔
      PreservesContent .zipping w.fs (cacheName Env.zipping.conf "/f".toList) [65] (.granted 4)) := by
  have hkept : keptContent (cacheName Env.zipping.conf "/f".toList) [65] = [65] := by decide
  refine ⟨_, _, _, _, _, rfl, rfl, ⟨⟨rfl, by decide, rfl, rfl, rfl⟩, rfl⟩, rfl, ?_⟩
  exact @release_labelled_iff .zipping _ 0 "/f".toList _ _ [65] oWronly (.granted 4) ⟨0, _⟩
    ⟨⟨rfl, Int.natCast_nonneg 3, rfl, rfl, rfl⟩, rfl⟩ rfl rfl (by decide)
    (fun _ => by rw [hkept]; exact zipping_compresses) rfl rfl

/-- When `fflush` writes a part of the stream, that part is uploaded with a label, and the release succeeds. -/
theorem release_mislabels_part :
    ∃ (opened : Opened) (w : World) (pe : Pentry) (file : OpenFile) (released : Released),
      dfsOpen .zipping (.start .empty ∅) "/f".toList oWronly (.granted 3) = .done opened ∧
      dfsWrite opened.world 0 [65] 0 ⟨some 1, 1, Nat.one_pos⟩ = .done (1, w) ∧
      w.Cached .zipping 0 "/f".toList pe file [65] ∧
      dfsRelease .zipping w 0 "/f".toList oWronly { ReleaseReplies.granted 4 with fflush := some 4 } =
        .done released ∧ released.ret = 0 ∧
      ¬ ∃ obj size, released.world.remote.lookup "/f".toList = some obj ∧
        released.world.trace = w.trace ++ [.openwrite "/f".toList false size] ∧
        size = (obj.deciphered .zipping).length ∧ obj.decoded .zipping = some [65] := by
  refine ⟨_, _, _, _, _, rfl, rfl, ⟨⟨rfl, by decide, rfl, rfl, rfl⟩, rfl⟩, rfl, rfl, ?_⟩
  rintro ⟨obj, size, hlookup, -, -, hdecoded⟩
  obtain rfl := Option.some.inj hlookup
  cases (show (none : Option Bytes) = some [65] from hdecoded)

end Dropletfs
