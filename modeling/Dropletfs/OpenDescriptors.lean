import Dropletfs.Progress
import Mathlib.Order.BooleanAlgebra.Set

/-!
# The descriptors that are open

A download opens descriptors for itself, its streams and its result, and closes all but the
last, unless a decompression fails with the descriptor of the download still open. An upload
closes what it opened. `open_creat` stores a new descriptor and closes none.
-/

namespace Dropletfs

namespace LocalFs

/-- The descriptors that are open. -/
def opened (fs : LocalFs) : Set ℕ := {fd | (fs.files fd).isSome = true}

/-- A descriptor is open when it has an open file description. -/
theorem mem_opened {fs : LocalFs} {fd : ℕ} : fd ∈ fs.opened ↔ (fs.files fd).isSome = true := Iff.rfl

/-- A descriptor is not open when it has none. -/
theorem not_mem_opened {fs : LocalFs} {fd : ℕ} : fd ∉ fs.opened ↔ fs.files fd = none := by
  rw [mem_opened, Bool.not_eq_true, Option.isSome_eq_false_iff, Option.isNone_iff_eq_none]

/-- What is open depends on the descriptors only. -/
theorem opened_of_files {fs fs' : LocalFs} (h : fs'.files = fs.files) : fs'.opened = fs.opened := by
  unfold opened
  rw [h]

/-- Binding a descriptor opens it. -/
theorem bind_opened (fs : LocalFs) (fd ino : ℕ) (write : Bool) :
    (fs.bind fd ino write).opened = insert fd fs.opened := by
  ext other
  simp only [Set.mem_insert_iff, mem_opened, bind, Function.update_apply]
  split
  · simp [*]
  · simp [*]

/-- Closing a descriptor. -/
theorem close_opened (fs : LocalFs) (fd : ℕ) : (fs.close fd).opened = fs.opened \ {fd} := by
  ext other
  simp only [Set.mem_sdiff, Set.mem_singleton_iff, mem_opened, close, Function.update_apply]
  split
  · simp [*]
  · simp [*]

/-- Moving the offset of a descriptor leaves the same descriptors open. -/
theorem seek_opened (fs : LocalFs) (fd offset : ℕ) : (fs.seek fd offset).opened = fs.opened := by
  ext other
  simp only [mem_opened, seek, Function.update_apply]
  split
  · rename_i hother
    rw [hother, Option.isSome_map]
  · rfl

/-- Writing leaves the same descriptors open. -/
theorem append_opened (fs : LocalFs) (fd : ℕ) (data : Bytes) : (fs.append fd data).opened = fs.opened := by
  unfold append
  split
  · rfl
  · exact seek_opened ..

/-- A successful `open` opens a descriptor that was not open. -/
theorem openFile_opened {fs fs' : LocalFs} {proc : Process} {name : CStr} {flags : OpenFlags} {mode : BitVec 32}
    {reply : Option ℕ} {fd : ℕ} (h : fs.openFile proc name flags mode reply = some (fd, fs')) :
    fd ∉ fs.opened ∧ fs'.opened = insert fd fs.opened := by
  cases (openFile_outcome h).2 with
  | existing hfree _ =>
    refine ⟨not_mem_opened.mpr hfree, ?_⟩
    rw [bind_opened]
    split <;> rfl
  | created hfree _ _ => exact ⟨not_mem_opened.mpr hfree, bind_opened ..⟩

/-- An `open` of an existing file, or with `O_CREAT`, fails exactly when it gets no descriptor, or one in use. -/
theorem openFile_eq_none_iff {fs : LocalFs} {proc : Process} {name : CStr} {flags : OpenFlags} {mode : BitVec 32}
    {reply : Option ℕ} (h : (fs.names (collapse name)).isSome = true ∨ flags.creat = true) :
    fs.openFile proc name flags mode reply = none ↔ ∀ fd, reply = some fd → fd ∈ fs.opened := by
  constructor
  · intro hnone fd hreply
    by_contra hfree
    obtain ⟨fs', hopen, -⟩ := openFile_picks proc mode (not_mem_opened.mp hfree) h
    rw [hreply, hopen] at hnone
    cases hnone
  · intro hused
    cases reply with
    | none => rfl
    | some fd => exact if_pos (mem_opened.mp (hused fd rfl))

/-- Closing several descriptors. -/
theorem closeAll_opened (fs : LocalFs) (fds : List ℕ) : (fs.closeAll fds).opened = fs.opened \ {fd | fd ∈ fds} := by
  ext other
  rw [closeAll_eq, Set.mem_sdiff, Set.mem_ofPred_eq, mem_opened, mem_opened]
  simp only
  split
  · simp [*]
  · simp [*]

end LocalFs

/-- Closing the streams of a decompression closes these. -/
theorem closeStreams_opened (fs : LocalFs) (source scratch : ℕ) (out : Bytes) (fclose : Option ℕ) :
    (closeStreams fs source scratch out fclose).opened = (fs.opened \ {source}) \ {scratch} := by
  rw [closeStreams, LocalFs.close_opened, LocalFs.close_opened, LocalFs.append_opened]

/-- A decompression leaves the descriptor of the download open, or puts another in its place, or leaves
none. -/
inductive Exchanged (fs fs' : LocalFs) (download : ℕ) : Option ℕ → Prop
  | one {fd : ℕ} : fd ∉ fs.opened \ {download} → fs'.opened = insert fd (fs.opened \ {download}) →
      Exchanged fs fs' download (some fd)
  | closed : fs'.opened = fs.opened \ {download} → Exchanged fs fs' download none

section Download

variable {env : Env} {fs fs' : LocalFs} {name : CStr}

/-- The descriptor is the one it was. -/
theorem Exchanged.same {download : ℕ} (hopen : download ∈ fs.opened) (h : fs'.opened = fs.opened) :
    Exchanged fs fs' download (some download) := by
  refine .one (fun hmem => hmem.2 rfl) ?_
  rw [h, Set.insert_sdiff_self_of_mem hopen]

/-- Closing the result of a decompression leaves what was open before the download. -/
theorem Exchanged.close {download fd : ℕ} (h : Exchanged fs fs' download (some fd)) :
    (fs'.close fd).opened = fs.opened \ {download} := by
  cases h with
  | one hfree hopened =>
    rw [LocalFs.close_opened, hopened]
    exact Set.insert_sdiff_self_of_notMem hfree

/-- A decompression with both streams open. -/
theorem unpackInto_exchanged {fs₀ : LocalFs} {download source scratch : ℕ} {replies : UnpackReplies}
    {unpacked : Unpacked} (hopen : download ∈ fs₀.opened) (hsource : source ∉ fs₀.opened)
    (hscratch : scratch ∉ fs₀.opened) (hopened : fs.opened = insert scratch (insert source fs₀.opened))
    (h : unpackInto env fs name download source scratch replies = .done unpacked) :
    Exchanged fs₀ unpacked.fs download unpacked.fd := by
  have hstreams : ∀ (fs' : LocalFs) out, fs'.opened = fs.opened →
      (closeStreams fs' source scratch out replies.fclose).opened = fs₀.opened := by
    intro fs' out heq
    rw [closeStreams_opened, heq, hopened]
    ext fd
    simp only [Set.mem_sdiff, Set.mem_insert_iff, Set.mem_singleton_iff]
    grind
  obtain ⟨⟨zret, out⟩, -, hdone⟩ := Exec.bind_eq_done.mp h
  simp only [pure] at hdone
  split at hdone
  · obtain rfl := Exec.done.inj hdone
    exact .same hopen (hstreams fs out rfl)
  · split at hdone
    · obtain rfl := Exec.done.inj hdone
      exact .same hopen (hstreams fs out rfl)
    · split at hdone
      · obtain rfl := Exec.done.inj hdone
        exact .same hopen (hstreams fs out rfl)
      · have hclosed : ((fs.rename (scratchName name) name).close download).opened = fs.opened \ {download} := by
          rw [LocalFs.close_opened, LocalFs.opened_of_files (LocalFs.rename_files ..)]
        split at hdone
        · obtain rfl := Exec.done.inj hdone
          apply Exchanged.closed
          simp only
          rw [closeStreams_opened, hclosed, hopened]
          ext fd
          simp only [Set.mem_sdiff, Set.mem_insert_iff, Set.mem_singleton_iff]
          grind
        · rename_i again fs₁ hreopen
          obtain rfl := Exec.done.inj hdone
          obtain ⟨hfree, hreopened⟩ := LocalFs.openFile_opened hreopen
          rw [hclosed, hopened] at hfree hreopened
          simp only [Set.mem_sdiff, Set.mem_insert_iff, Set.mem_singleton_iff] at hfree
          refine .one ?_ ?_
          · rw [Set.mem_sdiff, Set.mem_singleton_iff]
            grind
          · simp only
            rw [closeStreams_opened, hreopened]
            ext fd
            simp only [Set.mem_sdiff, Set.mem_insert_iff, Set.mem_singleton_iff]
            grind

/-- A decompression of a download. -/
theorem handleCompression_exchanged {download : ℕ} {metadata : Dict} {replies : UnpackReplies} {unpacked : Unpacked}
    (hopen : download ∈ fs.opened) (h : handleCompression env fs name download metadata replies = .done unpacked) :
    Exchanged fs unpacked.fs download unpacked.fd := by
  unfold handleCompression at h
  split at h
  · obtain rfl := Exec.done.inj h
    exact .same hopen rfl
  · split at h
    · obtain rfl := Exec.done.inj h
      exact .same hopen rfl
    · split at h
      · obtain rfl := Exec.done.inj h
        exact .same hopen rfl
      · split at h
        · obtain rfl := Exec.done.inj h
          exact .same hopen rfl
        · rename_i source fs₁ hsource
          obtain ⟨hfree₁, hopened₁⟩ := LocalFs.openFile_opened hsource
          split at h
          · obtain rfl := Exec.done.inj h
            refine .same hopen ?_
            simp only
            rw [LocalFs.close_opened, hopened₁, Set.insert_sdiff_self_of_notMem hfree₁]
          · rename_i scratch fs₂ hscratch
            obtain ⟨hfree₂, hopened₂⟩ := LocalFs.openFile_opened hscratch
            rw [hopened₁] at hfree₂ hopened₂
            exact unpackInto_exchanged hopen hfree₁ (fun hmem => hfree₂ (Set.mem_insert_of_mem _ hmem)) hopened₂ h

/-- The two streams of a decompression get descriptors that are not taken, and are two different files. -/
structure StreamsOpen (taken : Set ℕ) (name : CStr) (replies : UnpackReplies) : Prop where
  distinct : collapse (scratchName name) ≠ collapse name
  fds : ∃ source scratch, replies.fopenSource = some source ∧ source ∉ taken ∧
    replies.fopenScratch = some scratch ∧ scratch ∉ taken ∧ source ≠ scratch

/-- A downloaded object needs no decompression, or is labelled `zlib` and decompressed without failure. -/
def Obj.Unpacks (env : Env) (taken : Set ℕ) (name : CStr) (replies : UnpackReplies) (obj : Obj) : Prop :=
  match obj.label with
  | none => True
  | some label =>
    strncmpEq "none".toList label = true ∨
      strncmpEq "zlib".toList label = true ∧ StreamsOpen taken name replies ∧ replies.update = .success ∧
        ∃ out, unzip env.zlib obj.content replies.io = .done (.ok, out)

/-- With both streams open, the descriptor of the download is given up on failure exactly when the
decompression itself does not fail. -/
theorem unpackInto_keeps_iff {raw : Bytes} {download source scratch : ℕ} {replies : UnpackReplies}
    {unpacked : Unpacked} (hraw : fs.unread source = raw)
    (h : unpackInto env fs name download source scratch replies = .done unpacked) :
    (unpacked.ret = -1 → unpacked.fd = none) ↔
      replies.update = .success ∧ ∃ out, unzip env.zlib raw replies.io = .done (.ok, out) := by
  obtain ⟨⟨zret, out⟩, hunzip, hdone⟩ := Exec.bind_eq_done.mp h
  rw [hraw] at hunzip
  simp only [pure] at hdone
  split at hdone
  · rename_i hzret
    obtain rfl := Exec.done.inj hdone
    simp [hunzip, hzret]
  · rename_i hzret
    simp only [ne_eq, not_not] at hzret
    subst hzret
    split at hdone
    · rename_i hupdate
      obtain rfl := Exec.done.inj hdone
      simp [hupdate]
    · rename_i hupdate
      simp only [ne_eq, not_not] at hupdate
      have hleft : unpacked.ret = -1 → unpacked.fd = none := by
        split at hdone
        · obtain rfl := Exec.done.inj hdone
          simp
        · split at hdone
          · obtain rfl := Exec.done.inj hdone
            exact fun _ => rfl
          · obtain rfl := Exec.done.inj hdone
            simp
      exact iff_of_true hleft ⟨hupdate, out, hunzip⟩

/-- A decompression that fails has given up the descriptor of the download exactly when nothing fails before
the result is reopened. -/
theorem handleCompression_keeps_iff {obj : Obj} {download : ℕ} {replies : UnpackReplies} {unpacked : Unpacked}
    (hcached : fs.contentAt name = some obj.content)
    (h : handleCompression env fs name download (obj.metadata.getD Dict.new) replies = .done unpacked) :
    (unpacked.ret = -1 → unpacked.fd = none) ↔ obj.Unpacks env fs.opened name replies := by
  have hlabel : obj.metadata.getD Dict.new "compression".toList = obj.label := rfl
  obtain ⟨ino, hname, hcontent⟩ := LocalFs.contentAt_eq_some.mp hcached
  unfold handleCompression at h
  unfold Obj.Unpacks
  rw [hlabel] at h
  cases hcase : obj.label with
  | none =>
    simp only [hcase] at h
    obtain rfl := Exec.done.inj h
    simp
  | some label =>
    simp only [hcase] at h ⊢
    cases hnone : strncmpEq "none".toList label with
    | true =>
      rw [if_pos hnone] at h
      obtain rfl := Exec.done.inj h
      simp
    | false =>
      simp only [hnone, Bool.false_eq_true, if_false, false_or] at h ⊢
      cases hzlib : strncmpEq "zlib".toList label with
      | false =>
        rw [if_pos hzlib] at h
        obtain rfl := Exec.done.inj h
        simp
      | true =>
        simp only [hzlib, Bool.true_eq_false, if_false, true_and] at h ⊢
        have hfails : ∀ fs', Unpacked.mk (-1) fs' (some download) = unpacked → ¬ StreamsOpen fs.opened name replies →
            ((unpacked.ret = -1 → unpacked.fd = none) ↔ StreamsOpen fs.opened name replies ∧
              replies.update = .success ∧ ∃ out, unzip env.zlib obj.content replies.io = .done (.ok, out)) := by
          rintro fs' rfl hclosed
          exact iff_of_false (fun hleft => by simpa using hleft rfl) fun hright => hclosed hright.1
        split at h
        · rename_i hsource
          rw [LocalFs.openFile_eq_none_iff (.inl (by rw [hname]; rfl))] at hsource
          refine hfails _ (Exec.done.inj h) ?_
          rintro ⟨-, source, scratch, hreply, hfree, -⟩
          exact hfree (hsource source hreply)
        · rename_i source fs₁ hsource
          obtain ⟨hreply₁, -⟩ := LocalFs.openFile_outcome hsource
          obtain ⟨hfree₁, hopened₁⟩ := LocalFs.openFile_opened hsource
          obtain ⟨ino', -, hname', hcontent', rfl⟩ := LocalFs.openFile_contentAt rfl rfl hcached hsource
          split at h
          · rename_i hscratch
            rw [LocalFs.openFile_eq_none_iff (.inr rfl), hopened₁] at hscratch
            refine hfails _ (Exec.done.inj h) ?_
            rintro ⟨-, source', scratch, hreply, -, hreply', hfree', hne⟩
            obtain rfl : source = source' := Option.some.inj (hreply₁.symm.trans hreply)
            rcases Set.mem_insert_iff.mp (hscratch scratch hreply') with hsame | hused
            · exact hne hsame.symm
            · exact hfree' hused
          · rename_i scratch fs₂ hscratch
            obtain ⟨hreply₂, -⟩ := LocalFs.openFile_outcome hscratch
            obtain ⟨hfree₂, -⟩ := LocalFs.openFile_opened hscratch
            rw [hopened₁, Set.mem_insert_iff, not_or] at hfree₂
            rcases openScratch_streams hname' hcontent' hscratch with hstreams | ⟨hsame, hempty⟩
            · rw [unpackInto_keeps_iff hstreams.source h]
              have hopens : StreamsOpen fs.opened name replies :=
                ⟨hstreams.distinct, source, scratch, hreply₁, hfree₁, hreply₂, hfree₂.2, fun heq => hfree₂.1 heq.symm⟩
              simp only [hopens, true_and]
            · rw [unpackInto_keeps_iff hempty h]
              refine iff_of_false ?_ fun hright => hright.1.distinct hsame
              rintro ⟨-, out, hunzip⟩
              exact unzip_nil _ _ _ hunzip

/-- The whole object is passed on to a descriptor that was not taken. -/
structure CopyReplies.Delivers (taken : Set ℕ) (obj : Obj) (download : ℕ) (replies : CopyReplies) : Prop where
  created : replies.create = some download
  free : download ∉ taken
  status : replies.openread.status = .success
  written : (cbGetBuffered replies.openread.writes (chunks replies.openread.chunkSizes obj.content)).1 = true

/-- The path is looked up and its metadata are stored in the entry without failure. -/
structure CopyReplies.Starts (env : Env) (r : Remote) (path : CStr) (replies : CopyReplies) : Prop where
  found : (dfsNameiTimeout env.conf.maxRetry replies.namei path r).1 = .success
  newDict : replies.newDict = true
  extract : replies.extract ≠ .failure
  stored : replies.setMetadata.alloc = true ∧ replies.setMetadata.copy ≠ .failure

/-- An object that is delivered is also decompressed without failure. -/
def CopyReplies.Tidy (env : Env) (taken : Set ℕ) (r : Remote) (path : CStr) (replies : CopyReplies) : Prop :=
  replies.Starts env r path → ∀ obj download, r.lookup path = some obj → replies.Delivers taken obj download →
    obj.Unpacks env (insert download taken) (copyName env.conf path) replies.unpack

/-- The same descriptors are open, or one more, which is the one returned. -/
inductive Gained (fs fs' : LocalFs) : ℤ → Prop
  | none : fs'.opened = fs.opened → Gained fs fs' (-1)
  | one {fd : ℕ} : fd ∉ fs.opened → fs'.opened = insert fd fs.opened → Gained fs fs' fd

/-- Opening the result of a download that was given up or can be closed. -/
theorem openCopy_gained {fs₁ : LocalFs} {flags : OpenFlags} {pe pe' : Pentry} {replies : CopyReplies}
    {unpacked : Unpacked} {download : ℕ} {fd : ℤ} (hexchanged : Exchanged fs₁ unpacked.fs download unpacked.fd)
    (hbefore : fs₁.opened \ {download} = fs.opened) (hleft : unpacked.ret = -1 → unpacked.fd = none)
    (h : openCopy env name flags pe replies unpacked = (fd, fs', pe')) : Gained fs fs' fd := by
  have hgiven : unpacked.fd = none → unpacked.fs.opened = fs.opened := by
    intro hnone
    rw [hnone] at hexchanged
    cases hexchanged with
    | closed hopened => rw [hopened, hbefore]
  unfold openCopy at h
  split at h
  · rename_i hret
    simp only [Prod.mk.injEq] at h
    obtain ⟨rfl, rfl, -⟩ := h
    exact .none (hgiven (hleft hret))
  · split at h
    · rename_i hnone
      simp only [Prod.mk.injEq] at h
      obtain ⟨rfl, rfl, -⟩ := h
      exact .none (hgiven hnone)
    · rename_i closed hclosed
      rw [hclosed] at hexchanged
      have hafter : (unpacked.fs.close closed).opened = fs.opened := by rw [hexchanged.close, hbefore]
      simp only at h
      split at h
      · simp only [Prod.mk.injEq] at h
        obtain ⟨rfl, rfl, -⟩ := h
        exact .none hafter
      · split at h
        · simp only [Prod.mk.injEq] at h
          obtain ⟨rfl, rfl, -⟩ := h
          exact .none hafter
        · rename_i hopen
          simp only [Prod.mk.injEq] at h
          obtain ⟨rfl, rfl, -⟩ := h
          obtain ⟨hfree, hopened⟩ := LocalFs.openFile_opened hopen
          rw [hafter] at hfree hopened
          exact .one hfree hopened

/-- A download that succeeds has been passed on as a whole. -/
theorem dplOpenread_delivered {cipher : Cipher} {r : Remote} {path : CStr} {fd : ℕ} {metadata metadata' : Dict}
    {replies : OpenreadReplies} {obj : Obj} (hlookup : r.lookup path = some obj)
    (h : dplOpenread cipher r path false fs fd metadata replies = (.success, fs', metadata')) :
    replies.status = .success ∧ (cbGetBuffered replies.writes (chunks replies.chunkSizes obj.content)).1 = true := by
  simp only [dplOpenread, hlookup, Bool.false_eq_true, if_false] at h
  split at h
  · rename_i hstatus
    refine ⟨hstatus, ?_⟩
    by_contra htaken
    simp [htaken] at h
  · rename_i hstatus
    simp only [Prod.mk.injEq] at h
    exact absurd h.1 hstatus

/-- Fetching the content leaves no descriptor open but the one it returns. -/
theorem fetchCopy_gained {r : Remote} {pe pe' : Pentry} {path : CStr} {flags : OpenFlags} {metadata : Dict}
    {replies : CopyReplies} {fd : ℤ} (htidy : replies.Tidy env fs.opened r path)
    (hstarts : replies.Starts env r path)
    (h : fetchCopy env fs r pe path flags metadata replies = .done (fd, fs', pe')) : Gained fs fs' fd := by
  have hremoved : (if (replies.access && (fs.resolve (copyName env.conf path)).isSome) = true then
      fs.unlink (copyName env.conf path) replies.unlink else fs).opened = fs.opened := by
    split
    · exact LocalFs.opened_of_files (LocalFs.unlink_files ..)
    · rfl
  unfold fetchCopy at h
  simp only at h
  generalize (if (replies.access && (fs.resolve (copyName env.conf path)).isSome) = true then
    fs.unlink (copyName env.conf path) replies.unlink else fs) = fs₁ at h hremoved
  split at h
  · simp only [Exec.done.injEq, Prod.mk.injEq] at h
    obtain ⟨rfl, rfl, -⟩ := h
    exact .none hremoved
  · rename_i download fs₂ hcreate
    obtain ⟨hreply, -⟩ := LocalFs.openFile_outcome hcreate
    obtain ⟨hfree, hopened⟩ := LocalFs.openFile_opened hcreate
    rw [hremoved] at hfree hopened
    rw [checkEncryptionFlag_eq_false] at h
    cases hread : dplOpenread env.cipher r path false fs₂ download metadata replies.openread with
    | mk status rest =>
      obtain ⟨fs₃, metadata'⟩ := rest
      rw [hread] at h
      simp only at h
      split at h
      · simp only [Exec.done.injEq, Prod.mk.injEq] at h
        obtain ⟨rfl, rfl, -⟩ := h
        have hwritten : fs₃.opened = fs₂.opened := by
          rcases dplOpenread_append hread with rfl | ⟨bytes, rfl⟩
          · rfl
          · exact LocalFs.append_opened ..
        apply Gained.none
        rw [LocalFs.close_opened, hwritten, hopened, Set.insert_sdiff_self_of_notMem hfree]
      · rename_i hstatus
        simp only [ne_eq, not_not] at hstatus
        subst hstatus
        obtain ⟨obj, hlookup, rfl, rfl⟩ := dplOpenread_success hread
        obtain ⟨hstatus, hwritten⟩ := dplOpenread_delivered hlookup hread
        obtain ⟨unpacked, hunpack, hdone⟩ := Exec.bind_eq_done.mp h
        obtain ⟨hcached, hopen⟩ := LocalFs.openFile_append rfl hcreate obj.content
        have hopened₃ : (fs₂.append download obj.content).opened = insert download fs.opened := by
          rw [LocalFs.append_opened, hopened]
        have hunpacks := htidy hstarts obj download hlookup ⟨hreply, hfree, hstatus, hwritten⟩
        rw [← hopened₃] at hunpacks
        refine openCopy_gained (handleCompression_exchanged (LocalFs.mem_opened.mpr hopen) hunpack) ?_
          ((handleCompression_keeps_iff hcached hunpack).mpr hunpacks) (Exec.done.inj hdone)
        rw [hopened₃, Set.insert_sdiff_self_of_notMem hfree]

/-- Metadata are stored unless an allocation or the copy fails. -/
theorem Pentry.setMetadata_stored {pe : Pentry} {dict : Dict} {replies : MetadataReplies}
    (h : (pe.setMetadata dict replies).1 ≠ false) : replies.alloc = true ∧ replies.copy ≠ .failure := by
  unfold Pentry.setMetadata at h
  split at h
  · exact absurd rfl h
  · rename_i halloc
    split at h
    · exact absurd rfl h
    · rename_i hcopy
      exact ⟨by simpa using halloc, hcopy⟩

/-- A local copy of a path without a descriptor leaves none open but the one it returns. -/
theorem dfsGetLocalCopy_gained {r : Remote} {pe pe' : Pentry} {path : CStr} {flags : OpenFlags}
    {replies : CopyReplies} {fd : ℤ} (hpe : pe.fd = -1) (htidy : replies.Tidy env fs.opened r path)
    (h : dfsGetLocalCopy env fs r pe path flags replies = .done (fd, fs', pe')) : Gained fs fs' fd := by
  have hnothing : fd = -1 → fs' = fs → Gained fs fs' fd := by
    rintro rfl rfl
    exact .none rfl
  unfold dfsGetLocalCopy at h
  split at h
  · simp only [Exec.done.injEq, Prod.mk.injEq] at h
    exact hnothing h.1.symm h.2.1.symm
  · rename_i headers hheaders
    have hfound : (dfsNameiTimeout env.conf.maxRetry replies.namei path r).1 = .success := by
      by_contra hfailed
      rw [downloadHeaders, if_pos hfailed] at hheaders
      cases hheaders
    split at h
    · simp only [Exec.done.injEq, Prod.mk.injEq] at h
      exact hnothing h.1.symm h.2.1.symm
    · rename_i hnewDict
      split at h
      · simp only [Exec.done.injEq, Prod.mk.injEq] at h
        exact hnothing h.1.symm h.2.1.symm
      · rename_i hextract
        simp only at h
        split at h
        · simp only [Exec.done.injEq, Prod.mk.injEq] at h
          exact hnothing h.1.symm h.2.1.symm
        · rename_i hset
          have hstarts : replies.Starts env r path :=
            ⟨hfound, by simpa using hnewDict, hextract, Pentry.setMetadata_stored hset⟩
          split at h
          · obtain ⟨stored, hstored⟩ :=
              pe.setMetadata_eq (getMetadataFromHeaders replies.extract headers) replies.setMetadata
            rw [hstored] at h
            obtain ⟨digest, hdigest⟩ := compareDigests_eq { pe with metadata := stored } headers replies.junkDigest
            rw [hdigest] at h
            simp only [Exec.done.injEq, Prod.mk.injEq] at h
            exact hnothing (h.1.symm.trans hpe) h.2.1.symm
          · exact fetchCopy_gained htidy hstarts h

end Download

/-- The descriptor of an entry is what it was, or a new one where there was none; no other was opened. -/
inductive FdGain (fs fs' : LocalFs) (pe pe' : Pentry) : Prop
  | same : pe'.fd = pe.fd → fs'.opened = fs.opened → FdGain fs fs' pe pe'
  | gained {fd : ℕ} : pe.fd = -1 → pe'.fd = fd → fd ∉ fs.opened → fs'.opened = insert fd fs.opened →
      FdGain fs fs' pe pe'

section Opening

variable {env : Env} {fs fs' : LocalFs} {r : Remote} {pe pe' : Pentry} {path : CStr} {replies : OpenReplies}
  {ret : ℤ}

/-- `open_existing` opens a descriptor only for an entry that has none. -/
theorem openExisting_gain {flags : OpenFlags} (hpe : pe.Usable)
    (htidy : pe.fd = -1 → replies.copy.Tidy env fs.opened r path)
    (h : openExisting env fs r pe path flags replies = .done (ret, fs', pe')) : FdGain fs fs' pe pe' := by
  unfold openExisting at h
  split at h
  · have hnone : pe.fd = -1 := hpe.resolve_right (by omega)
    obtain ⟨⟨fd, fs₁, pe₁⟩, hcopy, hdone⟩ := Exec.bind_eq_done.mp h
    obtain ⟨metadata, digest, hentry⟩ := dfsGetLocalCopy_entry hcopy
    have hgained := dfsGetLocalCopy_gained hnone (htidy hnone) hcopy
    simp only [pure] at hdone
    cases hgained with
    | none hopened =>
      rw [if_pos rfl] at hdone
      simp only [Exec.done.injEq, Prod.mk.injEq] at hdone
      obtain ⟨-, rfl, rfl⟩ := hdone
      exact .same (by rw [hentry]) hopened
    | one hfree hopened =>
      rw [if_neg (by omega)] at hdone
      simp only [Exec.done.injEq, Prod.mk.injEq] at hdone
      obtain ⟨-, rfl, rfl⟩ := hdone
      exact .gained hnone rfl hfree hopened
  · simp only [Exec.done.injEq, Prod.mk.injEq] at h
    obtain ⟨-, rfl, rfl⟩ := h
    exact .same rfl rfl

/-- Whatever the mode, its function opens a descriptor only for an entry that has none, if `open_creat` does
and if what is downloaded can be decompressed. -/
theorem openByMode_gain {mode : StateMode} (hpe : pe.Usable)
    (hcreat : mode = .creat → replies.treeDup = true → replies.openCache ≠ none → pe.fd = -1)
    (htidy : mode ≠ .creat → pe.fd = -1 → replies.copy.Tidy env fs.opened r path)
    (h : openByMode env fs r pe path mode replies = .done (ret, fs', pe')) : FdGain fs fs' pe pe' := by
  have hwronly : ∀ flags, mode ≠ .creat → openWronly env fs r pe path flags replies = .done (ret, fs', pe') →
      FdGain fs fs' pe pe' := by
    intro flags hmode hcall
    obtain ⟨⟨ret₁, fs₁, pe₁⟩, hexisting, hdone⟩ := Exec.bind_eq_done.mp hcall
    have hgain := openExisting_gain hpe (htidy hmode) hexisting
    have hleft : fs' = fs₁ ∧ pe'.fd = pe₁.fd := by
      simp only [pure] at hdone
      split at hdone
      · simp only [Exec.done.injEq, Prod.mk.injEq] at hdone
        obtain ⟨-, rfl, rfl⟩ := hdone
        exact ⟨rfl, rfl⟩
      · simp only [Exec.done.injEq, Prod.mk.injEq] at hdone
        obtain ⟨-, rfl, rfl⟩ := hdone
        exact ⟨rfl, rfl⟩
    obtain ⟨rfl, hfd⟩ := hleft
    cases hgain with
    | same heq hopened => exact .same (hfd.trans heq) hopened
    | gained hnone heq hfree hopened => exact .gained hnone (hfd.trans heq) hfree hopened
  cases mode with
  | rdonly => exact openExisting_gain hpe (htidy (by decide)) h
  | wronly => exact hwronly _ (by decide) h
  | rdwr => exact hwronly _ (by decide) h
  | creat =>
    simp only [openByMode, openCreat, Exec.done.injEq] at h
    split at h
    · simp only [Prod.mk.injEq] at h
      obtain ⟨-, rfl, rfl⟩ := h
      exact .same rfl rfl
    · rename_i name htree
      split at h
      · simp only [Prod.mk.injEq] at h
        obtain ⟨-, rfl, rfl⟩ := h
        exact .same rfl rfl
      · rename_i fd fs₁ hopen
        simp only [Prod.mk.injEq] at h
        obtain ⟨-, rfl, rfl⟩ := h
        obtain ⟨hfree, hopened⟩ := LocalFs.openFile_opened hopen
        have hdup : replies.treeDup = true := by
          by_contra hfalse
          simp [buildCacheTree, hfalse] at htree
        have hreply : replies.openCache ≠ none := by
          rw [(LocalFs.openFile_outcome hopen).1]
          exact Option.some_ne_none fd
        exact .gained (hcreat rfl hdup hreply) rfl hfree hopened

end Opening

section Uploading

variable {env : Env} {fs : LocalFs}

/-- Compressing leaves the same descriptors open. -/
theorem compressBeforeSending_opened {source scratch : ℕ} {dict : Dict} {replies : ReleaseReplies} {z : Compressed}
    (h : compressBeforeSending env fs source scratch dict replies = .done z) : z.fs.opened = fs.opened := by
  obtain ⟨⟨zret, out⟩, -, hdone⟩ := Exec.bind_eq_done.mp h
  simp only [pure] at hdone
  split at hdone
  · obtain rfl := Exec.done.inj hdone
    exact LocalFs.append_opened ..
  · split at hdone <;> obtain rfl := Exec.done.inj hdone <;> simp only <;> split <;>
      simp only [LocalFs.seek_opened, LocalFs.append_opened]

/-- The choice of what to send opens the streams and nothing else. -/
theorem pack_opened {name : CStr} {plain : Outgoing} {replies : ReleaseReplies} {packed : Packed}
    (h : pack env fs name plain replies = .done packed) :
    packed.fs.opened = fs.opened ∪ {fd | fd ∈ packed.streams} := by
  unfold pack at h
  split at h
  · obtain rfl := Exec.done.inj h
    simp
  · simp only at h
    split at h
    · obtain rfl := Exec.done.inj h
      simp
    · rename_i source fs₁ hsource
      obtain ⟨-, hopened₁⟩ := LocalFs.openFile_opened hsource
      split at h
      · obtain rfl := Exec.done.inj h
        simp [hopened₁]
      · rename_i scratch fs₂ hscratch
        obtain ⟨-, hopened₂⟩ := LocalFs.openFile_opened hscratch
        obtain ⟨z, hz, hdone⟩ := Exec.bind_eq_done.mp h
        have hz := compressBeforeSending_opened hz
        have hboth : z.fs.opened = fs.opened ∪ {fd | fd ∈ [source, scratch]} := by
          rw [hz, hopened₂, hopened₁]
          ext fd
          simp only [Set.mem_insert_iff, Set.mem_union, Set.mem_ofPred_eq, List.mem_cons, List.not_mem_nil, or_false]
          grind
        simp only [pure] at hdone
        split at hdone <;> obtain rfl := Exec.done.inj hdone <;> exact hboth

/-- Cleaning up after an upload closes the streams. -/
theorem cleanUp_opened (fs : LocalFs) (fd : ℕ) (streams : List ℕ) (scratch : Option CStr) (reply : Bool) :
    (cleanUp fs fd streams scratch reply).opened = fs.opened \ {fd | fd ∈ streams} := by
  have hclosed : ((fs.closeAll streams).seek fd 0).opened = fs.opened \ {fd | fd ∈ streams} := by
    rw [LocalFs.seek_opened, LocalFs.closeAll_opened]
  unfold cleanUp
  split
  · exact hclosed
  · rw [← hclosed]
    exact LocalFs.opened_of_files (LocalFs.unlink_files ..)

/-- An upload leaves the same descriptors open. -/
theorem upload_opened {w w' : World} {path : CStr} {fd : ℕ} {st : Stat} {replies : ReleaseReplies} {ok : Bool}
    (h : upload env w path fd st replies = .done (ok, w')) : w'.fs.opened = w.fs.opened := by
  obtain ⟨packed, hpack, -, rfl⟩ := upload_eq_done h
  obtain ⟨-, hstreams, -⟩ := pack_frame hpack
  simp only
  rw [cleanUp_opened, pack_opened hpack]
  ext other
  simp only [Set.mem_sdiff, Set.mem_union, Set.mem_ofPred_eq]
  constructor
  · rintro ⟨hopen | hstream, hnot⟩
    · exact hopen
    · exact absurd hstream hnot
  · intro hopen
    refine ⟨.inl hopen, fun hstream => ?_⟩
    exact LocalFs.not_mem_opened.mpr (hstreams other hstream) hopen

end Uploading

end Dropletfs
