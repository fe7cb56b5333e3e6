import Dropletfs.LocalCopy
import Dropletfs.Release

/-!
# What an upload stores

An upload reads the cache file from the offset of its descriptor, or compresses the file of
that name. It leaves the descriptor of the entry at offset zero and touches no file but the
scratch file. An object is decoded by deciphering it, when its metadata and the settings
say so, and by decompressing it, when its label says so.
-/

namespace Dropletfs

/-- The metadata say that the content is a ciphertext of the cipher in use. -/
def Dict.encrypted (dict : Dict) : Bool :=
  match dict "cipher".toList, dict "cipher-type".toList with
  | some cipher, some type =>
    strncasecmpEq "yes".toList cipher && strncasecmpEq "aes-256-cfb".toList type
  | _, _ => false

/-- The content of an object without its encryption. -/
def Obj.deciphered (env : Env) (obj : Obj) : Bytes :=
  if env.conf.usesAes && (obj.metadata.getD Dict.new).encrypted then env.cipher.decrypt obj.content
  else obj.content

/-- A decompression all of whose calls succeed. -/
def UnpackReplies.granted : UnpackReplies := ⟨none, none, .clean, .success, true, none, none⟩

/-- The file an object stands for: its content, deciphered and decompressed. -/
def Obj.decoded (env : Env) (obj : Obj) : Option Bytes :=
  { obj with content := obj.deciphered env }.fetched env .granted

/-- When the scratch file replaces the cache file and is complete, what is fetched does not depend on the
calls made on the way. -/
theorem Obj.fetched_granted {env : Env} {obj : Obj} {replies : UnpackReplies} {bytes : Bytes}
    (hrename : replies.rename = true) (hclose : replies.fclose = none)
    (h : obj.fetched env replies = some bytes) : obj.fetched env .granted = some bytes := by
  unfold Obj.fetched at h ⊢
  cases hlabel : obj.label with
  | none => simpa only [hlabel] using h
  | some label =>
    simp only [hlabel] at h ⊢
    split at h
    · rename_i hnone
      rwa [if_pos hnone]
    · rename_i hnone
      rw [if_neg hnone]
      split at h
      · cases h
      · rename_i hzlib
        rw [if_neg hzlib]
        split at h
        · rename_i out hunzip
          simp only [hclose] at h
          have hclean := unzip_clean hunzip
          simpa only [UnpackReplies.granted, hclean, if_true] using h
        · cases h

section Frame

variable {env : Env} {N : CStr → Prop} {fs₀ fs : LocalFs}

/-- Compression writes to the scratch file only. -/
theorem compressBeforeSending_frame {source scratch : ℕ} {file : OpenFile} {dict : Dict}
    {replies : ReleaseReplies} {z : Compressed} (h : fs₀.Frame N fs) (hscratch : fs₀.Owns N fs scratch file)
    (hdone : compressBeforeSending env fs source scratch dict replies = .done z) : fs₀.Frame N z.fs := by
  obtain ⟨⟨zret, out⟩, -, hdone⟩ := Exec.bind_eq_done.mp hdone
  have hflushed := h.append hscratch (flushed replies.fflush out)
  have hrewound : fs₀.Frame N (if replies.lseekScratch then
      (fs.append scratch (flushed replies.fflush out)).seek scratch 0
      else fs.append scratch (flushed replies.fflush out)) := by
    split
    · exact hflushed.seek hscratch.unused 0
    · exact hflushed
  simp only [pure] at hdone
  split at hdone
  · obtain rfl := Exec.done.inj hdone
    exact hflushed
  · split at hdone <;> obtain rfl := Exec.done.inj hdone <;> exact hrewound

/-- The choice of what to send touches the scratch file only, and its streams are new. -/
theorem pack_frame {name : CStr} {plain : Outgoing} {replies : ReleaseReplies} {packed : Packed}
    (hdone : pack env fs name plain replies = .done packed) :
    fs.Frame (· = collapse (scratchName name)) packed.fs ∧
      (∀ fd ∈ packed.streams, fs.files fd = none) ∧
      ∀ other, packed.scratch = some other → other = scratchName name := by
  have hfresh := LocalFs.Frame.refl (· = collapse (scratchName name)) fs
  unfold pack at hdone
  split at hdone
  · obtain rfl := Exec.done.inj hdone
    exact ⟨hfresh, by simp, fun _ h => by cases h⟩
  · simp only at hdone
    split at hdone
    · obtain rfl := Exec.done.inj hdone
      exact ⟨hfresh, by simp, fun _ h => (Option.some.inj h).symm⟩
    · rename_i source fs₁ hsource
      have hopened := hfresh.openFile (.inr ⟨rfl, rfl⟩) hsource
      have hunused := (LocalFs.openFile_file hsource).1
      split at hdone
      · obtain rfl := Exec.done.inj hdone
        exact ⟨hopened, by simpa using hunused, fun _ h => (Option.some.inj h).symm⟩
      · rename_i scratch fs₂ hscratch
        obtain ⟨file, hown, -, -⟩ := hopened.openFile_owns rfl hscratch
        have hboth := hopened.openFile (.inl rfl) hscratch
        obtain ⟨z, hz, hdone⟩ := Exec.bind_eq_done.mp hdone
        have hcompressed := compressBeforeSending_frame hboth hown hz
        have hstreams : ∀ fd ∈ [source, scratch], fs.files fd = none := by
          simpa using ⟨hunused, hown.unused⟩
        simp only [pure] at hdone
        split at hdone <;> obtain rfl := Exec.done.inj hdone <;>
          exact ⟨hcompressed, hstreams, fun _ h => (Option.some.inj h).symm⟩

/-- Cleaning up closes the streams, removes the scratch file, and leaves a rewound descriptor alone. -/
theorem cleanUp_frame {fd : ℕ} {file : OpenFile} {streams : List ℕ} {scratch : Option CStr} {reply : Bool}
    (h : fs₀.Frame N fs) (hfile : fs₀.files fd = some file) (hoffset : file.offset = 0)
    (hstreams : ∀ fd ∈ streams, fs₀.files fd = none) (hscratch : ∀ name, scratch = some name → N (collapse name)) :
    fs₀.Frame N (cleanUp fs fd streams scratch reply) := by
  have hclosed : fs₀.Frame N (fs.closeAll streams) := by
    induction streams generalizing fs with
    | nil => exact h
    | cons first rest ih =>
      exact ih (h.close (hstreams first List.mem_cons_self))
        fun fd hfd => hstreams fd (List.mem_cons_of_mem _ hfd)
  have hrewound : fs₀.Frame N ((fs.closeAll streams).seek fd 0) := by
    have hsame : (fs.closeAll streams).seek fd 0 = fs.closeAll streams := by
      have hat := hclosed.files fd file hfile
      simp only [LocalFs.seek, hat, Option.map_some]
      rw [← hoffset, ← hat, Function.update_eq_self]
    rw [hsame]
    exact hclosed
  unfold cleanUp
  split
  · exact hrewound
  · rename_i name
    exact hrewound.unlink reply (hscratch name rfl)

/-- An upload of a rewound descriptor touches the scratch file only, and descriptors of its own. -/
theorem upload_files {w w' : World} {path : CStr} {fd : ℕ} {file : OpenFile} {st : Stat}
    {replies : ReleaseReplies} {ok : Bool} (h : upload env w path fd st replies = .done (ok, w'))
    (hfile : w.fs.files fd = some file) (hoffset : file.offset = 0) :
    w.fs.Frame (· = collapse (scratchName (cacheName env.conf path))) w'.fs := by
  obtain ⟨packed, hpack, -, rfl⟩ := upload_eq_done h
  obtain ⟨hframe, hstreams, hscratch⟩ := pack_frame hpack
  exact cleanUp_frame hframe hfile hoffset hstreams fun name hname => by rw [hscratch name hname]

end Frame

/-- A transfer that succeeds stores everything that was unread. -/
theorem push_success {env : Env} {w : World} {path : CStr} {outgoing : Outgoing} {replies : ReleaseReplies}
    (h : (push env w path outgoing replies).1 = true) :
    (push env w path outgoing replies).2.remote =
      w.remote.insert path (storedObject env outgoing.dict (w.fs.unread outgoing.fd) replies) := by
  unfold push at h ⊢
  by_cases hopen : replies.openwrite ≠ .success
  · simp [hopen] at h
  · simp only [hopen, if_false, decide_eq_true_eq] at h ⊢
    obtain ⟨hret, hclose⟩ := h
    rw [if_pos (replies.close.applied_of_success hclose), readWriteAllVfile_sent _ _ _ hret]
    rfl

/-- Without compression, a successful upload stores the file from the offset of its descriptor. -/
theorem upload_plain {env : Env} {w w' : World} {path : CStr} {fd : ℕ} {st : Stat} {replies : ReleaseReplies}
    (hzlib : env.conf.usesZlib = false) (h : upload env w path fd st replies = .done (true, w')) :
    w'.remote = w.remote.insert path
      (storedObject env (fillMetadataFromStat Dict.new st) (w.fs.unread fd) replies) := by
  obtain ⟨packed, hpack, hok, rfl⟩ := upload_eq_done h
  rw [pack, if_pos hzlib] at hpack
  obtain rfl := Exec.done.inj hpack
  exact push_success hok.symm

end Dropletfs
