import Dropletfs.LocalCopy
import Dropletfs.Open

/-!
# Complete local copies

A download that fails on the way is refused, with two exceptions. When the decompressed file cannot be
moved over the cache file, the compressed one is handed out; and what the last `fclose` could not write
is missing.
-/

namespace Dropletfs

/-- All of the content of an object: what it decompresses to, if it is labelled as compressed. -/
def Obj.Complete (env : Env) (obj : Obj) (bytes : Bytes) : Prop :=
  if obj.compressed then unzip env.zlib obj.content .clean = .done (.ok, bytes) else bytes = obj.content

/-- An object has one content. -/
theorem Obj.Complete.unique {env : Env} {obj : Obj} {bytes bytes' : Bytes} (h : obj.Complete env bytes)
    (h' : obj.Complete env bytes') : bytes = bytes' := by
  unfold Complete at h h'
  split at h
  · rename_i hcompressed
    rw [if_pos hcompressed, h] at h'
    simpa using h'
  · rename_i hplain
    rw [if_neg hplain] at h'
    exact h.trans h'.symm

/-- What an object decompresses to takes the place of the cache file as a whole, or is the same. -/
def Obj.Replaced (env : Env) (obj : Obj) (replies : UnpackReplies) : Prop :=
  obj.compressed = true → ∀ out, unzip env.zlib obj.content .clean = .done (.ok, out) →
    if replies.rename then flushed replies.fclose out = out else obj.content = out

/-- What a download leaves: the content of the object, or what it decompresses to as far as it got into place. -/
theorem Obj.fetched_cases {env : Env} {obj : Obj} {replies : UnpackReplies} {bytes : Bytes}
    (h : obj.fetched env replies = some bytes) :
    (obj.compressed = false ∧ bytes = obj.content) ∨
      (obj.compressed = true ∧ ∃ out, unzip env.zlib obj.content .clean = .done (.ok, out) ∧
        bytes = if replies.rename then flushed replies.fclose out else obj.content) := by
  unfold fetched at h
  unfold compressed
  cases hlabel : obj.label with
  | none =>
    simp only [hlabel, Option.some.injEq] at h
    exact .inl ⟨rfl, h.symm⟩
  | some label =>
    simp only [hlabel] at h ⊢
    cases hnone : strncmpEq "none".toList label with
    | true =>
      simp only [hnone, if_true, Option.some.injEq] at h
      exact .inl ⟨rfl, h.symm⟩
    | false =>
      simp only [hnone, Bool.false_eq_true, if_false] at h
      cases hzlib : strncmpEq "zlib".toList label with
      | false => simp only [hzlib, if_true, reduceCtorEq] at h
      | true =>
        simp only [hzlib, Bool.true_eq_false, if_false] at h
        split at h
        · rename_i out hunzip
          exact .inr ⟨rfl, out, unzip_clean hunzip, (Option.some.inj h).symm⟩
        · cases h

/-- A download leaves all of the content exactly when what it decompressed took the place of the cache file. -/
theorem Obj.fetched_complete_iff {env : Env} {obj : Obj} {replies : UnpackReplies} {bytes : Bytes}
    (h : obj.fetched env replies = some bytes) : obj.Complete env bytes ↔ obj.Replaced env replies := by
  rcases fetched_cases h with ⟨hplain, hbytes⟩ | ⟨hcompressed, out, hunzip, hbytes⟩
  · simp only [Complete, Replaced, hplain, Bool.false_eq_true, if_false, hbytes, false_imp_iff]
  · have hcomplete : obj.Complete env bytes ↔ bytes = out := by
      simp only [Complete, hcompressed, if_true, hunzip, Exec.done.injEq, Prod.mk.injEq, true_and]
      exact eq_comm
    have hreplaced : obj.Replaced env replies ↔
        if replies.rename then flushed replies.fclose out = out else obj.content = out := by
      simp only [Replaced, hcompressed, true_imp_iff, hunzip, Exec.done.injEq, Prod.mk.injEq, true_and,
        forall_eq']
    rw [hcomplete, hreplaced, hbytes]
    split
    · rfl
    · rfl

/-- A name leads to one file only. -/
theorem LocalFs.OpenAt.unique {fs : LocalFs} {name : CStr} {fd fd' : ℕ} {write write' : Bool}
    {bytes bytes' : Bytes} (h : fs.OpenAt name fd write bytes) (h' : fs.OpenAt name fd' write' bytes') :
    bytes = bytes' := by
  obtain ⟨ino, hname, -, hbytes⟩ := h
  obtain ⟨ino', hname', -, hbytes'⟩ := h'
  obtain rfl : ino = ino' := Option.some.inj (hname.symm.trans hname')
  exact hbytes.symm.trans hbytes'

/-- A descriptor that a local copy provides for an entry without one is open at the start of a complete cache file
exactly when the decompressed content, if any, took the place of the cache file. -/
theorem copy_complete_iff {env : Env} {fs fs' : LocalFs} {r : Remote} {pe pe' : Pentry} {path : CStr}
    {mode : StateMode} {replies : CopyReplies} {fd : ℕ} (hmode : mode ≠ .creat) (hpe : pe.fd < 0)
    (h : dfsGetLocalCopy env fs r pe path (openFlags mode) replies = .done ((fd : ℤ), fs', pe')) :
    (∃ obj bytes, r.lookup path = some obj ∧ obj.Complete env bytes ∧
        fs'.OpenAt (copyName env.conf path) fd (openFlags mode).write bytes) ↔
      ∀ obj, r.lookup path = some obj → obj.Replaced env replies.unpack := by
  have hflags : (openFlags mode).trunc = false ∧ (openFlags mode).creat = false := by
    cases mode with
    | rdonly => exact ⟨rfl, rfl⟩
    | wronly => exact ⟨rfl, rfl⟩
    | rdwr => exact ⟨rfl, rfl⟩
    | creat => exact absurd rfl hmode
  obtain ⟨obj, bytes, fd', hlookup, hfetched, heq, -, hat⟩ :=
    dfsGetLocalCopy_content hflags.1 hflags.2 h (by omega) (by omega)
  obtain rfl := Int.ofNat.inj heq
  have hcomplete := Obj.fetched_complete_iff hfetched
  constructor
  · rintro ⟨obj₁, bytes₁, hlookup₁, hall, hat₁⟩ obj₂ hlookup₂
    obtain rfl : obj₁ = obj := Option.some.inj (hlookup₁.symm.trans hlookup)
    obtain rfl : obj₂ = obj₁ := Option.some.inj (hlookup₂.symm.trans hlookup)
    obtain rfl : bytes₁ = bytes := hat₁.unique hat
    exact hcomplete.mp hall
  · intro hreplaced
    exact ⟨obj, bytes, hlookup, hcomplete.mpr (hreplaced obj hlookup), hat⟩

/-- A file that is not compressed is complete. -/
theorem copy_complete_plain :
    ∃ fs' pe', dfsGetLocalCopy .plain .empty (.file "/f".toList [7]) pentryNew "/f".toList (openFlags .rdonly)
        (.granted 3) = .done (3, fs', pe') ∧
      ((∃ obj bytes, (Remote.file "/f".toList [7]).lookup "/f".toList = some obj ∧ obj.Complete .plain bytes ∧
        fs'.OpenAt (copyName Env.plain.conf "/f".toList) 3 (openFlags .rdonly).write bytes) ↔
        ∀ obj, (Remote.file "/f".toList [7]).lookup "/f".toList = some obj →
          obj.Replaced .plain (CopyReplies.granted 3).unpack) :=
  ⟨_, _, rfl, @copy_complete_iff .plain .empty _ (.file "/f".toList [7]) pentryNew _ "/f".toList .rdonly
    (.granted 3) 3 (by decide) (by decide) rfl⟩

/-- An object that holds the compressed form of an empty file. -/
def Obj.zippedEmpty : Obj :=
  ⟨.reg, emptyStream, some (Dict.new.updateValue "compression".toList "zlib".toList), none⟩

/-- Every call of a local copy is granted, but the rename of the decompressed file. -/
def CopyReplies.unmoved (fd : ℕ) : CopyReplies where
  __ := CopyReplies.granted fd
  unpack := { (CopyReplies.granted fd).unpack with rename := false }

/-- When the decompressed file cannot be moved, a descriptor on the compressed file is handed out. -/
theorem copy_stays_compressed :
    ∃ fs' pe', dfsGetLocalCopy { Env.plain with zlib := .onFile [] emptyStream } .empty
        ((∅ : Remote).insert "/f".toList .zippedEmpty) pentryNew "/f".toList (openFlags .rdonly) (.unmoved 3) =
          .done (3, fs', pe') ∧
      ¬ ∃ obj bytes, ((∅ : Remote).insert "/f".toList .zippedEmpty).lookup "/f".toList = some obj ∧
        obj.Complete { Env.plain with zlib := .onFile [] emptyStream } bytes ∧
        fs'.OpenAt (copyName Env.plain.conf "/f".toList) 3 (openFlags .rdonly).write bytes := by
  refine ⟨_, _, rfl, ?_⟩
  rintro ⟨obj, bytes, hlookup, hcomplete, hat⟩
  obtain ⟨obj', bytes', fd', hlookup', hfetched, heq, -, hat'⟩ :=
    @dfsGetLocalCopy_content { Env.plain with zlib := .onFile [] emptyStream } .empty _
      ((∅ : Remote).insert "/f".toList .zippedEmpty) pentryNew _ "/f".toList (openFlags .rdonly) (.unmoved 3) 3
      rfl rfl rfl (by decide) (by decide)
  obtain rfl := Option.some.inj (hlookup.symm.trans hlookup')
  obtain rfl : bytes = bytes' := hat.unique hat'
  obtain rfl : obj = .zippedEmpty := (Option.some.inj hlookup).symm
  have hreplaced := (Obj.fetched_complete_iff hfetched).mp hcomplete
  have hsame : emptyStream = [] := hreplaced rfl [] rfl
  cases hsame

end Dropletfs
