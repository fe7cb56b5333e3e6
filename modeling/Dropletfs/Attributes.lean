import Dropletfs.EntryFrame

/-!
# The first answer and the cached one

The first lookup of a path combines default attributes with the metadata of the object, and
caches the metadata. Later lookups start from a record of zeros instead of the defaults, and
look at the `symlink` key after the other keys instead of before them.
-/

namespace Dropletfs

/-- A dictionary has a value for a key, other than the one that reads as absent. -/
def Dict.gives (dict : Dict) (key : CStr) : Bool := metadatatoll dict key ≠ -1

/-- `pentry_set_metadata` succeeds. -/
def MetadataReplies.stores (replies : MetadataReplies) : Bool := replies.alloc && replies.copy ≠ .failure

/-- What `pentry_set_metadata` leaves to read of a dictionary. -/
def MetadataReplies.kept (replies : MetadataReplies) (dict : Dict) : Dict :=
  if replies.stores then dict else Dict.new

/-- The record from which `dfs_getattr` starts. -/
def Stat.single : Stat := { Stat.zero with nlink := 1 }

/-- The record that `getattr_unset` fills. -/
def firstStat (proc : Process) (now : ℤ) (type : Ftype) (dict : Dict) : Stat :=
  fillStatFromMetadata (symlinkBit (setDefaultStat proc now .single type) dict) dict

/-- The record that `getattr_remote` fills. -/
def cachedStat (dict : Dict) : Stat := symlinkBit (fillStatFromMetadata .single dict) dict

/-- Mode, size, owner and group of two records are the same. -/
structure Stat.Agrees (st st' : Stat) : Prop where
  mode : st'.mode = st.mode
  size : st'.size = st.size
  uid : st'.uid = st.uid
  gid : st'.gid = st.gid

/-- The attributes of an object that do not depend on where a lookup starts. With the metadata cached,
each attribute is given by them, or its default is zero, and the `symlink` key adds nothing to the mode;
otherwise all of them are zero. -/
structure AttributesFixed (proc : Process) (type : Ftype) (dict : Dict) (cached : Bool) : Prop where
  mode : if dict.gives "mode".toList then
      if cached then (dict "symlink".toList).isSome = true →
        BitVec.ofInt 32 (metadatatoll dict "mode".toList) ||| sIflnk =
          BitVec.ofInt 32 (metadatatoll dict "mode".toList)
      else BitVec.ofInt 32 (metadatatoll dict "mode".toList) = 0
    else type = .other ∧ (cached = false → dict "symlink".toList = none)
  size : cached = false → dict.gives "size".toList → metadatatoll dict "size".toList = 0
  uid : if dict.gives "uid".toList then cached = false → BitVec.ofInt 32 (metadatatoll dict "uid".toList) = 0
    else proc.uid = 0
  gid : if dict.gives "gid".toList then cached = false → BitVec.ofInt 32 (metadatatoll dict "gid".toList) = 0
    else proc.gid = 0

/-- The new value of a field, by whether the key has a value. -/
theorem storeMeta_eq {α : Type} (dict : Dict) (key : CStr) (cast : ℤ → α) (old : α) :
    storeMeta dict key cast old = if dict.gives key then cast (metadatatoll dict key) else old := by
  simp [storeMeta, Dict.gives]

/-- An empty dictionary has no values. -/
@[simp] theorem Dict.new_gives (key : CStr) : Dict.new.gives key = false := by
  simp [Dict.gives, metadatatoll, Dict.new]

/-- The `symlink` key concerns the mode only. -/
theorem symlinkBit_eq (st : Stat) (dict : Dict) :
    symlinkBit st dict =
      { st with mode := if (dict "symlink".toList).isSome then st.mode ||| sIflnk else st.mode } := by
  unfold symlinkBit
  split <;> rfl

/-- The default mode depends on the type only. -/
theorem setDefaultStat_mode (proc : Process) (now : ℤ) (type : Ftype) :
    (setDefaultStat proc now .single type).mode = (setDefaultStat ⟨0, 0, 0⟩ 0 .single type).mode := by
  cases type <;> rfl

/-- A mode starts from zero and from the default alike only for a type that is neither a file nor a
directory. -/
theorem defaultMode_cached_iff (type : Ftype) (link : Bool) :
    (if link then (0 : BitVec 32) ||| sIflnk else 0) =
        (if link then (setDefaultStat ⟨0, 0, 0⟩ 0 .single type).mode ||| sIflnk
          else (setDefaultStat ⟨0, 0, 0⟩ 0 .single type).mode) ↔ type = .other := by
  cases type <;> cases link <;> decide

/-- For such a type the default mode is zero unless the bits of a symbolic link are added. -/
theorem defaultMode_zero_iff (type : Ftype) (link : Bool) :
    (0 : BitVec 32) = (if link then (setDefaultStat ⟨0, 0, 0⟩ 0 .single type).mode ||| sIflnk
      else (setDefaultStat ⟨0, 0, 0⟩ 0 .single type).mode) ↔ type = .other ∧ link = false := by
  cases type <;> cases link <;> decide

/-- The modes of the two records are the same. -/
theorem firstStat_mode_iff (proc : Process) (now : ℤ) (type : Ftype) (dict : Dict) (replies : MetadataReplies) :
    (cachedStat (replies.kept dict)).mode = (firstStat proc now type dict).mode ↔
      if dict.gives "mode".toList then
        if replies.stores then (dict "symlink".toList).isSome = true →
          BitVec.ofInt 32 (metadatatoll dict "mode".toList) ||| sIflnk =
            BitVec.ofInt 32 (metadatatoll dict "mode".toList)
        else BitVec.ofInt 32 (metadatatoll dict "mode".toList) = 0
      else type = .other ∧ (replies.stores = false → dict "symlink".toList = none) := by
  simp only [firstStat, cachedStat, symlinkBit_eq, fillStatFromMetadata, storeMeta_eq, setDefaultStat_mode proc now]
  cases hstores : replies.stores with
  | true =>
    simp only [MetadataReplies.kept, hstores, if_true, Bool.true_eq_false, false_imp_iff, and_true]
    cases hgives : dict.gives "mode".toList with
    | true =>
      simp only [if_true]
      cases (dict "symlink".toList).isSome <;> simp
    | false =>
      simp only [Bool.false_eq_true, if_false]
      exact defaultMode_cached_iff type _
  | false =>
    simp only [MetadataReplies.kept, hstores, Bool.false_eq_true, if_false, Dict.new_gives, forall_const]
    cases hgives : dict.gives "mode".toList with
    | true =>
      simp only [if_true]
      exact eq_comm
    | false =>
      simp only [Bool.false_eq_true, if_false]
      have hnone : (dict "symlink".toList).isSome = false ↔ dict "symlink".toList = none := by simp
      rw [← hnone]
      exact defaultMode_zero_iff type _

/-- The owners, or the groups, of the two records are the same. -/
theorem storeMeta_kept_iff (dict : Dict) (key : CStr) (replies : MetadataReplies) {α : Type} (cast : ℤ → α)
    (zero default : α) :
    storeMeta (replies.kept dict) key cast zero = storeMeta dict key cast default ↔
      if dict.gives key then replies.stores = false → cast (metadatatoll dict key) = zero else default = zero := by
  rw [storeMeta_eq, storeMeta_eq]
  cases hstores : replies.stores with
  | true => cases hgives : dict.gives key <;> simp [MetadataReplies.kept, hstores, hgives, eq_comm]
  | false => cases hgives : dict.gives key <;> simp [MetadataReplies.kept, hstores, eq_comm]

/-- Size, owner and group of the first record. -/
theorem firstStat_fields (proc : Process) (now : ℤ) (type : Ftype) (dict : Dict) :
    (firstStat proc now type dict).size = storeMeta dict "size".toList id 0 ∧
      (firstStat proc now type dict).uid = storeMeta dict "uid".toList (BitVec.ofInt 32) proc.uid ∧
      (firstStat proc now type dict).gid = storeMeta dict "gid".toList (BitVec.ofInt 32) proc.gid := by
  simp only [firstStat, symlinkBit_eq]
  exact ⟨rfl, rfl, rfl⟩

/-- Size, owner and group of the cached record. -/
theorem cachedStat_fields (dict : Dict) :
    (cachedStat dict).size = storeMeta dict "size".toList id 0 ∧
      (cachedStat dict).uid = storeMeta dict "uid".toList (BitVec.ofInt 32) 0 ∧
      (cachedStat dict).gid = storeMeta dict "gid".toList (BitVec.ofInt 32) 0 := by
  simp only [cachedStat, symlinkBit_eq]
  exact ⟨rfl, rfl, rfl⟩

/-- The two records agree exactly when the attributes are fixed. -/
theorem firstStat_agrees_iff (proc : Process) (now : ℤ) (type : Ftype) (dict : Dict) (replies : MetadataReplies) :
    (firstStat proc now type dict).Agrees (cachedStat (replies.kept dict)) ↔
      AttributesFixed proc type dict replies.stores := by
  obtain ⟨hsize₁, huid₁, hgid₁⟩ := firstStat_fields proc now type dict
  obtain ⟨hsize₂, huid₂, hgid₂⟩ := cachedStat_fields (replies.kept dict)
  have hmode := firstStat_mode_iff proc now type dict replies
  have hsize := storeMeta_kept_iff dict "size".toList replies id (0 : ℤ) 0
  have huid := storeMeta_kept_iff dict "uid".toList replies (BitVec.ofInt 32) 0 proc.uid
  have hgid := storeMeta_kept_iff dict "gid".toList replies (BitVec.ofInt 32) 0 proc.gid
  rw [← hsize₁, ← hsize₂] at hsize
  rw [← huid₁, ← huid₂] at huid
  rw [← hgid₁, ← hgid₂] at hgid
  constructor
  · intro h
    refine ⟨hmode.mp h.mode, fun hstores hgives => ?_, huid.mp h.uid, hgid.mp h.gid⟩
    have hzero := hsize.mp h.size
    rw [if_pos hgives] at hzero
    exact hzero hstores
  · intro h
    refine ⟨hmode.mpr h.mode, hsize.mpr ?_, huid.mpr h.uid, hgid.mpr h.gid⟩
    split
    · rename_i hgives
      exact fun hstores => h.size hstores hgives
    · rfl

/-- What a successful fetch of the attributes returns are the metadata of the object. -/
theorem dfsGetattrTimeout_metadata {maxRetry : ℤ} {replies : ℕ → Status} {path : CStr} {r : Remote}
    {status : Status} {metadata : Option Dict} (h : dfsGetattrTimeout maxRetry replies path r = (status, metadata))
    (hstatus : status = .success ∨ status = .eisdir) : metadata = (r.lookup path).bind Obj.metadata := by
  obtain ⟨i, hi⟩ := readTimeout_eq_attempt maxRetry Status.retriableGetattr fun i => dplGetattr (replies i) path r
  rw [dfsGetattrTimeout, hi, dplGetattr] at h
  simp only [Prod.mk.injEq] at h
  obtain ⟨rfl, rfl⟩ := h
  rw [if_pos hstatus]

/-- The test of the mode uses an `or` with type bits that are not zero, so the type is always that of a
regular file. -/
theorem Pentry.setFiletypeFromStat_eq (pe : Pentry) (st : Stat) :
    pe.setFiletypeFromStat st = { pe with filetype := some .reg } := by
  have hbits : st.mode ||| sIfreg ≠ 0 := by
    intro hzero
    have hbit := congrArg (BitVec.getLsbD · 15) hzero
    rw [BitVec.getLsbD_or] at hbit
    simp [sIfreg] at hbit
  unfold setFiletypeFromStat
  rw [if_pos hbits]

/-- The entry of a lookup that could cache the metadata. -/
def Pentry.cachedRemote (pe : Pentry) (dict : Dict) (replies : MetadataReplies) : Pentry :=
  { (pe.setMetadata dict replies).2 with ondisk := .remote, filetype := some .reg }

/-- The ways `getattr_unset` can end: it fails, the object has no metadata, or its metadata are cached. -/
inductive UnsetOutcome (env : Env) (w : World) (addr : ℕ) (pe : Pentry) (path : CStr) (replies : GetattrReplies) :
    Lookup → Prop
  | failed {ret : ℤ} {st : Stat} {w' : World} : ret ≠ 0 →
      w' = w ∨ (∃ metadata, w' = w.put addr { pe with metadata := metadata, mdLocked := true }) →
      UnsetOutcome env w addr pe path replies ⟨ret, st, w'⟩
  | plain {type : Ftype} : w.remote.ftype path = some type → (w.remote.lookup path).bind Obj.metadata = none →
      UnsetOutcome env w addr pe path replies ⟨0, setDefaultStat env.proc replies.now .single type,
        (w.put addr { pe with filetype := some .reg }).fillDirent path replies.addDirent⟩
  | described {type : Ftype} {dict : Dict} : w.remote.ftype path = some type →
      (w.remote.lookup path).bind Obj.metadata = some dict →
      UnsetOutcome env w addr pe path replies ⟨0, firstStat env.proc replies.now type dict,
        (w.put addr (pe.cachedRemote dict replies.setMetadata)).fillDirent path replies.addDirent⟩

/-- `getattr_unset` ends in one of these ways. -/
theorem getattrUnset_outcome {env : Env} {w : World} {addr : ℕ} {pe : Pentry} {path : CStr}
    {replies : GetattrReplies} {looked : Lookup} (h : getattrUnset env w addr pe path .single replies = .done looked) :
    UnsetOutcome env w addr pe path replies looked := by
  have hunchanged : ∀ ret st, ret ≠ 0 → UnsetOutcome env w addr pe path replies ⟨ret, st, w⟩ :=
    fun ret st hret => .failed hret (.inl rfl)
  unfold getattrUnset at h
  split at h
  · rename_i type hnamei
    have htype : w.remote.ftype path = some type := by
      have hsuccess := (dfsNameiTimeout_success env.conf.maxRetry replies.namei path w.remote (by rw [hnamei])).1
      rw [hnamei] at hsuccess
      exact hsuccess.symm
    cases hgetattr : dfsGetattrTimeout env.conf.maxRetry replies.getattr path w.remote with
    | mk status metadata =>
      simp only [hgetattr] at h
      split at h
      · obtain rfl := Exec.done.inj h
        exact hunchanged _ _ (by decide)
      · rename_i hstatus
        have hmetadata := dfsGetattrTimeout_metadata hgetattr (by
          by_contra hnot
          exact hstatus (not_or.mp hnot))
        split at h
        · obtain rfl := Exec.done.inj h
          rw [getattrSettled, Pentry.setFiletypeFromStat_eq]
          exact .plain htype hmetadata.symm
        · rename_i dict
          split at h
          · obtain rfl := Exec.done.inj h
            exact hunchanged _ _ (by decide)
          · split at h
            · cases h
            · split at h
              · obtain rfl := Exec.done.inj h
                obtain ⟨metadata', hset⟩ := pe.setMetadata_eq dict replies.setMetadata
                exact .failed (by decide) (.inr ⟨metadata', by rw [hset]⟩)
              · obtain rfl := Exec.done.inj h
                rw [getattrSettled, Pentry.setFiletypeFromStat_eq]
                exact .described htype hmetadata.symm
  · rename_i status _ hnot hnamei
    obtain rfl := Exec.done.inj h
    refine hunchanged _ _ ?_
    intro hzero
    by_cases hsuccess : status = .success
    · have hlookup := dfsNameiTimeout_success env.conf.maxRetry replies.namei path w.remote
        (by rw [hnamei]; exact hsuccess)
      rw [hnamei] at hlookup
      obtain ⟨type, htype⟩ := Option.isSome_iff_exists.mp hlookup.2
      subst hsuccess
      exact hnot type rfl (hlookup.1.trans htype)
    · have hneg := env.statusCode_neg status hsuccess
      omega

/-- What the function for the placeholder of an entry leaves: everything as it was; the mutex of the metadata
held after a failure; or, with the answer from the store, the entry typed and listed. -/
inductive PlaceholderOutcome (w : World) (addr : ℕ) (pe : Pentry) (path : CStr) (replies : GetattrReplies) :
    Lookup → Prop
  | kept {ret : ℤ} {st : Stat} : (pe.ondisk = .unset → ret ≠ 0) → PlaceholderOutcome w addr pe path replies ⟨ret, st, w⟩
  | held {ret : ℤ} {st : Stat} {metadata : Option Dict} : ret ≠ 0 →
      PlaceholderOutcome w addr pe path replies ⟨ret, st, w.put addr { pe with metadata := metadata, mdLocked := true }⟩
  | served {st : Stat} {metadata : Option Dict} {ondisk : Placeholder} : pe.ondisk = .unset →
      ondisk = .unset ∨ ondisk = .remote →
      PlaceholderOutcome w addr pe path replies ⟨0, st,
        (w.put addr { pe with metadata := metadata, ondisk := ondisk, filetype := some .reg }).fillDirent path
          replies.addDirent⟩

/-- The function for the placeholder ends in one of these ways. -/
theorem getattrByPlaceholder_outcome {env : Env} {w : World} {addr : ℕ} {pe : Pentry} {path : CStr}
    {replies : GetattrReplies} {looked : Lookup}
    (h : getattrByPlaceholder env w addr pe path .single replies = .done looked) :
    PlaceholderOutcome w addr pe path replies looked := by
  have hfailed : (-1 : ℤ) ≠ 0 := by decide
  unfold getattrByPlaceholder at h
  cases hplaceholder : pe.ondisk with
  | remote =>
    rw [hplaceholder] at h
    simp only [getattrRemote] at h
    split at h
    · obtain rfl := Exec.done.inj h
      exact .kept fun _ => hfailed
    · split at h
      · cases h
      · split at h
        · obtain rfl := Exec.done.inj h
          exact .held hfailed
        · obtain rfl := Exec.done.inj h
          exact .kept fun hunset => by rw [hplaceholder] at hunset; cases hunset
  | localFile =>
    rw [hplaceholder] at h
    have hnever : pe.ondisk = .unset → False := fun hunset => by rw [hplaceholder] at hunset; cases hunset
    simp only [getattrLocal] at h
    split at h
    · obtain rfl := Exec.done.inj h
      exact .kept fun hunset => (hnever hunset).elim
    · split at h <;> obtain rfl := Exec.done.inj h <;> exact .kept fun hunset => (hnever hunset).elim
  | unset =>
    rw [hplaceholder] at h
    cases getattrUnset_outcome h with
    | failed hret hworld =>
      rcases hworld with rfl | ⟨metadata, rfl⟩
      · exact .kept fun _ => hret
      · exact .held hret
    | plain =>
      exact @PlaceholderOutcome.served w addr pe path replies _ pe.metadata pe.ondisk hplaceholder (.inl hplaceholder)
    | @described type dict =>
      obtain ⟨metadata, hset⟩ := pe.setMetadata_eq dict replies.setMetadata
      rw [Pentry.cachedRemote, hset]
      exact .served hplaceholder (.inr rfl)

/-- It leaves the table alone. -/
theorem PlaceholderOutcome.table {w : World} {addr : ℕ} {pe : Pentry} {path : CStr} {replies : GetattrReplies}
    {looked : Lookup} (h : PlaceholderOutcome w addr pe path replies looked) : looked.world.table = w.table := by
  cases h with
  | kept => rfl
  | held => rfl
  | served => exact (World.fillDirent_quiet ..).table

/-- What neither depends on the metadata nor on the list of an entry is not changed in other entries, nor by
a lookup that fails. -/
theorem PlaceholderOutcome.map_eq {α : Type} {w : World} {addr other : ℕ} {pe : Pentry} {path : CStr}
    {replies : GetattrReplies} {looked : Lookup} (h : PlaceholderOutcome w addr pe path replies looked)
    (hheap : w.heap addr = some pe) (f : Pentry → α)
    (hmetadata : ∀ pe metadata mdLocked, f { pe with metadata := metadata, mdLocked := mdLocked } = f pe)
    (hdirent : ∀ pe dirent, f { pe with dirent := dirent } = f pe) (hother : other ≠ addr ∨ looked.ret ≠ 0) :
    (looked.world.heap other).map f = (w.heap other).map f := by
  cases h with
  | kept => rfl
  | @held _ _ metadata =>
    by_cases hsame : other = addr
    · rw [hsame, World.put_heap_self, hheap, Option.map_some, Option.map_some, hmetadata pe metadata true]
    · rw [World.put_heap_ne _ _ hsame]
  | served =>
    have hne := hother.resolve_right (fun h => h rfl)
    rw [World.fillDirent_map _ _ _ _ _ hdirent, World.put_heap_ne _ _ hne]

/-- The entry a lookup works on: the one the table has for the path, or a new one. -/
inductive LookupEntry (w : World) (path : CStr) (replies : GetattrReplies) : ℕ → World → Prop
  | found {addr : ℕ} : w.table path = some addr → LookupEntry w path replies addr w
  | made : w.table path = none → replies.alloc = true → replies.keyDup = true →
      LookupEntry w path replies w.nextAddr
        (w.insert path { pentryNew with path := if replies.pathDup then some path else none }).2

/-- `pentry_set_atime` on the entry at an address. -/
def World.touch (w : World) (addr : ℕ) (now : ℤ) : World := w.modify addr fun pe => { pe with atime := some now }

/-- Touching an entry is quiet. -/
theorem World.touch_quiet (w : World) (addr : ℕ) (now : ℤ) : w.Quiet (w.touch addr now) :=
  .modify w addr fun _ => rfl

/-- What a function reads of an entry besides its time survives touching. -/
theorem World.touch_map {α : Type} (w : World) (addr other : ℕ) (now : ℤ) (f : Pentry → α)
    (hf : ∀ pe atime, f { pe with atime := atime } = f pe) :
    ((w.touch addr now).heap other).map f = (w.heap other).map f :=
  modify_map w addr other f fun pe => hf pe _

/-- The ways `dfs_getattr` can end: at the root, without an entry, or with what its function for the
placeholder of the entry returns. -/
inductive GetattrOutcome (env : Env) (w : World) (path : CStr) (replies : GetattrReplies) : Lookup → Prop
  | root : path = "/".toList → GetattrOutcome env w path replies ⟨0, { Stat.single with mode := sIfdir }, w⟩
  | noEntry : w.table path = none → GetattrOutcome env w path replies ⟨-1, .single, w⟩
  | entry {addr : ℕ} {w₁ : World} {pe : Pentry} {looked : Lookup} : path ≠ "/".toList →
      LookupEntry w path replies addr w₁ → w₁.heap addr = some pe →
      getattrByPlaceholder env w₁ addr pe path .single replies = .done looked →
      GetattrOutcome env w path replies { looked with world := looked.world.touch addr replies.now }

/-- `dfs_getattr` ends in one of these ways. -/
theorem dfsGetattr_outcome {env : Env} {w : World} {path : CStr} {replies : GetattrReplies} {looked : Lookup}
    (h : dfsGetattr env w path replies = .done looked) : GetattrOutcome env w path replies looked := by
  unfold dfsGetattr at h
  simp only at h
  split at h
  · rename_i hroot
    obtain rfl := Exec.done.inj h
    exact .root hroot
  · rename_i hroot
    split at h
    · rename_i addr htable
      split at h
      · cases h
      · rename_i pe hheap
        obtain ⟨looked₁, hcall, hdone⟩ := Exec.bind_eq_done.mp h
        obtain rfl := Exec.done.inj hdone
        exact .entry hroot (.found htable) hheap hcall
    · rename_i hnone
      split at h
      · obtain rfl := Exec.done.inj h
        exact .noEntry hnone
      · rename_i halloc
        simp only [not_or, Bool.not_eq_false] at halloc
        obtain ⟨looked₁, hcall, hdone⟩ := Exec.bind_eq_done.mp h
        obtain rfl := Exec.done.inj hdone
        exact .entry hroot (.made hnone halloc.1 halloc.2) (Function.update_self ..) hcall

/-- The entry a lookup works on is then the one the table has for the path. -/
theorem LookupEntry.table {w w₁ : World} {path : CStr} {replies : GetattrReplies} {addr : ℕ}
    (h : LookupEntry w path replies addr w₁) : w₁.table path = some addr := by
  cases h with
  | found htable => exact htable
  | made => exact Function.update_self ..

/-- A new entry is not looked up yet, and neither is one that was not looked up before. -/
theorem LookupEntry.unset {w w₁ : World} {path : CStr} {replies : GetattrReplies} {addr : ℕ} {pe : Pentry}
    (h : LookupEntry w path replies addr w₁) (hheap : w₁.heap addr = some pe)
    (hunset : ∀ pe, w.entry path = some pe → pe.ondisk = .unset) : pe.ondisk = .unset ∧ w₁.remote = w.remote := by
  cases h with
  | found htable => exact ⟨hunset pe (by rw [World.entry, htable]; exact hheap), rfl⟩
  | made =>
    simp only [World.insert, Function.update_self, Option.some.injEq] at hheap
    subst hheap
    exact ⟨rfl, rfl⟩

/-- A lookup answered from cached metadata fills the record from them. -/
theorem getattrRemote_st {w : World} {addr : ℕ} {pe : Pentry} {replies : GetattrReplies} {looked : Lookup}
    (h : getattrRemote w addr pe .single replies = .done looked) (hret : looked.ret = 0) :
    looked.st = cachedStat (pe.metadata.getD Dict.new) := by
  unfold getattrRemote at h
  split at h
  · obtain rfl := Exec.done.inj h
    simp at hret
  · split at h
    · cases h
    · simp only at h
      split at h
      · obtain rfl := Exec.done.inj h
        simp at hret
      · obtain rfl := Exec.done.inj h
        cases pe.metadata with
        | none => rfl
        | some dict => rfl

/-- What reads the metadata of the entry reads what `pentry_set_metadata` left. -/
theorem Pentry.cachedRemote_metadata (pe : Pentry) (dict : Dict) (replies : MetadataReplies) :
    (pe.cachedRemote dict replies).metadata.getD Dict.new = replies.kept dict := by
  unfold cachedRemote setMetadata MetadataReplies.kept MetadataReplies.stores
  cases replies.alloc with
  | false => simp
  | true =>
    by_cases hcopy : replies.copy = .failure <;> simp [hcopy]

/-- A lookup served from the store and the next one, served from the metadata it cached, give the same
mode, size, owner and group exactly when the attributes do not depend on where a lookup starts. -/
theorem cached_getattr_agrees_iff (env : Env) (w : World) (path : CStr) (obj : Obj) (dict : Dict)
    (replies replies' : GetattrReplies) (looked looked' : Lookup) (hroot : path ≠ "/".toList)
    (hobj : w.remote.lookup path = some obj) (hdict : obj.metadata = some dict)
    (hunset : ∀ pe, w.entry path = some pe → pe.ondisk = .unset)
    (hfirst : dfsGetattr env w path replies = .done looked) (hret : looked.ret = 0)
    (hremote : (looked.world.entry path).map Pentry.ondisk = some .remote)
    (hnext : dfsGetattr env looked.world path replies' = .done looked') (hret' : looked'.ret = 0) :
    looked.st.Agrees looked'.st ↔ AttributesFixed env.proc obj.ftype dict replies.setMetadata.stores := by
  have hfilled : looked.st = firstStat env.proc replies.now obj.ftype dict ∧
      ∀ addr pe, looked.world.table path = some addr → looked.world.heap addr = some pe →
        pe.metadata.getD Dict.new = replies.setMetadata.kept dict := by
    cases dfsGetattr_outcome hfirst with
    | root hpath => exact absurd hpath hroot
    | noEntry => simp at hret
    | @entry addr w₁ pe looked₁ _ hentry hheap hcall =>
      obtain ⟨hplaceholder, hsame⟩ := hentry.unset hheap hunset
      rw [getattrByPlaceholder, hplaceholder] at hcall
      have htype : w₁.remote.ftype path = some obj.ftype := by
        rw [hsame, Remote.ftype, if_neg hroot, hobj, Option.map_some]
      have hmetadata : (w₁.remote.lookup path).bind Obj.metadata = some dict := by
        rw [hsame, hobj, Option.bind_some, hdict]
      cases getattrUnset_outcome hcall with
      | failed hfailed => exact absurd hret hfailed
      | plain _ hnone => rw [hmetadata] at hnone; cases hnone
      | @described type dict' htype' hdict' =>
        obtain rfl := Option.some.inj (htype.symm.trans htype')
        obtain rfl := Option.some.inj (hmetadata.symm.trans hdict')
        refine ⟨rfl, fun addr' pe' htable hheap' => ?_⟩
        have hquiet := (World.fillDirent_quiet (w₁.put addr (pe.cachedRemote dict replies.setMetadata)) path
          replies.addDirent).trans (World.touch_quiet _ addr replies.now)
        have haddr : w₁.table path = some addr' := (congrFun hquiet.table path).symm.trans htable
        obtain rfl : addr = addr' := Option.some.inj (hentry.table.symm.trans haddr)
        have hkept : ((((w₁.put addr (pe.cachedRemote dict replies.setMetadata)).fillDirent path
            replies.addDirent).touch addr replies.now).heap addr).map Pentry.metadata =
            some (pe.cachedRemote dict replies.setMetadata).metadata := by
          rw [World.touch_map _ _ _ _ _ fun _ _ => rfl, World.fillDirent_map _ _ _ _ _ fun _ _ => rfl,
            World.put_heap_self, Option.map_some]
        rw [Option.some.inj ((congrArg (Option.map Pentry.metadata) hheap').symm.trans hkept)]
        exact pe.cachedRemote_metadata dict replies.setMetadata
  have hcached : looked'.st = cachedStat (replies.setMetadata.kept dict) := by
    cases dfsGetattr_outcome hnext with
    | root hpath => exact absurd hpath hroot
    | noEntry => simp at hret'
    | @entry addr w₁ pe looked₁ _ hentry hheap hcall =>
      cases hentry with
      | found htable =>
        simp only [World.entry, htable, Option.bind_some, hheap, Option.map_some, Option.some.injEq] at hremote
        simp only [getattrByPlaceholder, hremote] at hcall
        rw [← hfilled.2 addr pe htable hheap]
        have hst : looked₁.st = cachedStat (pe.metadata.getD Dict.new) := getattrRemote_st hcall hret'
        exact hst
      | made hnone => simp [World.entry, hnone] at hremote
  rw [hfilled.1, hcached]
  exact firstStat_agrees_iff ..

/-- The metadata of a symbolic link, as `dfs_symlink` uploads them: its target and the length of that. -/
def linkMetadata : Dict :=
  (Dict.new.updateValue "symlink".toList "t".toList).updateValue "size".toList "1".toList

/-- The second lookup of a symbolic link loses its default permissions and its owner. -/
theorem cached_getattr_differs :
    ∃ looked looked' : Lookup,
      dfsGetattr Env.plain (.start .empty ((∅ : Remote).insert "/l".toList ⟨.reg, [], some linkMetadata, none⟩))
        "/l".toList .granted = .done looked ∧ looked.ret = 0 ∧
      (looked.world.entry "/l".toList).map Pentry.ondisk = some .remote ∧
      dfsGetattr Env.plain looked.world "/l".toList .granted = .done looked' ∧ looked'.ret = 0 ∧
      ¬ looked.st.Agrees looked'.st := by
  refine ⟨_, _, rfl, rfl, rfl, rfl, rfl, fun h => ?_⟩
  exact absurd h.mode (by decide)

/-- Metadata with all of the attributes. -/
def fileMetadata : Dict :=
  (((Dict.new.updateValue "mode".toList "33188".toList).updateValue "size".toList "1".toList).updateValue
    "uid".toList "7".toList).updateValue "gid".toList "7".toList

/-- With all attributes in its metadata, a file looks the same the second time. -/
theorem cached_getattr_agrees_file :
    ∃ looked looked' : Lookup, looked.ret = 0 ∧ looked'.ret = 0 ∧
      (looked.st.Agrees looked'.st ↔ AttributesFixed Env.plain.proc .reg fileMetadata true) :=
  ⟨_, _, rfl, rfl, cached_getattr_agrees_iff Env.plain
    (.start .empty ((∅ : Remote).insert "/f".toList ⟨.reg, [], some fileMetadata, none⟩)) "/f".toList
    ⟨.reg, [], some fileMetadata, none⟩ fileMetadata .granted .granted _ _ (by decide) rfl rfl
    (fun pe h => by cases h) rfl rfl rfl rfl rfl⟩

end Dropletfs
