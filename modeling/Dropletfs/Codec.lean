import Dropletfs.Metadata

/-!
# Attributes stored and read back

`fill_metadata_from_stat` prints every attribute as an unsigned number, and
`fill_stat_from_metadata` reads it as a signed one, of which `-1` stands for a missing key. A
time of `-1`, one second before the epoch, is therefore stored but never read back.
-/

namespace Dropletfs

/-- `struct stat` on an LP64 system, with the fields that the program never assigns one by one. -/
structure StatRecord extends Stat where
  dev : ℤ
  ino : ℤ
  rdev : ℤ
  blksize : ℤ
  blocks : ℤ
  atimeNsec : ℤ
  mtimeNsec : ℤ
  ctimeNsec : ℤ

/-- `fill_stat_from_metadata` on the whole record. -/
def StatRecord.fillFromMetadata (st : StatRecord) (dict : Dict) : StatRecord :=
  { st with toStat := fillStatFromMetadata st.toStat dict }

/-- The size and the times are those of a file on an LP64 system. -/
structure Stat.Lp64 (st : Stat) : Prop where
  size : 0 ≤ st.size ∧ st.size < 2 ^ 63
  atime : -2 ^ 63 ≤ st.atime ∧ st.atime < 2 ^ 63
  mtime : -2 ^ 63 ≤ st.mtime ∧ st.mtime < 2 ^ 63
  ctime : -2 ^ 63 ≤ st.ctime ∧ st.ctime < 2 ^ 63

/-- The seven attributes of two records are the same. -/
structure Stat.SameAttributes (st st' : Stat) : Prop where
  mode : st'.mode = st.mode
  size : st'.size = st.size
  uid : st'.uid = st.uid
  gid : st'.gid = st.gid
  atime : st'.atime = st.atime
  mtime : st'.mtime = st.mtime
  ctime : st'.ctime = st.ctime

/-- The attributes whose keys a dictionary lacks, and all the other fields, are the same. -/
structure StatRecord.KeepsUnnamed (dict : Dict) (st st' : StatRecord) : Prop where
  mode : dict "mode".toList = none → st'.mode = st.mode
  size : dict "size".toList = none → st'.size = st.size
  uid : dict "uid".toList = none → st'.uid = st.uid
  gid : dict "gid".toList = none → st'.gid = st.gid
  atime : dict "atime".toList = none → st'.atime = st.atime
  mtime : dict "mtime".toList = none → st'.mtime = st.mtime
  ctime : dict "ctime".toList = none → st'.ctime = st.ctime
  nlink : st'.nlink = st.nlink
  dev : st'.dev = st.dev
  ino : st'.ino = st.ino
  rdev : st'.rdev = st.rdev
  blksize : st'.blksize = st.blksize
  blocks : st'.blocks = st.blocks
  atimeNsec : st'.atimeNsec = st.atimeNsec
  mtimeNsec : st'.mtimeNsec = st.mtimeNsec
  ctimeNsec : st'.ctimeNsec = st.ctimeNsec

/-- No time reads as a missing key, unless the record that is filled has that time already. -/
structure Stat.Restorable (st prior : Stat) : Prop where
  atime : st.atime = -1 → prior.atime = -1
  mtime : st.mtime = -1 → prior.mtime = -1
  ctime : st.ctime = -1 → prior.ctime = -1

/-- The seven attributes are stored under their keys, in the form of unsigned numbers. -/
structure Stat.StoredIn (st : Stat) (dict : Dict) : Prop where
  mode : dict "mode".toList = some (decimal st.mode.toNat)
  size : dict "size".toList = some (decimal (unsignedLong st.size))
  uid : dict "uid".toList = some (decimal st.uid.toNat)
  gid : dict "gid".toList = some (decimal st.gid.toNat)
  atime : dict "atime".toList = some (decimal (unsignedLong st.atime))
  mtime : dict "mtime".toList = some (decimal (unsignedLong st.mtime))
  ctime : dict "ctime".toList = some (decimal (unsignedLong st.ctime))

/-- `fill_metadata_from_stat` stores the seven attributes, whatever the dictionary held. -/
theorem fillMetadataFromStat_stored (dict : Dict) (st : Stat) : st.StoredIn (fillMetadataFromStat dict st) := by
  constructor <;> simp [fillMetadataFromStat, assignMetaToDict, Dict.updateValue]

/-- The number of a stored attribute reads back as the signed number it was converted from. -/
theorem metadatatoll_stored {dict : Dict} {key : CStr} {v : ℤ}
    (h : dict key = some (decimal (unsignedLong v))) (hmin : -2 ^ 63 ≤ v) (hmax : v < 2 ^ 63) :
    metadatatoll dict key = v := by
  have hfits : unsignedLong v < 2 ^ 64 := by
    rw [unsignedLong]
    omega
  have hcast : ((unsignedLong v : ℕ) : ℤ) = v % 2 ^ 64 := by
    rw [unsignedLong]
    apply Int.toNat_of_nonneg
    omega
  have hsigned : Int.bmod (v % 2 ^ 64) (2 ^ 64) = Int.bmod v (2 ^ 64) := Int.emod_bmod v (2 ^ 64)
  simp only [metadatatoll, h]
  rw [strtoull_decimal hfits, hcast, hsigned]
  apply Int.bmod_eq_of_le <;> omega

/-- A stored time is restored exactly when it does not read as a missing key, or was there already. -/
theorem storeMeta_time_iff {dict : Dict} {key : CStr} {v : ℤ}
    (h : dict key = some (decimal (unsignedLong v))) (hrange : -2 ^ 63 ≤ v ∧ v < 2 ^ 63) (old : ℤ) :
    storeMeta dict key id old = v ↔ (v = -1 → old = -1) := by
  have hread : metadatatoll dict key = v := metadatatoll_stored h hrange.1 hrange.2
  simp only [storeMeta, hread]
  by_cases hmissing : v = -1
  · rw [if_neg (not_not.mpr hmissing), hmissing]
    exact ⟨fun hold _ => hold, fun himp => himp rfl⟩
  · rw [if_pos hmissing]
    exact ⟨fun _ heq => absurd heq hmissing, fun _ => rfl⟩

/-- A stored number that is not negative is restored. -/
theorem storeMeta_nonneg {α : Type} {dict : Dict} {key : CStr} {v : ℤ}
    (h : dict key = some (decimal (unsignedLong v))) (hmin : 0 ≤ v) (hmax : v < 2 ^ 63) (cast : ℤ → α) (old : α) :
    storeMeta dict key cast old = cast v := by
  have hread : metadatatoll dict key = v := metadatatoll_stored h (by omega) hmax
  have hpresent : v ≠ -1 := by omega
  simp only [storeMeta, hread]
  rw [if_pos hpresent]

/-- A stored word is restored. -/
theorem storeMeta_word {dict : Dict} {key : CStr} {v : BitVec 32} (h : dict key = some (decimal v.toNat))
    (old : BitVec 32) : storeMeta dict key (BitVec.ofInt 32) old = v := by
  have hlt : v.toNat < 2 ^ 32 := v.isLt
  have hword : unsignedLong (v.toNat : ℤ) = v.toNat := by
    rw [unsignedLong]
    omega
  rw [storeMeta_nonneg (v := (v.toNat : ℤ)) (by rw [hword]; exact h) (by omega) (by omega)]
  simp

/-- A field whose key is missing keeps its value. -/
theorem storeMeta_absent {α : Type} {dict : Dict} {key : CStr} (h : dict key = none) (cast : ℤ → α) (old : α) :
    storeMeta dict key cast old = old := by
  simp [storeMeta, metadatatoll, h]

/-- Filling a record keeps the attributes whose keys are missing, and all the other fields. -/
theorem StatRecord.fillFromMetadata_keeps (st : StatRecord) (dict : Dict) :
    st.KeepsUnnamed dict (st.fillFromMetadata dict) where
  mode h := storeMeta_absent h _ _
  size h := storeMeta_absent h _ _
  uid h := storeMeta_absent h _ _
  gid h := storeMeta_absent h _ _
  atime h := storeMeta_absent h _ _
  mtime h := storeMeta_absent h _ _
  ctime h := storeMeta_absent h _ _
  nlink := rfl
  dev := rfl
  ino := rfl
  rdev := rfl
  blksize := rfl
  blocks := rfl
  atimeNsec := rfl
  mtimeNsec := rfl
  ctimeNsec := rfl

/-- The stored attributes are restored exactly when no time reads as a missing key. -/
theorem Stat.StoredIn.restored_iff {st : Stat} {dict : Dict} (h : st.StoredIn dict) (hst : st.Lp64) (prior : Stat) :
    st.SameAttributes (fillStatFromMetadata prior dict) ↔ st.Restorable prior := by
  have hatime := storeMeta_time_iff h.atime hst.atime prior.atime
  have hmtime := storeMeta_time_iff h.mtime hst.mtime prior.mtime
  have hctime := storeMeta_time_iff h.ctime hst.ctime prior.ctime
  constructor
  · intro hsame
    exact ⟨hatime.mp hsame.atime, hmtime.mp hsame.mtime, hctime.mp hsame.ctime⟩
  · intro hrestorable
    exact
      { mode := storeMeta_word h.mode prior.mode
        size := storeMeta_nonneg h.size hst.size.1 hst.size.2 id prior.size
        uid := storeMeta_word h.uid prior.uid
        gid := storeMeta_word h.gid prior.gid
        atime := hatime.mpr hrestorable.atime
        mtime := hmtime.mpr hrestorable.mtime
        ctime := hctime.mpr hrestorable.ctime }

/-- The attributes of a file survive the metadata, and a dictionary concerns the fields it names only, exactly
when no time of the file is the one before the epoch that reads as a missing key. -/
theorem attributes_restored_iff (dict : Dict) (st prior : StatRecord) (hst : st.toStat.Lp64) :
    (st.toStat.SameAttributes (prior.fillFromMetadata (fillMetadataFromStat dict st.toStat)).toStat ∧
      ∀ (other : Dict) (record : StatRecord), record.KeepsUnnamed other (record.fillFromMetadata other)) ↔
    st.toStat.Restorable prior.toStat := by
  have hrestored := (fillMetadataFromStat_stored dict st.toStat).restored_iff hst prior.toStat
  constructor
  · intro h
    exact hrestored.mp h.1
  · intro h
    exact ⟨hrestored.mpr h, fun other record => record.fillFromMetadata_keeps other⟩

/-- A record of zeros. -/
def StatRecord.zero : StatRecord := ⟨Stat.zero, 0, 0, 0, 0, 0, 0, 0, 0⟩

/-- A file with the largest owner and a time before the epoch. -/
def StatRecord.early : StatRecord :=
  { StatRecord.zero with mode := 0o100644#32, uid := 0xffffffff#32, size := 5, atime := -2, mtime := 2 ^ 63 - 1 }

/-- The attributes of that file are restored. -/
theorem early_restored :
    StatRecord.early.toStat.SameAttributes
        (StatRecord.zero.fillFromMetadata (fillMetadataFromStat Dict.new StatRecord.early.toStat)).toStat ∧
      ∀ (other : Dict) (record : StatRecord), record.KeepsUnnamed other (record.fillFromMetadata other) :=
  (attributes_restored_iff Dict.new StatRecord.early StatRecord.zero
    ⟨by decide, by decide, by decide, by decide⟩).mpr ⟨by decide, by decide, by decide⟩

/-- The last modification one second before the epoch reads back as whatever the record held. -/
theorem mtime_lost :
    { StatRecord.zero with mtime := -1 }.toStat.Lp64 ∧
      ¬ { StatRecord.zero with mtime := -1 }.toStat.SameAttributes
        (StatRecord.zero.fillFromMetadata
          (fillMetadataFromStat Dict.new { StatRecord.zero with mtime := -1 }.toStat)).toStat := by
  refine ⟨⟨by decide, by decide, by decide, by decide⟩, ?_⟩
  intro h
  exact absurd h.mtime (by decide +kernel)

end Dropletfs
