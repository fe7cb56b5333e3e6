import Dropletfs.CString
import Mathlib.Logic.Function.Basic

/-!
# Metadata dictionaries and `struct stat`

The program keeps the attributes of a file in a dictionary of strings and converts them
from and to `struct stat`. A missing key, and the value that reads back as `-1`, leave the
field of the record as it was.
-/

namespace Dropletfs

/-- A libdroplet dictionary. -/
abbrev Dict := CStr → Option CStr

/-- `dpl_dict_new`. -/
def Dict.new : Dict := fun _ => none

/-- `dpl_dict_update_value`. -/
def Dict.updateValue (dict : Dict) (key value : CStr) : Dict := Function.update dict key (some value)

/-- The key has the new value. -/
theorem Dict.updateValue_self (dict : Dict) (key value : CStr) : dict.updateValue key value key = some value :=
  Function.update_self ..

/-- Another key has the value it had. -/
theorem Dict.updateValue_of_ne (dict : Dict) {key other : CStr} (h : other ≠ key) (value : CStr) :
    dict.updateValue key value other = dict other :=
  Function.update_of_ne h ..

/-- The fields of `struct stat` that the program reads or writes. -/
structure Stat where
  mode : BitVec 32
  nlink : ℕ
  uid : BitVec 32
  gid : BitVec 32
  size : ℤ
  atime : ℤ
  mtime : ℤ
  ctime : ℤ
  deriving DecidableEq, Repr

/-- The record after `memset(st, 0, sizeof *st)`. -/
def Stat.zero : Stat := ⟨0, 0, 0, 0, 0, 0, 0, 0⟩

/-- `S_IFMT`, the file type bits. -/
def sIfmt : BitVec 32 := 0o170000#32

/-- `S_IFREG`. -/
def sIfreg : BitVec 32 := 0o100000#32

/-- `S_IFDIR`. -/
def sIfdir : BitVec 32 := 0o040000#32

/-- `S_IFLNK`. -/
def sIflnk : BitVec 32 := 0o120000#32

/-- `S_IRUSR`. -/
def sIrusr : BitVec 32 := 0o400#32

/-- `S_IWUSR`. -/
def sIwusr : BitVec 32 := 0o200#32

/-- `S_IXUSR`. -/
def sIxusr : BitVec 32 := 0o100#32

/-- `S_ISREG`. -/
def sIsreg (mode : BitVec 32) : Bool := mode &&& sIfmt == sIfreg

/-- Store the decimal form of an unsigned long under a key. -/
def assignMetaToDict (dict : Dict) (key : CStr) (val : ℕ) : Dict := dict.updateValue key (decimal val)

/-- Store the seven attributes of a `struct stat`. -/
def fillMetadataFromStat (dict : Dict) (st : Stat) : Dict :=
  let dict := assignMetaToDict dict "mode".toList st.mode.toNat
  let dict := assignMetaToDict dict "size".toList (unsignedLong st.size)
  let dict := assignMetaToDict dict "uid".toList st.uid.toNat
  let dict := assignMetaToDict dict "gid".toList st.gid.toNat
  let dict := assignMetaToDict dict "atime".toList (unsignedLong st.atime)
  let dict := assignMetaToDict dict "mtime".toList (unsignedLong st.mtime)
  assignMetaToDict dict "ctime".toList (unsignedLong st.ctime)

/-- The value of a key as a signed 64-bit number, `-1` when the key is absent. -/
def metadatatoll (dict : Dict) (name : CStr) : ℤ :=
  match dict name with
  | none => -1
  | some value => Int.bmod (strtoull value) (2 ^ 64)

/-- The new value of one field, `STORE_META`: the old one when the key reads as `-1`. -/
def storeMeta {α : Type} (dict : Dict) (name : CStr) (cast : ℤ → α) (old : α) : α :=
  let v := metadatatoll dict name
  if v ≠ -1 then cast v else old

/-- Overwrite the fields whose keys are present. -/
def fillStatFromMetadata (st : Stat) (dict : Dict) : Stat :=
  let st := { st with size := storeMeta dict "size".toList id st.size }
  let st := { st with mode := storeMeta dict "mode".toList (BitVec.ofInt 32) st.mode }
  let st := { st with uid := storeMeta dict "uid".toList (BitVec.ofInt 32) st.uid }
  let st := { st with gid := storeMeta dict "gid".toList (BitVec.ofInt 32) st.gid }
  let st := { st with atime := storeMeta dict "atime".toList id st.atime }
  let st := { st with ctime := storeMeta dict "ctime".toList id st.ctime }
  { st with mtime := storeMeta dict "mtime".toList id st.mtime }

/-- The seven attributes are written under seven different keys, so the stored size is the one
of the record. -/
theorem fillMetadataFromStat_size (dict : Dict) (st : Stat) :
    fillMetadataFromStat dict st "size".toList = some (decimal (unsignedLong st.size)) := by
  simp [fillMetadataFromStat, assignMetaToDict, Dict.updateValue]

/-- A key other than the seven attributes keeps its value. -/
theorem fillMetadataFromStat_other (dict : Dict) (st : Stat) (key : CStr)
    (h : key ∉ ["mode".toList, "size".toList, "uid".toList, "gid".toList, "atime".toList,
      "mtime".toList, "ctime".toList]) :
    fillMetadataFromStat dict st key = dict key := by
  simp only [List.mem_cons, List.not_mem_nil, or_false, not_or] at h
  obtain ⟨hmode, hsize, huid, hgid, hatime, hmtime, hctime⟩ := h
  simp only [fillMetadataFromStat, assignMetaToDict, Dict.updateValue, Function.update_apply, hmode,
    hsize, huid, hgid, hatime, hmtime, hctime, if_false]

end Dropletfs
