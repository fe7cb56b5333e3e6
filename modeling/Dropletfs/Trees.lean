import Dropletfs.ByPath
import Dropletfs.Calls
import Dropletfs.Library.PathOrder
import Dropletfs.Removal

/-!
# Directory trees on the store

What a directory holds is given as a forest: its entries in the order of their listing, each
directory with its own. A forest lies in a directory of the store when every listing and every
type is as it says. It goes on lying there as long as the store changes elsewhere only.
-/

namespace Dropletfs

open Interleaving (entryPath)
open PathOrder

/-- What a directory holds, in the order of the listing. -/
inductive Forest where
  | nil
  | file (name : CStr) (rest : Forest)
  | dir (name : CStr) (inner rest : Forest)

/-- A name that a directory entry can have. -/
structure ProperName (name : CStr) : Prop where
  ne_nil : name ≠ []
  noSlash : '/' ∉ name
  notSkipped : skipped name = false

instance (name : CStr) : Decidable (ProperName name) :=
  decidable_of_iff (name ≠ [] ∧ '/' ∉ name ∧ skipped name = false)
    ⟨fun ⟨hne, hslash, hskipped⟩ => ⟨hne, hslash, hskipped⟩, fun ⟨hne, hslash, hskipped⟩ => ⟨hne, hslash, hskipped⟩⟩

namespace Forest

/-- The names of the entries. -/
def entries : Forest → List CStr
  | nil => []
  | file name rest => name :: rest.entries
  | dir name _ rest => name :: rest.entries

/-- The listing of a directory that holds the forest. -/
def listing : Forest → List CStr
  | nil => []
  | file name rest => name :: rest.listing
  | dir name _ rest => (name ++ "/".toList) :: rest.listing

/-- The paths of everything in the forest. -/
def paths (top : CStr) : Forest → List CStr
  | nil => []
  | file name rest => slashed top name :: rest.paths top
  | dir name inner rest => slashed top name :: (inner.paths (slashed top name) ++ rest.paths top)

/-- The names of the files, relative to the directory of the forest. -/
def files : Forest → List CStr
  | nil => []
  | file name rest => name :: rest.files
  | dir name inner rest => inner.files.map (slashed name) ++ rest.files

/-- The names of the directories, relative to that of the forest. -/
def dirs : Forest → List CStr
  | nil => []
  | file _ rest => rest.dirs
  | dir name inner rest => name :: (inner.dirs.map (slashed name) ++ rest.dirs)

/-- How deep directories are nested. -/
def depth : Forest → ℕ
  | nil => 0
  | file _ rest => rest.depth
  | dir _ inner rest => max (inner.depth + 1) rest.depth

/-- Every entry has a proper name, and no two entries of a directory have the same. -/
def Proper : Forest → Prop
  | nil => True
  | file name rest => ProperName name ∧ name ∉ rest.entries ∧ rest.Proper
  | dir name inner rest => ProperName name ∧ name ∉ rest.entries ∧ inner.Proper ∧ rest.Proper

/-- The composed paths fit into a string of the ring. -/
def Short (top : CStr) (forest : Forest) : Prop := ∀ path ∈ forest.paths top, path.length < tmpstrMax

/-- The forest is what a directory of the store holds, apart from the listing of that directory itself. -/
def LiesAt (r : Remote) : CStr → Forest → Prop
  | _, nil => True
  | top, file name rest => (∃ obj, r.lookup (slashed top name) = some obj ∧ obj.ftype ≠ .dir) ∧ rest.LiesAt r top
  | top, dir name inner rest => (∃ obj, r.lookup (slashed top name) = some obj ∧ obj.ftype = .dir) ∧
      r.children (slashed top name) = inner.listing ∧ inner.LiesAt r (slashed top name) ∧ rest.LiesAt r top

instance decidableProper : (forest : Forest) → Decidable forest.Proper
  | nil => inferInstanceAs (Decidable True)
  | file name rest =>
    have := rest.decidableProper
    inferInstanceAs (Decidable (ProperName name ∧ name ∉ rest.entries ∧ rest.Proper))
  | dir name inner rest =>
    have := inner.decidableProper
    have := rest.decidableProper
    inferInstanceAs (Decidable (ProperName name ∧ name ∉ rest.entries ∧ inner.Proper ∧ rest.Proper))

instance (top : CStr) (forest : Forest) : Decidable (forest.Short top) :=
  inferInstanceAs (Decidable (∀ path ∈ forest.paths top, path.length < tmpstrMax))

instance decidableLiesAt (r : Remote) : (top : CStr) → (forest : Forest) → Decidable (forest.LiesAt r top)
  | _, nil => inferInstanceAs (Decidable True)
  | top, file name rest =>
    have := rest.decidableLiesAt r top
    inferInstanceAs (Decidable ((∃ obj ∈ r.lookup (slashed top name), obj.ftype ≠ .dir) ∧ rest.LiesAt r top))
  | top, dir name inner rest =>
    have := inner.decidableLiesAt r (slashed top name)
    have := rest.decidableLiesAt r top
    inferInstanceAs (Decidable ((∃ obj ∈ r.lookup (slashed top name), obj.ftype = .dir) ∧
      r.children (slashed top name) = inner.listing ∧ inner.LiesAt r (slashed top name) ∧ rest.LiesAt r top))

end Forest

/-- A directory with all that it holds. -/
structure RemoteTree where
  inside : Forest
  proper : inside.Proper

/-- The tree stands at a path of the store. -/
structure RemoteTree.StandsAt (tree : RemoteTree) (r : Remote) (path : CStr) : Prop where
  isDir : ∃ obj, r.lookup path = some obj ∧ obj.ftype = .dir
  listed : r.children path = tree.inside.listing
  inside : tree.inside.LiesAt r path

section Paths

variable {top path name : CStr}

/-- The paths below a path are longer than one character. -/
theorem ne_root_of_below (hname : name ≠ []) (h : Below '/' (slashed top name) path) : path ≠ "/".toList := by
  rintro rfl
  have hlength := h.length_le
  have hpos := List.length_pos_of_ne_nil hname
  simp only [slashed, List.length_append, List.length_cons] at hlength
  have hone : "/".toList.length = 1 := rfl
  omega

/-- A composed path is not that of the root. -/
theorem slashed_ne_root (hname : name ≠ []) : slashed top name ≠ "/".toList :=
  ne_root_of_below hname (.refl '/' (slashed top name))

/-- The path formed from a name without a slash. -/
theorem entryPath_name (hname : name ≠ []) (hnoSlash : '/' ∉ name) (hshort : (slashed top name).length < tmpstrMax) :
    entryPath top name = slashed top name := by
  have hlast : (slashed top name).getLast? ≠ some '/' := by
    intro hslash
    obtain ⟨first, rest, rfl⟩ := List.exists_cons_of_ne_nil hname
    have hlast : (first :: rest).getLast? = some '/' := by
      simpa [slashed, List.getLast?_append, List.getLast?_cons_cons] using hslash
    exact hnoSlash (List.mem_of_getLast? hlast)
  rw [entryPath, tmpstrPrintf_of_fits _ hshort, dropTrailingSlash, if_neg hlast]

/-- A slash at the end of the name is lost. -/
theorem entryPath_slash (hname : name ≠ []) (hnoSlash : '/' ∉ name) (hshort : (slashed top name).length < tmpstrMax) :
    entryPath top (name ++ "/".toList) = slashed top name := by
  have htext : slashed top (name ++ "/".toList) = slashed top name ++ ['/'] := by simp [slashed]
  by_cases hfits : (slashed top name).length + 1 < tmpstrMax
  · rw [entryPath, htext, tmpstrPrintf_of_fits _ (by simpa using hfits), dropTrailingSlash, if_pos (by simp),
      List.dropLast_concat]
  · -- the slash is what does not fit
    have hcut : tmpstrPrintf (slashed top name ++ ['/']) = tmpstrPrintf (slashed top name) := by
      have hlength : (slashed top name).length = tmpstrMax - 1 := by omega
      rw [tmpstrPrintf, tmpstrPrintf, ← hlength, List.take_left', List.take_length]
      rfl
    have hfile := entryPath_name hname hnoSlash hshort
    rw [entryPath] at hfile
    rw [entryPath, htext, hcut, hfile]

/-- The path of an entry that is no directory, formed from the listing. -/
theorem entryPath_file (hname : ProperName name) (hshort : (slashed top name).length < tmpstrMax) :
    entryPath top name = slashed top name := entryPath_name hname.ne_nil hname.noSlash hshort

/-- The path of a directory loses the slash of the listing. -/
theorem entryPath_dir (hname : ProperName name) (hshort : (slashed top name).length < tmpstrMax) :
    entryPath top (name ++ "/".toList) = slashed top name := entryPath_slash hname.ne_nil hname.noSlash hshort

end Paths

namespace Forest

variable {top path : CStr} {forest : Forest}

/-- Everything in a forest is below one of its entries. -/
theorem exists_entry_of_mem_paths (h : path ∈ forest.paths top) :
    ∃ name ∈ forest.entries, Below '/' (slashed top name) path := by
  induction forest generalizing top with
  | nil => cases h
  | file name rest ih =>
    rcases List.mem_cons.mp h with rfl | h
    · exact ⟨name, List.mem_cons_self, .refl ..⟩
    · obtain ⟨other, hmem, hbelow⟩ := ih h
      exact ⟨other, List.mem_cons_of_mem _ hmem, hbelow⟩
  | dir name inner rest ihInner ih =>
    rcases List.mem_cons.mp h with rfl | h
    · exact ⟨name, List.mem_cons_self, .refl ..⟩
    · rcases List.mem_append.mp h with h | h
      · obtain ⟨other, -, hbelow⟩ := ihInner h
        exact ⟨name, List.mem_cons_self, (below_entry '/' (slashed top name) other).trans hbelow⟩
      · obtain ⟨other, hmem, hbelow⟩ := ih h
        exact ⟨other, List.mem_cons_of_mem _ hmem, hbelow⟩

/-- Everything in a forest is below its directory. -/
theorem below_of_mem_paths (h : path ∈ forest.paths top) : Below '/' top path := by
  obtain ⟨name, -, hbelow⟩ := exists_entry_of_mem_paths h
  exact (below_entry '/' top name).trans hbelow

/-- The entries of a proper forest have proper names. -/
theorem Proper.name (h : forest.Proper) {name : CStr} (hmem : name ∈ forest.entries) : ProperName name := by
  induction forest with
  | nil => cases hmem
  | file first rest ih =>
    rcases List.mem_cons.mp hmem with rfl | hmem
    · exact h.1
    · exact ih h.2.2 hmem
  | dir first inner rest _ ih =>
    rcases List.mem_cons.mp hmem with rfl | hmem
    · exact h.1
    · exact ih h.2.2.2 hmem

/-- What is in the rest of a directory is apart from an entry with another name. -/
theorem Proper.apart (h : forest.Proper) {name : CStr} (hname : ProperName name) (hnew : name ∉ forest.entries)
    (hmem : path ∈ forest.paths top) : Apart '/' path (slashed top name) := by
  obtain ⟨other, hother, hbelow⟩ := exists_entry_of_mem_paths hmem
  have hne : name ≠ other := fun heq => hnew (heq ▸ hother)
  exact ((entries_apart hne hname.noSlash (h.name hother).noSlash).below hbelow).symm

/-- The directory of a forest is none of the paths in it. -/
theorem top_notMem_paths : top ∉ forest.paths top := by
  intro hmem
  obtain ⟨name, -, hbelow⟩ := exists_entry_of_mem_paths hmem
  exact not_below_entry '/' top name hbelow

/-- The paths in a proper forest are different. -/
theorem Proper.paths_nodup (h : forest.Proper) : (forest.paths top).Nodup := by
  induction forest generalizing top with
  | nil => exact List.nodup_nil
  | file name rest ih =>
    obtain ⟨hname, hnew, hrest⟩ := h
    exact List.nodup_cons.mpr ⟨fun hmem => (hrest.apart hname hnew hmem).ne rfl, ih hrest⟩
  | dir name inner rest ihInner ih =>
    obtain ⟨hname, hnew, hinner, hrest⟩ := h
    refine List.nodup_cons.mpr ⟨fun hmem => ?_, List.nodup_append'.mpr ⟨ihInner hinner, ih hrest, ?_⟩⟩
    · rcases List.mem_append.mp hmem with hmem | hmem
      · exact top_notMem_paths hmem
      · exact (hrest.apart hname hnew hmem).ne rfl
    · intro path hin hout
      exact (hrest.apart hname hnew hout).2 (below_of_mem_paths hin)

end Forest

/-- Between two states of the store only objects at some paths have changed. -/
structure Remote.ChangedIn (T : CStr → Prop) (r r' : Remote) : Prop where
  lookup : ∀ path, ¬ T path → r'.lookup path = r.lookup path
  children : ∀ dir, (∀ path, T path → childName dir path = none) → r'.children dir = r.children dir

namespace Remote.ChangedIn

variable {T T' : CStr → Prop} {r r₁ r₂ : Remote}

/-- Nothing has changed. -/
theorem refl (T : CStr → Prop) (r : Remote) : r.ChangedIn T r := ⟨fun _ _ => rfl, fun _ _ => rfl⟩

/-- One change after another. -/
theorem trans (h₁ : r.ChangedIn T r₁) (h₂ : r₁.ChangedIn T r₂) : r.ChangedIn T r₂ where
  lookup path hpath := (h₂.lookup path hpath).trans (h₁.lookup path hpath)
  children dir hdir := (h₂.children dir hdir).trans (h₁.children dir hdir)

/-- More paths may have changed. -/
theorem mono (h : r.ChangedIn T r₁) (hsub : ∀ path, T path → T' path) : r.ChangedIn T' r₁ where
  lookup path hpath := h.lookup path fun hT => hpath (hsub path hT)
  children dir hdir := h.children dir fun path hT => hdir path (hsub path hT)

/-- The changes of attempts that change one path only. -/
theorem writeTimeout {path : CStr} (maxRetry : ℤ) (retriable : Status → Bool) {call : ℕ → Remote → Status × Remote}
    (hcall : ∀ i (r : Remote), r.ChangedIn (· = path) (call i r).2) (r : Remote) :
    r.ChangedIn (· = path) (writeTimeout maxRetry retriable call r).2 :=
  writeTimeout_preserves maxRetry retriable call (fun r' => r.ChangedIn (· = path) r')
    (fun i r' hr' => hr'.trans (hcall i r')) r (.refl ..)

end Remote.ChangedIn

section Store

variable {r : Remote} {dir path : CStr}

/-- Leaving out what a function ignores does not change what it selects. -/
theorem filterMap_kerase {γ : Type} (f : (Σ _ : CStr, Obj) → Option γ) (entries : List (Σ _ : CStr, Obj))
    (h : ∀ entry, entry.1 = path → f entry = none) :
    (entries.kerase path).filterMap f = entries.filterMap f := by
  induction entries with
  | nil => rfl
  | cons entry entries ih =>
    by_cases heq : path = entry.1
    · rw [List.kerase_cons_eq heq, List.filterMap_cons_none (h entry heq.symm)]
    · rw [List.kerase_cons_ne heq]
      simp only [List.filterMap_cons, ih]

/-- Removing the object at a path. -/
theorem Remote.changedIn_erase (r : Remote) (path : CStr) : r.ChangedIn (· = path) (r.erase path) where
  lookup other hother := AList.lookup_erase_ne hother
  children dir hdir := by
    refine filterMap_kerase _ r.entries fun entry hentry => ?_
    rw [hdir entry.1 hentry]
    rfl

/-- Storing an object at a path. -/
theorem Remote.changedIn_insert (r : Remote) (path : CStr) (obj : Obj) :
    r.ChangedIn (· = path) (r.insert path obj) where
  lookup other hother := AList.lookup_insert_ne hother
  children dir hdir := by
    rw [Remote.children, AList.entries_insert, List.filterMap_cons_none]
    · exact (r.changedIn_erase path).children dir hdir
    · rw [hdir path rfl]
      rfl

/-- Copying changes the new path. -/
theorem dfsFcopyTimeout_changedIn (maxRetry : ℤ) (replies : ℕ → Reply) (old new : CStr) (r : Remote) :
    r.ChangedIn (· = new) (dfsFcopyTimeout maxRetry replies old new r).2 := by
  refine .writeTimeout maxRetry Status.retriable (fun i r => ?_) r
  unfold dplFcopy
  cases r.lookup old with
  | none => exact .refl ..
  | some obj =>
    simp only
    split
    · exact r.changedIn_insert new obj
    · exact .refl ..

/-- Unlinking changes its path. -/
theorem dfsUnlinkTimeout_changedIn (maxRetry : ℤ) (replies : ℕ → Reply) (path : CStr) (r : Remote) :
    r.ChangedIn (· = path) (dfsUnlinkTimeout maxRetry replies path r).2 := by
  refine .writeTimeout maxRetry Status.retriable (fun i r => ?_) r
  unfold dplUnlink
  simp only
  split
  · exact r.changedIn_erase path
  · exact .refl ..

/-- Making a directory changes its path. -/
theorem dfsMkdirTimeout_changedIn (maxRetry : ℤ) (replies : ℕ → Reply) (path : CStr) (r : Remote) :
    r.ChangedIn (· = path) (dfsMkdirTimeout maxRetry replies path r).2 := by
  refine .writeTimeout maxRetry Status.retriable (fun i r => ?_) r
  unfold dplMkdir
  simp only
  split
  · exact r.changedIn_insert path _
  · exact .refl ..

/-- Removing a directory changes its path. -/
theorem dfsRmdirTimeout_changedIn (maxRetry : ℤ) (replies : ℕ → Reply) (path : CStr) (r : Remote) :
    r.ChangedIn (· = path) (dfsRmdirTimeout maxRetry replies path r).2 := by
  refine .writeTimeout maxRetry Status.retriable (fun i r => ?_) r
  unfold dplRmdir
  simp only
  split
  · simp only
    split
    · exact r.changedIn_erase path
    · exact .refl ..
  · exact .refl ..

/-- The entries of a directory are below it. -/
theorem childName_eq_none (hroot : dir ≠ "/".toList) (h : ¬ Below '/' dir path) : childName dir path = none := by
  unfold childName
  rw [if_neg hroot]
  cases hahead : (dir ++ "/".toList).isPrefixOf? path with
  | none => rfl
  | some name => exact absurd (.inr ⟨name, List.isPrefixOf?_eq_some_iff_append_eq.mp hahead⟩) h

/-- A forest stays where it is when nothing changes at its paths or in its directories. -/
theorem Forest.LiesAt.changed {T : CStr → Prop} {r' : Remote} {forest : Forest} {top : CStr} (hproper : forest.Proper)
    (h : r.ChangedIn T r') (hclear : ∀ path ∈ forest.paths top, ∀ other, T other → ¬ Below '/' path other)
    (hlies : forest.LiesAt r top) : forest.LiesAt r' top := by
  have hlookup : ∀ path ∈ forest.paths top, r'.lookup path = r.lookup path :=
    fun path hmem => h.lookup path fun hT => hclear path hmem path hT (.refl '/' path)
  induction forest generalizing top with
  | nil => trivial
  | file name rest ih =>
    obtain ⟨⟨obj, hobj, htype⟩, hrest⟩ := hlies
    refine ⟨⟨obj, (hlookup _ List.mem_cons_self).trans hobj, htype⟩, ?_⟩
    exact ih hproper.2.2 (fun path hmem => hclear path (List.mem_cons_of_mem _ hmem)) hrest
      fun path hmem => hlookup path (List.mem_cons_of_mem _ hmem)
  | dir name inner rest ihInner ih =>
    obtain ⟨⟨obj, hobj, htype⟩, hchildren, hinner, hrest⟩ := hlies
    have hinnerMem : ∀ path ∈ inner.paths (slashed top name), path ∈ (dir name inner rest).paths top :=
      fun path hmem => List.mem_cons_of_mem _ (List.mem_append_left _ hmem)
    have hrestMem : ∀ path ∈ rest.paths top, path ∈ (dir name inner rest).paths top :=
      fun path hmem => List.mem_cons_of_mem _ (List.mem_append_right _ hmem)
    refine ⟨⟨obj, (hlookup _ List.mem_cons_self).trans hobj, htype⟩, ?_, ?_, ?_⟩
    · rw [← hchildren]
      refine h.children _ fun path hT => childName_eq_none (slashed_ne_root hproper.1.ne_nil) ?_
      exact hclear _ List.mem_cons_self path hT
    · exact ihInner hproper.2.2.1 (fun path hmem => hclear path (hinnerMem path hmem)) hinner
        fun path hmem => hlookup path (hinnerMem path hmem)
    · exact ih hproper.2.2.2 (fun path hmem => hclear path (hrestMem path hmem)) hrest
        fun path hmem => hlookup path (hrestMem path hmem)

end Store

end Dropletfs
