import Dropletfs.Removal
import Dropletfs.RoundTrip
import Dropletfs.ScratchFiles
import Dropletfs.Stored

/-!
# Cache files that the store backs

An entry with a descriptor is exposed when nothing but its count keeps the collector from
dropping it: it is not excluded, its mutex is free, and no handle that may write is open on
it. It is backed when its descriptor is that of the cache file of its path and, if it is
exposed, the store keeps the content of that file. Most calls leave the cache files of most
paths alone, and then what was backed stays backed.
-/

namespace Dropletfs

/-- The table has an entry with a descriptor for the path. -/
structure World.HasFile (w : World) (path : CStr) (addr : ℕ) (pe : Pentry) : Prop where
  table : w.table path = some addr
  heap : w.heap addr = some pe
  fd : 0 ≤ pe.fd

/-- Nothing but its count keeps the collector from dropping the entry; `written` tells on which addresses a
handle that may write is open. -/
structure Exposed (written : ℕ → Prop) (addr : ℕ) (pe : Pentry) : Prop where
  exclude : pe.exclude = false
  locked : pe.locked = false
  unwritten : ¬ written addr

/-- The path has a file, and its entry is exposed. -/
def World.ExposedAt (written : ℕ → Prop) (w : World) (path : CStr) : Prop :=
  ∃ addr pe, w.HasFile path addr pe ∧ Exposed written addr pe

/-- The descriptor of the entry is that of the cache file, whose content the store keeps if the entry is exposed. -/
structure World.Backed (env : Env) (written : ℕ → Prop) (w : World) (path : CStr) (addr : ℕ) (pe : Pentry) : Prop where
  placed : Placed env.conf path
  cached : ∃ file content, w.Cached env addr path pe file content ∧
    (Exposed written addr pe → w.remote.Keeps env path content)

/-- What the path has as a file is backed. -/
def World.BackedAt (env : Env) (written : ℕ → Prop) (w : World) (path : CStr) : Prop :=
  ∀ addr pe, w.HasFile path addr pe → w.Backed env written path addr pe

/-- The cache files of the other paths have none of these names. -/
def World.OthersSpared (env : Env) (w : World) (path : CStr) (N : CStr → Prop) : Prop :=
  ∀ other addr pe, other ≠ path → w.HasFile other addr pe → ¬ N (collapse (cacheName env.conf other))

/-- A name leads to the file it led to, and that has the content it had. -/
structure LocalFs.Spares (fs fs' : LocalFs) (name : CStr) : Prop where
  names : fs'.names name = fs.names name
  content : ∀ ino, fs.names name = some ino → (fs'.inodes ino).content = (fs.inodes ino).content

/-- The path has a file only if it had this file before, its descriptor, name and content are as they were, and
if the entry is exposed it was, and the object is as it was. -/
def World.Leaves (env : Env) (written written' : ℕ → Prop) (w w' : World) (path : CStr) : Prop :=
  ∀ addr pe', w'.HasFile path addr pe' → ∃ pe, w.HasFile path addr pe ∧ pe'.fd = pe.fd ∧
    w'.fs.files pe.fd.toNat = w.fs.files pe.fd.toNat ∧
    w.fs.Spares w'.fs (collapse (cacheName env.conf path)) ∧
    (Exposed written' addr pe' → Exposed written addr pe ∧ w'.remote.lookup path = w.remote.lookup path)

namespace LocalFs

variable {N : CStr → Prop} {fs fs₁ fs₂ : LocalFs} {name : CStr}

/-- Nothing has changed. -/
theorem Spares.refl (fs : LocalFs) (name : CStr) : fs.Spares fs name := ⟨rfl, fun _ _ => rfl⟩

/-- One change after another. -/
theorem Spares.trans (h₁ : fs.Spares fs₁ name) (h₂ : fs₁.Spares fs₂ name) : fs.Spares fs₂ name where
  names := h₂.names.trans h₁.names
  content := by
    intro ino hname
    rw [h₂.content ino (h₁.names.trans hname), h₁.content ino hname]

/-- A name that is none of those changed is spared. -/
theorem Frame.spares (h : fs.Frame N fs₁) (hN : ¬ N name) : fs.Spares fs₁ name where
  names := h.names name hN
  content := by
    intro ino hname
    have hother : ∀ other, N other → fs.names other ≠ some ino := by
      intro other hother hsame
      exact hN (fs.names_inj _ _ _ hsame hname ▸ hother)
    rw [h.inodes ino (fs.names_lt _ _ hname) hother]

/-- Unlinking keeps the descriptors. -/
theorem unlink_keeps (fs : LocalFs) (other : CStr) (reply : Bool) : fs.Keeps (fs.unlink other reply) := by
  intro fd file hfile
  rw [unlink_files]
  exact hfile

/-- Unlinking spares the other names. -/
theorem unlink_spares (fs : LocalFs) {other : CStr} {reply : Bool} (h : reply = true → collapse other ≠ name) :
    fs.Spares (fs.unlink other reply) name := by
  unfold unlink
  split
  · rename_i hreply
    exact ⟨Function.update_of_ne (h hreply).symm _ _, fun _ _ => rfl⟩
  · exact .refl fs name

end LocalFs

namespace World

section Leaves

variable {env : Env} {written written' written'' : ℕ → Prop} {w w₁ w₂ : World} {path : CStr}

/-- Nothing has changed. -/
theorem Leaves.refl (env : Env) (written : ℕ → Prop) (w : World) (path : CStr) :
    w.Leaves env written written w path := by
  intro addr pe hfile
  exact ⟨pe, hfile, rfl, rfl, .refl _ _, fun hexposed => ⟨hexposed, rfl⟩⟩

/-- One change after another. -/
theorem Leaves.trans (h₁ : w.Leaves env written written' w₁ path) (h₂ : w₁.Leaves env written' written'' w₂ path) :
    w.Leaves env written written'' w₂ path := by
  intro addr pe₂ hfile₂
  obtain ⟨pe₁, hfile₁, hfd₂, hfiles₂, hspares₂, hexposed₂⟩ := h₂ addr pe₂ hfile₂
  obtain ⟨pe, hfile, hfd₁, hfiles₁, hspares₁, hexposed₁⟩ := h₁ addr pe₁ hfile₁
  refine ⟨pe, hfile, hfd₂.trans hfd₁, ?_, hspares₁.trans hspares₂, ?_⟩
  · rw [← hfiles₁, ← hfd₁, hfiles₂]
  · intro hexposed
    obtain ⟨hexposed', hlookup₂⟩ := hexposed₂ hexposed
    obtain ⟨hexposed'', hlookup₁⟩ := hexposed₁ hexposed'
    exact ⟨hexposed'', hlookup₂.trans hlookup₁⟩

/-- More handles may write. -/
theorem Leaves.more (h : w.Leaves env written written' w₁ path) (hmore : ∀ addr, written' addr → written'' addr) :
    w.Leaves env written written'' w₁ path := by
  intro addr pe₁ hfile₁
  obtain ⟨pe, hfile, hfd, hfiles, hspares, hexposed⟩ := h addr pe₁ hfile₁
  exact ⟨pe, hfile, hfd, hfiles, hspares, fun h => hexposed ⟨h.exclude, h.locked, fun hw => h.unwritten (hmore _ hw)⟩⟩

/-- What is left alone stays backed. -/
theorem Leaves.backedAt (h : w.Leaves env written written' w₁ path) (hbacked : w.BackedAt env written path) :
    w₁.BackedAt env written' path := by
  intro addr pe₁ hfile₁
  obtain ⟨pe, hfile, hfd, hfiles, hspares, hexposed⟩ := h addr pe₁ hfile₁
  obtain ⟨hplaced, file, content, hcached, hkeeps⟩ := hbacked addr pe hfile
  have hcached₁ : w₁.Cached env addr path pe₁ file content :=
    hcached.transfer hfile₁.heap hfd hfiles hspares.names (by
      rw [hspares.content _ hcached.name, hcached.holds.content])
  refine ⟨hplaced, file, content, hcached₁, fun hexposed₁ => ?_⟩
  obtain ⟨hexposed', hlookup⟩ := hexposed hexposed₁
  obtain ⟨obj, hobj, hgives⟩ := hkeeps hexposed'
  exact ⟨obj, hlookup.trans hobj, hgives⟩

/-- What is left alone keeps the names the cache files have. -/
theorem Leaves.hasFile (h : w.Leaves env written written' w₁ path) {addr : ℕ} {pe : Pentry}
    (hfile : w₁.HasFile path addr pe) : ∃ pe, w.HasFile path addr pe := by
  obtain ⟨pe, hbefore, -⟩ := h addr pe hfile
  exact ⟨pe, hbefore⟩

/-- In a sound state the descriptor of an entry stays open with those that were open. -/
theorem Sound.files_eq {fs : LocalFs} {addr : ℕ} {pe : Pentry} (h : w.Sound env) (hkeeps : w.fs.Keeps fs)
    (hfile : w.HasFile path addr pe) : fs.files pe.fd.toNat = w.fs.files pe.fd.toNat := by
  rcases h.rewound addr pe hfile.heap with hnone | ⟨fd, file, hfd, hopen, -⟩
  · have := hfile.fd
    omega
  · rw [hfd, Int.toNat_natCast, hopen]
    exact hkeeps fd file hopen

/-- Quiet changes, which concern the objects of exposed entries in no way. -/
theorem Quiet.leaves (h : w.Quiet w₁)
    (hremote : ∀ addr pe, w.HasFile path addr pe → Exposed written addr pe →
      w₁.remote.lookup path = w.remote.lookup path) : w.Leaves env written written w₁ path := by
  intro addr pe₁ hfile₁
  obtain ⟨pe, hheap, hcore⟩ := h.heap_after hfile₁.heap
  have hfd : pe₁.fd = pe.fd := congrArg Core.fd hcore
  have hexclude : pe₁.exclude = pe.exclude := congrArg Core.exclude hcore
  have hlocked : pe₁.locked = pe.locked := congrArg Core.locked hcore
  have hfile : w.HasFile path addr pe := ⟨h.table ▸ hfile₁.table, hheap, hfd ▸ hfile₁.fd⟩
  refine ⟨pe, hfile, hfd, by rw [h.fs], by rw [h.fs]; exact .refl _ _, fun hexposed => ?_⟩
  have hexposed' : Exposed written addr pe :=
    ⟨hexclude ▸ hexposed.exclude, hlocked ▸ hexposed.locked, hexposed.unwritten⟩
  exact ⟨hexposed', hremote addr pe hfile hexposed'⟩

/-- A new entry has no file. -/
theorem Grown.leaves {other : CStr} (h : w.Grown other w₁) (hsound : w.Sound env) :
    w.Leaves env written written w₁ path := by
  cases h with
  | same => exact .refl env written w path
  | more hnone hfresh =>
    intro addr pe₁ hfile₁
    have htable := hfile₁.table
    have hheap := hfile₁.heap
    have hfd := hfile₁.fd
    simp only [insert, Function.update_apply] at htable hheap
    split at htable
    · obtain rfl := Option.some.inj htable
      rw [if_pos rfl] at hheap
      obtain rfl := Option.some.inj hheap
      rw [hfresh.fd] at hfd
      omega
    · have hlt := hsound.table_lt path addr htable
      rw [if_neg (by omega)] at hheap
      exact ⟨pe₁, ⟨htable, hheap, hfd⟩, rfl, rfl, .refl _ _, fun hexposed => ⟨hexposed, rfl⟩⟩

/-- Storing an entry, together with changes to the local files and the store: the path of the entry keeps its
file or has none, and the other paths are spared. -/
theorem Sound.put_leaves {addr : ℕ} {pe pe' : Pentry} {fs : LocalFs} {remote : Remote} {trace : List Event}
    (h : w.Sound env) (hheap : w.heap addr = some pe) (hkeeps : w.fs.Keeps fs)
    (hown : w.table path = some addr → 0 ≤ pe'.fd → pe'.fd = pe.fd ∧
      (Exposed written' addr pe' → Exposed written addr pe ∧ remote.lookup path = w.remote.lookup path))
    (hothers : ∀ other qe, w.HasFile path other qe → other ≠ addr →
      (Exposed written' other qe → Exposed written other qe ∧ remote.lookup path = w.remote.lookup path))
    (hspares : ∀ other qe, w.HasFile path other qe → w.fs.Spares fs (collapse (cacheName env.conf path))) :
    w.Leaves env written written' (({ w with fs := fs, remote := remote, trace := trace } : World).put addr pe')
      path := by
  intro other pe₁ hfile₁
  have htable : w.table path = some other := hfile₁.table
  by_cases hother : other = addr
  · subst hother
    obtain rfl : pe' = pe₁ := Option.some.inj ((put_heap_self ..).symm.trans hfile₁.heap)
    obtain ⟨hfd, hexposed⟩ := hown htable hfile₁.fd
    have hfile : w.HasFile path other pe := ⟨htable, hheap, hfd ▸ hfile₁.fd⟩
    exact ⟨pe, hfile, hfd, h.files_eq hkeeps hfile, hspares _ _ hfile, hexposed⟩
  · have hheap₁ : w.heap other = some pe₁ := (put_heap_ne _ _ hother).symm.trans hfile₁.heap
    have hfile : w.HasFile path other pe₁ := ⟨htable, hheap₁, hfile₁.fd⟩
    exact ⟨pe₁, hfile, rfl, h.files_eq hkeeps hfile, hspares _ _ hfile, hothers _ _ hfile hother⟩

/-- Changes to the local files, the store, the current directory and the record of calls. -/
theorem Sound.frame_leaves {fs : LocalFs} {remote : Remote} {cwd : CStr} {trace : List Event} (h : w.Sound env)
    (hkeeps : w.fs.Keeps fs)
    (hspares : ∀ addr pe, w.HasFile path addr pe → w.fs.Spares fs (collapse (cacheName env.conf path)))
    (hremote : ∀ addr pe, w.HasFile path addr pe → Exposed written addr pe →
      remote.lookup path = w.remote.lookup path) :
    w.Leaves env written written { w with fs := fs, remote := remote, cwd := cwd, trace := trace } path := by
  intro addr pe hfile₁
  have hfile : w.HasFile path addr pe := ⟨hfile₁.table, hfile₁.heap, hfile₁.fd⟩
  exact ⟨pe, hfile, rfl, h.files_eq hkeeps hfile, hspares _ _ hfile, fun hexposed =>
    ⟨hexposed, hremote _ _ hfile hexposed⟩⟩

/-- Removing a path leaves the files of the others alone. -/
theorem Sound.remove_leaves (h : w.Sound env) (other : CStr) :
    w.Leaves env written written (w.remove other) path := by
  intro addr pe hfile₁
  have htable : w.table path = some addr := remove_table hfile₁.table
  have hne : path ≠ other := by
    rintro rfl
    have hnone := hfile₁.table
    rw [remove_table_self] at hnone
    cases hnone
  have hheap : w.heap addr = some pe := by
    have hentry := remove_entry_ne h hne
    rw [entry, entry, htable, hfile₁.table, Option.bind_some, Option.bind_some, hfile₁.heap] at hentry
    exact hentry.symm
  obtain ⟨hnames, hinodes, hfiles⟩ := w.remove_fs other
  refine ⟨pe, ⟨htable, hheap, hfile₁.fd⟩, rfl, hfiles _ ?_, ⟨by rw [hnames], fun _ _ => by rw [hinodes]⟩,
    fun hexposed => ⟨hexposed, by rw [remove_remote]⟩⟩
  intro addr' pe' htable' hheap' hpos hsame
  have hpos₁ := hfile₁.fd
  obtain rfl := h.fd_inj addr' addr pe' pe hheap' hheap hpos (by omega)
  exact hne (h.table_inj path other addr' htable htable')

end Leaves

/-- No two paths have their files under one name. -/
def Apart (env : Env) (w : World) : Prop :=
  ∀ path addr pe, w.HasFile path addr pe → w.OthersSpared env path (· = collapse (cacheName env.conf path))

/-- The files of all paths are backed, and have names of their own. -/
structure Secured (env : Env) (written : ℕ → Prop) (w : World) : Prop where
  backed : ∀ path, w.BackedAt env written path
  apart : w.Apart env

section Secured

variable {env : Env} {written written' : ℕ → Prop} {w w' : World}

/-- All paths are left alone but one, whose file is backed and has a name of its own. -/
theorem Secured.renew (path : CStr) (h : w.Secured env written)
    (hothers : ∀ other, other ≠ path → w.Leaves env written written' w' other)
    (hown : w'.BackedAt env written' path)
    (hapart : ∀ addr pe, w'.HasFile path addr pe → w.OthersSpared env path (· = collapse (cacheName env.conf path))) :
    w'.Secured env written' where
  backed := by
    intro other
    by_cases hother : other = path
    · rw [hother]
      exact hown
    · exact (hothers other hother).backedAt (h.backed other)
  apart := by
    intro p addr pe hp q addr' pe' hne hq
    by_cases hpath : p = path
    · subst hpath
      obtain ⟨qe, hqe⟩ := (hothers q hne).hasFile hq
      exact hapart addr pe hp q addr' qe hne hqe
    · obtain ⟨pe₀, hp₀⟩ := (hothers p hpath).hasFile hp
      by_cases hpath' : q = path
      · subst hpath'
        exact fun hsame => hapart addr' pe' hq p addr pe₀ hpath hp₀ hsame.symm
      · obtain ⟨qe, hqe⟩ := (hothers q hpath').hasFile hq
        exact h.apart p addr pe₀ hp₀ q addr' qe hne hqe

/-- All paths are left alone. -/
theorem Secured.leaves (h : w.Secured env written) (hleaves : ∀ path, w.Leaves env written written' w' path) :
    w'.Secured env written' where
  backed := fun path => (hleaves path).backedAt (h.backed path)
  apart := by
    intro p addr pe hp q addr' pe' hne hq
    obtain ⟨pe₀, hp₀⟩ := (hleaves p).hasFile hp
    obtain ⟨qe, hqe⟩ := (hleaves q).hasFile hq
    exact h.apart p addr pe₀ hp₀ q addr' qe hne hqe

end Secured

end World

section Store

variable {maxRetry : ℤ} {path : CStr} {r : Remote}

/-- Making an object leaves those under other paths alone, and all if no attempt is carried out. -/
theorem dfsMknodTimeout_lookup {replies : ℕ → Reply} {new : CStr}
    (h : path = new → ∀ i, (replies i).applied = false) :
    (dfsMknodTimeout maxRetry replies new r).2.lookup path = r.lookup path := by
  refine writeTimeout_lookup maxRetry Status.retriableMknod _ path r fun i r' _ => ?_
  unfold dplMknod
  by_cases hnew : path = new
  · simp only [h hnew i, Bool.false_eq_true, if_false]
  · simp only
    split
    · exact AList.lookup_insert_ne hnew
    · rfl

/-- A copy leaves the objects under other paths alone, and all if no attempt is carried out. -/
theorem dfsFcopyTimeout_lookup {replies : ℕ → Reply} {old new : CStr}
    (h : path = new → ∀ i, (replies i).applied = false) :
    (dfsFcopyTimeout maxRetry replies old new r).2.lookup path = r.lookup path := by
  by_cases hnew : path = new
  · refine writeTimeout_lookup maxRetry Status.retriable _ path r fun i r' _ => ?_
    unfold dplFcopy
    cases r'.lookup old with
    | none => rfl
    | some obj => simp only [h hnew i, Bool.false_eq_true, if_false]
  · exact dfsFcopyTimeout_lookup_ne maxRetry replies old new path r hnew

/-- Removing a directory leaves the objects under other paths alone, and one that is no directory. -/
theorem dfsRmdirTimeout_lookup {replies : ℕ → Reply} {dir : CStr}
    (h : path = dir → (r.lookup path).map Obj.ftype ≠ some .dir ∨ ∀ i, (replies i).applied = false) :
    (dfsRmdirTimeout maxRetry replies dir r).2.lookup path = r.lookup path := by
  refine writeTimeout_lookup maxRetry Status.retriable _ path r fun i r' hr' => ?_
  unfold dplRmdir
  by_cases hdir : path = dir
  · subst hdir
    rcases h rfl with htype | hrefused
    · rw [hr']
      simp only [htype, if_false, hr']
    · simp only [hrefused i, Bool.false_eq_true, if_false]
      split <;> rfl
  · simp only
    split
    · simp only
      split
      · exact AList.lookup_erase_ne hdir
      · rfl
    · rfl

/-- Attempts to unlink that are carried out only with success either succeed in the end or leave the object. -/
theorem dfsUnlinkTimeout_lookup {replies : ℕ → Reply}
    (hhonest : ∀ i, (replies i).applied = true → (replies i).status = .success)
    (h : (dfsUnlinkTimeout maxRetry replies path r).1 ≠ .success) :
    (dfsUnlinkTimeout maxRetry replies path r).2.lookup path = r.lookup path := by
  have hattempt : ∀ i r', (dplUnlink (replies i) path r').1 ≠ .success →
      (dplUnlink (replies i) path r').2.lookup path = r'.lookup path := by
    intro i r' hstatus
    unfold dplUnlink at hstatus ⊢
    simp only at hstatus ⊢
    split
    · rename_i happlied
      rw [AList.lookup_erase]
      cases hlookup : r'.lookup path with
      | none => rfl
      | some obj =>
        rw [hhonest i happlied, hlookup] at hstatus
        exact absurd rfl hstatus
    · rfl
  unfold dfsUnlinkTimeout writeTimeout at h ⊢
  obtain ⟨i, r', hr', heq⟩ := Attempts.run_eq_last Status.retriable (fun i => dplUnlink (replies i) path)
    (fun r' => r'.lookup path = r.lookup path) (fun i r' hr' hretry => (hattempt i r' (by
      intro hsuccess
      rw [hsuccess] at hretry
      cases hretry)).trans hr') maxRetry.toNat 0 r rfl
  rw [heq] at h ⊢
  exact (hattempt i r' h).trans hr'

end Store

/-- An unlink concerns the cache file of no other path, and if the path has an exposed file, an attempt that is
carried out is reported as a success. -/
structure World.UnlinkSafe (env : Env) (written : ℕ → Prop) (w : World) (path : CStr) (replies : UnlinkReplies) :
    Prop where
  names : replies.unlinkCache = true → w.OthersSpared env path (· = collapse (cacheName env.conf path))
  honest : w.ExposedAt written path → ∀ i, (replies.unlink i).applied = true → (replies.unlink i).status = .success

/-- The object of an exposed file is no directory, or none is removed. -/
def World.RmdirSafe (written : ℕ → Prop) (w : World) (path : CStr) (replies : ℕ → Reply) : Prop :=
  w.ExposedAt written path → (w.remote.lookup path).map Obj.ftype ≠ some .dir ∨ ∀ i, (replies i).applied = false

/-- The calls of a rename do what single calls may do, and nothing is copied onto the object of an exposed file. -/
structure World.RenameSafe (env : Env) (written : ℕ → Prop) (w : World) (replies : RenameReplies) : Prop where
  fcopy : ∀ path, w.ExposedAt written path → ∀ source i, (replies.fcopy source path i).applied = false
  unlink : ∀ path, w.UnlinkSafe env written path (replies.unlink path)
  rmdir : ∀ path, w.RmdirSafe written path (replies.rmdir path).rmdir

section Calls

variable {env : Env} {written : ℕ → Prop} {w w' : World}

/-- What is exposed afterwards was exposed before. -/
theorem World.Leaves.exposedAt {path : CStr} (h : w.Leaves env written written w' path)
    (hexposed : w'.ExposedAt written path) :
    w.ExposedAt written path ∧ w'.remote.lookup path = w.remote.lookup path := by
  obtain ⟨addr, pe', hfile', hexposed'⟩ := hexposed
  obtain ⟨pe, hfile, -, -, -, hbefore⟩ := h addr pe' hfile'
  obtain ⟨hexposed, hlookup⟩ := hbefore hexposed'
  exact ⟨⟨addr, pe, hfile, hexposed⟩, hlookup⟩

/-- What is safe stays safe while files are left alone. -/
theorem World.RenameSafe.leaves {replies : RenameReplies} (h : w.RenameSafe env written replies)
    (hleaves : ∀ path, w.Leaves env written written w' path) : w'.RenameSafe env written replies where
  fcopy := fun path hexposed => h.fcopy path ((hleaves path).exposedAt hexposed).1
  unlink := by
    intro path
    refine ⟨fun hreply other addr pe hne hfile => ?_, fun hexposed => ?_⟩
    · obtain ⟨qe, hqe⟩ := (hleaves other).hasFile hfile
      exact (h.unlink path).names hreply other addr qe hne hqe
    · exact (h.unlink path).honest ((hleaves path).exposedAt hexposed).1
  rmdir := by
    intro path hexposed
    obtain ⟨hbefore, hlookup⟩ := (hleaves path).exposedAt hexposed
    rw [hlookup]
    exact h.rmdir path hbefore

/-- Looking a path up leaves all files alone. -/
theorem dfsGetattr_leaves {path : CStr} {replies : GetattrReplies} {looked : Lookup} (hsound : w.Sound env)
    (h : dfsGetattr env w path replies = .done looked) (other : CStr) :
    w.Leaves env written written looked.world other := by
  obtain ⟨hremote, w₁, hgrown, hquiet⟩ := dfsGetattr_grown h
  have hsame : w₁.remote = w.remote := by
    cases hgrown <;> rfl
  have hgrow : w.Leaves env written written w₁ other := hgrown.leaves hsound
  refine hgrow.trans (hquiet.leaves fun _ _ _ _ => ?_)
  rw [hremote, hsame]

/-- Making a directory leaves all files alone. -/
theorem dfsMkdir_leaves (h : w.Secured env written) (hsound : w.Sound env) (path : CStr) (replies : ℕ → Reply)
    (other : CStr) : w.Leaves env written written (dfsMkdir env w path replies).2 other := by
  refine hsound.frame_leaves (fun _ _ h => h) (fun _ _ _ => .refl _ _) fun addr pe hfile hexposed => ?_
  obtain ⟨file, content, -, hkeeps⟩ := (h.backed other addr pe hfile).cached
  obtain ⟨obj, hobj, -⟩ := hkeeps hexposed
  rw [hobj]
  exact dfsMkdirTimeout_lookup hobj

/-- Making an object leaves all files alone if the file of its path is not exposed or no attempt is carried
out. -/
theorem dfsMknod_leaves {path : CStr} {replies : ℕ → Reply} (hsound : w.Sound env)
    (hsafe : w.ExposedAt written path → ∀ i, (replies i).applied = false) (other : CStr) :
    w.Leaves env written written (dfsMknod env w path replies).2 other := by
  refine hsound.frame_leaves (fun _ _ h => h) (fun _ _ _ => .refl _ _) fun addr pe hfile hexposed => ?_
  refine dfsMknodTimeout_lookup ?_
  rintro rfl
  exact hsafe ⟨addr, pe, hfile, hexposed⟩

/-- A copy leaves all files alone if it is not carried out onto the object of an exposed one. -/
theorem dfsFcopy_leaves {maxRetry : ℤ} {old new : CStr} {replies : ℕ → Reply} (hsound : w.Sound env)
    (hsafe : w.ExposedAt written new → ∀ i, (replies i).applied = false) (other : CStr) :
    w.Leaves env written written { w with remote := (dfsFcopyTimeout maxRetry replies old new w.remote).2 } other := by
  refine hsound.frame_leaves (fun _ _ h => h) (fun _ _ _ => .refl _ _) fun addr pe hfile hexposed => ?_
  refine dfsFcopyTimeout_lookup ?_
  rintro rfl
  exact hsafe ⟨addr, pe, hfile, hexposed⟩

/-- Removing a directory leaves all files alone. -/
theorem dfsRmdir_leaves {path : CStr} {replies : RmdirReplies} (hsafe : w.RmdirSafe written path replies.rmdir)
    (other : CStr) : w.Leaves env written written (dfsRmdir env w path replies).2 other := by
  obtain ⟨hquiet, hremote⟩ := dfsRmdir_quiet env w path replies
  refine hquiet.leaves fun addr pe hfile hexposed => ?_
  rw [hremote]
  refine dfsRmdirTimeout_lookup ?_
  rintro rfl
  exact hsafe ⟨addr, pe, hfile, hexposed⟩

/-- A path that is not in the table has no file. -/
theorem World.leaves_of_absent {path : CStr} (h : w'.table path = none) : w.Leaves env written written w' path := by
  intro addr pe hfile
  have htable := hfile.table
  rw [h] at htable
  cases htable

/-- Unlinking a path leaves all files alone but its own, which goes away. -/
theorem dfsUnlink_leaves {path : CStr} {replies : UnlinkReplies} (hsound : w.Sound env)
    (hsafe : w.UnlinkSafe env written path replies) (other : CStr) :
    w.Leaves env written written (dfsUnlink env w path replies).2 other := by
  have hunlinked : other ≠ path → w.Leaves env written written (w.unlinked env path replies) other := by
    intro hne
    refine hsound.frame_leaves (w.fs.unlink_keeps _ _) (fun addr pe hfile => ?_)
      fun _ _ _ _ => dfsUnlinkTimeout_lookup_ne _ _ _ _ _ hne
    exact w.fs.unlink_spares fun hreply hsame => hsafe.names hreply other addr pe hne hfile hsame.symm
  have houtcome := dfsUnlink_outcome env w path replies
  generalize dfsUnlink env w path replies = unlinked at houtcome ⊢
  cases houtcome with
  | failed hstatus =>
    refine hsound.frame_leaves (fun _ _ h => h) (fun _ _ _ => .refl _ _) fun addr pe hfile hexposed => ?_
    by_cases hother : other = path
    · subst hother
      exact dfsUnlinkTimeout_lookup (hsafe.honest ⟨addr, pe, hfile, hexposed⟩) hstatus
    · exact dfsUnlinkTimeout_lookup_ne _ _ _ _ _ hother
  | absent _ hnone =>
    by_cases hother : other = path
    · subst hother
      exact World.leaves_of_absent hnone
    · exact hunlinked hother
  | @destroyed addr w' _ _ hquiet hremote =>
    by_cases hother : other = path
    · subst hother
      refine World.leaves_of_absent ?_
      rw [hquiet.table]
      exact World.remove_table_self _ _
    · have hsound₁ : (w.unlinked env path replies).Sound env :=
        hsound.frame rfl rfl rfl (w.fs.unlink_keeps _ _)
      refine ((hunlinked hother).trans (hsound₁.remove_leaves path)).trans (hquiet.leaves fun _ _ _ _ => ?_)
      rw [hremote, World.remove_remote]
      rfl

/-- Renaming leaves all files alone but those of the paths it unlinks, which go away. -/
theorem dfsRename_leaves {depth : ℕ} {s s' : Renaming} {old new : CStr} {replies : RenameReplies} {ret : ℤ}
    (h : s.world.Secured env written) (hsound : s.world.Sound env) (hsafe : s.world.RenameSafe env written replies)
    (hrename : dfsRename env depth s old new replies = .done (ret, s')) (other : CStr) :
    s.world.Leaves env written written s'.world other := by
  have hall := dfsRename_preserves (s := s) (P := fun w => w.Sound env ∧
    ∀ path, s.world.Leaves env written written w path) ?_ ⟨hsound, fun path => .refl env written s.world path⟩ hrename
  · exact hall.2 other
  constructor
  · rintro w event ⟨hw, hleaves⟩
    exact ⟨hw.frame rfl rfl rfl fun _ _ h => h, fun path => (hleaves path).trans
      (hw.frame_leaves (fun _ _ h => h) (fun _ _ _ => .refl _ _) fun _ _ _ _ => rfl)⟩
  · rintro w dir ⟨hw, hleaves⟩
    exact ⟨hw.frame rfl rfl rfl fun _ _ h => h, fun path => (hleaves path).trans
      (hw.frame_leaves (fun _ _ h => h) (fun _ _ _ => .refl _ _) fun _ _ _ _ => rfl)⟩
  · rintro w old new ⟨hw, hleaves⟩
    refine ⟨hw.frame rfl rfl rfl fun _ _ h => h, fun path => (hleaves path).trans ?_⟩
    exact dfsFcopy_leaves hw (fun hexposed => (hsafe.leaves hleaves).fcopy new hexposed old) path
  · rintro w dir path junk ⟨hw, hleaves⟩
    have hquiet := w.removeDirentOf_quiet dir path junk
    refine ⟨hw.quiet hquiet, fun other => (hleaves other).trans (hquiet.leaves fun _ _ _ _ => ?_)⟩
    rw [World.removeDirentOf_remote]
  · rintro w path ⟨hw, hleaves⟩
    exact ⟨dfsUnlink_sound hw, fun other =>
      (hleaves other).trans (dfsUnlink_leaves hw ((hsafe.leaves hleaves).unlink path) other)⟩
  · rintro w path ⟨hw, hleaves⟩
    exact ⟨hw.frame rfl rfl rfl fun _ _ h => h, fun other =>
      (hleaves other).trans (dfsMkdir_leaves (h.leaves hleaves) hw path _ other)⟩
  · rintro w path ⟨hw, hleaves⟩
    exact ⟨hw.quiet (dfsRmdir_quiet env w path _).1, fun other =>
      (hleaves other).trans (dfsRmdir_leaves ((hsafe.leaves hleaves).rmdir path) other)⟩

/-- A visit of the collector leaves all files alone but the one it drops. -/
theorem gcCallback_leaves {path : CStr} {replies : GcReplies} (h : w.Secured env written) (hsound : w.Sound env)
    (hgc : gcCallback env w path replies = .done w') (other : CStr) : w.Leaves env written written w' other := by
  cases gcCallback_outcome hgc with
  | untouched => exact .refl env written w other
  | kept htable hheap =>
    refine hsound.put_leaves hheap (fun _ _ h => h) ?_ (fun _ _ _ _ hexposed => ⟨hexposed, rfl⟩) fun _ _ _ => .refl _ _
    exact fun _ _ => ⟨rfl, fun hexposed => ⟨⟨hexposed.exclude, by assumption, hexposed.unwritten⟩, rfl⟩⟩
  | @collected addr pe htable hheap _ _ hfd =>
    have hfile : w.HasFile path addr pe :=
      ⟨htable, hheap, (hsound.rewound addr pe hheap).usable.resolve_left hfd⟩
    by_cases hother : other = path
    · subst hother
      exact World.leaves_of_absent (World.remove_table_self _ _)
    · have hsound₁ : ({ w with fs := w.fs.unlink (cacheName env.conf path) replies.unlinkCache } : World).Sound env :=
        hsound.frame rfl rfl rfl (w.fs.unlink_keeps _ _)
      refine World.Leaves.trans (hsound.frame_leaves (w.fs.unlink_keeps _ _) ?_
        fun _ _ _ _ => rfl) (hsound₁.remove_leaves path)
      intro addr' pe' hfile'
      exact w.fs.unlink_spares fun _ hsame => h.apart path addr pe hfile other addr' pe' hother hfile' hsame.symm

end Calls

end Dropletfs
