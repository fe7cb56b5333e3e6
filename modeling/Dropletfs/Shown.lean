import Dropletfs.Durability
import Dropletfs.Library.FileMap
import Dropletfs.Replacement

/-!
# What a mounted file system shows

A path shows its cache file, if its entry has a descriptor, and else what its object stands for.
The program moves a file between the two: an open downloads it, a release uploads it, and the
collector drops it. What a request makes of the shown files is told by the changes it makes to
plain files, and a request that only moves a file makes none.
-/

namespace Dropletfs

open FileMap (Change applyAll)

/-- The file that an object is. -/
def Obj.file (env : Env) (obj : Obj) : Option Bytes := if obj.ftype = .dir then none else obj.fetched env .granted

/-- The file that the store has under a path. -/
def Remote.fileAt (env : Env) (r : Remote) (path : CStr) : Option Bytes := (r.lookup path).bind (Obj.file env)

/-- The file that a path shows. -/
def World.shown (env : Env) (w : World) (path : CStr) : Option Bytes := (w.cached path).or (w.remote.fileAt env path)

/-- A path with a cache file names no directory of the store. -/
def World.FilesOnly (w : World) : Prop :=
  ∀ path, w.cached path ≠ none → (w.remote.lookup path).map Obj.ftype ≠ some .dir

/-- The cache file and the object of a path are as they were. -/
structure World.PassesBy (w w' : World) (path : CStr) : Prop where
  cached : w'.cached path = w.cached path
  lookup : w'.remote.lookup path = w.remote.lookup path

/-- The path is not excluded. -/
def Conf.Includes (conf : Conf) (path : CStr) : Prop := reMatcher conf.regex path = false

instance (conf : Conf) (path : CStr) : Decidable (conf.Includes path) := inferInstanceAs (Decidable (_ = _))

/-- What the store applies it answers with a success. -/
def Honest (replies : ℕ → Reply) : Prop := ∀ i, (replies i).applied = true → (replies i).status = .success

/-- The included paths show the files that they showed, after some changes. -/
structure World.Makes (env : Env) (w w' : World) (changes : List (Change CStr UInt8)) : Prop where
  shown : ∀ path, env.conf.Includes path → w'.shown env path = applyAll 0 (w.shown env) changes path
  filesOnly : w'.FilesOnly

section Objects

variable {env : Env} {r r' : Remote} {path : CStr}

/-- A directory is no file. -/
theorem Obj.file_of_dir {obj : Obj} (h : obj.ftype = .dir) : obj.file env = none := if_pos h

/-- Without encryption, the content that an object gives is its file. -/
theorem Obj.Gives.file {obj : Obj} {content : Bytes} (h : obj.Gives env content) (haes : env.conf.usesAes = false)
    (hftype : obj.ftype ≠ .dir) : obj.file env = some content := by
  rw [Obj.file, if_neg hftype]
  rcases h with hdecoded | hfetched
  · simpa only [Obj.decoded, Obj.deciphered, haes, Bool.false_and, Bool.false_eq_true, if_false] using hdecoded
  · exact hfetched

/-- The file of a path is that of its object. -/
theorem Remote.fileAt_of_lookup {obj : Obj} (h : r.lookup path = some obj) : r.fileAt env path = obj.file env := by
  rw [fileAt, h, Option.bind_some]

/-- The file of a path depends on its object only. -/
theorem Remote.fileAt_congr (h : r'.lookup path = r.lookup path) : r'.fileAt env path = r.fileAt env path := by
  rw [fileAt, fileAt, h]

/-- A path has no file when the only object it can have is a directory. -/
theorem Remote.fileAt_of_dirs (h : ∀ obj, r.lookup path = some obj → obj.ftype = .dir) : r.fileAt env path = none := by
  cases hlookup : r.lookup path with
  | none => rw [fileAt, hlookup, Option.bind_none]
  | some obj => rw [fileAt_of_lookup hlookup, Obj.file_of_dir (h obj hlookup)]

end Objects

section Frame

variable {env : Env} {w w₁ w₂ : World} {path : CStr}

namespace World

/-- Nothing has changed. -/
theorem PassesBy.refl (w : World) (path : CStr) : w.PassesBy w path := ⟨rfl, rfl⟩

/-- One request after another. -/
theorem PassesBy.trans (h₁ : w.PassesBy w₁ path) (h₂ : w₁.PassesBy w₂ path) : w.PassesBy w₂ path :=
  ⟨h₂.cached.trans h₁.cached, h₂.lookup.trans h₁.lookup⟩

/-- A path that is passed by shows what it showed. -/
theorem PassesBy.shown (h : w.PassesBy w₁ path) : w₁.shown env path = w.shown env path := by
  rw [World.shown, World.shown, h.cached, Remote.fileAt_congr h.lookup]

/-- A path with a cache file shows it. -/
theorem shown_of_cached {content : Bytes} (h : w.cached path = some content) : w.shown env path = some content := by
  rw [World.shown, h, Option.some_or]

/-- A path without a cache file shows its object. -/
theorem shown_of_remote (h : w.cached path = none) : w.shown env path = w.remote.fileAt env path := by
  rw [World.shown, h, Option.none_or]

/-- The cache file is what the descriptor of the entry leads to. -/
theorem HasFile.cached {addr : ℕ} {pe : Pentry} (h : w.HasFile path addr pe) :
    w.cached path = w.fs.fdContent pe.fd.toNat := by
  have hfd := h.fd
  rw [World.cached, entry, h.table, Option.bind_some, h.heap, Option.bind_some, if_neg (by omega)]

/-- A path without a descriptor has no cache file. -/
theorem cached_eq_none (h : ∀ addr pe, ¬ w.HasFile path addr pe) : w.cached path = none := by
  cases htable : w.table path with
  | none => simp [World.cached, entry, htable]
  | some addr =>
    cases hheap : w.heap addr with
    | none => simp [World.cached, entry, htable, hheap]
    | some pe =>
      have hfd : pe.fd < 0 := by
        by_contra hpos
        exact h addr pe ⟨htable, hheap, by omega⟩
      simp [World.cached, entry, htable, hheap, hfd]

/-- A path without an entry has no cache file. -/
theorem cached_of_table (h : w.table path = none) : w.cached path = none := by
  rw [World.cached, entry, h, Option.bind_none, Option.bind_none]

/-- A cache file is that of an entry. -/
theorem hasFile_of_cached {content : Bytes} (h : w.cached path = some content) : ∃ addr pe, w.HasFile path addr pe := by
  by_contra hnone
  rw [cached_eq_none fun addr pe hfile => hnone ⟨addr, pe, hfile⟩] at h
  cases h

/-- The cache file is as it was when the entry has the descriptor it had, and this leads to what it led to. -/
theorem cached_congr (hfd : (w₁.entry path).map Pentry.fd = (w.entry path).map Pentry.fd)
    (hcontent : ∀ addr pe, w.HasFile path addr pe → w₁.fs.fdContent pe.fd.toNat = w.fs.fdContent pe.fd.toNat) :
    w₁.cached path = w.cached path := by
  unfold World.cached
  cases hentry : w.entry path with
  | none =>
    rw [hentry, Option.map_none, Option.map_eq_none_iff] at hfd
    rw [hfd]
    rfl
  | some pe =>
    rw [hentry, Option.map_some, Option.map_eq_some_iff] at hfd
    obtain ⟨pe₁, hentry₁, hsame⟩ := hfd
    rw [hentry₁, Option.bind_some, Option.bind_some, hsame]
    split
    · rfl
    · rename_i hpos
      obtain ⟨addr, htable, hheap⟩ := Option.bind_eq_some_iff.mp hentry
      exact hcontent addr pe ⟨htable, hheap, by omega⟩

/-- Changes that leave the descriptors of the entries alone. -/
theorem Quiet.cached (h : w.Quiet w₁) : w₁.cached path = w.cached path := by
  refine cached_congr ?_ fun _ _ _ => by rw [h.fs]
  have hcore : (w₁.entry path).map Pentry.core = (w.entry path).map Pentry.core := by
    rw [entry, entry, h.table]
    cases w.table path with
    | none => rfl
    | some addr => exact h.core addr
  have hmapped := congrArg (Option.map Core.fd) hcore
  rw [Option.map_map, Option.map_map] at hmapped
  exact hmapped

/-- A new entry has no cache file, and the others keep theirs. -/
theorem Grown.passesBy {other : CStr} (h : w.Grown other w₁) (hsound : w.Sound env) : w.PassesBy w₁ path := by
  cases h with
  | same => exact .refl w path
  | @more pe hnone hfresh =>
    refine ⟨?_, rfl⟩
    by_cases hpath : path = other
    · subst hpath
      have hentry := insert_entry_self w path pe
      have hfd : pe.fd < 0 := by
        rw [hfresh.fd]
        decide
      rw [cached_of_table hnone, World.cached, hentry, Option.bind_some, if_pos hfd]
    · exact cached_congr (by rw [insert_entry_ne pe hsound hpath]) fun _ _ _ => rfl

/-- Storing an entry with the descriptor it had. -/
theorem put_cached {addr : ℕ} {pe pe' : Pentry} (hheap : w.heap addr = some pe) (hfd : pe'.fd = pe.fd) :
    (w.put addr pe').cached path = w.cached path := by
  refine cached_congr ?_ fun _ _ _ => rfl
  rw [entry, entry, put_table]
  cases htable : w.table path with
  | none => rfl
  | some other =>
    rw [Option.bind_some, Option.bind_some]
    by_cases hother : other = addr
    · rw [hother, put_heap_self, hheap, Option.map_some, Option.map_some, hfd]
    · rw [put_heap_ne w pe' hother]

/-- A secured cache file that is spared keeps its content. -/
theorem Secured.fdContent {written : ℕ → Prop} {fs : LocalFs} {addr : ℕ} {pe : Pentry} (h : w.Secured env written)
    (hfile : w.HasFile path addr pe) (hkeeps : w.fs.Keeps fs)
    (hspares : w.fs.Spares fs (collapse (cacheName env.conf path))) :
    fs.fdContent pe.fd.toNat = w.fs.fdContent pe.fd.toNat := by
  obtain ⟨-, file, content, hcached, -⟩ := h.backed path addr pe hfile
  rw [LocalFs.fdContent, LocalFs.fdContent, hkeeps _ _ hcached.holds.isOpen, hcached.holds.isOpen, Option.map_some,
    Option.map_some, hspares.content _ hcached.name]

/-- The content of the cache file of an entry with a descriptor. -/
theorem Secured.cached {written : ℕ → Prop} {addr : ℕ} {pe : Pentry} (h : w.Secured env written)
    (hfile : w.HasFile path addr pe) : ∃ content, w.cached path = some content ∧
      (Exposed written addr pe → w.remote.Keeps env path content) := by
  obtain ⟨-, file, content, hcached, hkeeps⟩ := h.backed path addr pe hfile
  refine ⟨content, ?_, hkeeps⟩
  rw [hfile.cached, LocalFs.fdContent, hcached.holds.isOpen, Option.map_some, hcached.holds.content]

end World

end Frame

namespace World.Makes

variable {env : Env} {w w₁ w₂ : World} {path : CStr} {changes changes' : List (Change CStr UInt8)}

/-- Changes that concern no path. -/
theorem of_passesBy (hfiles : w.FilesOnly) (h : ∀ path, w.PassesBy w₁ path) : w.Makes env w₁ [] where
  shown := fun path _ => (h path).shown
  filesOnly := by
    intro path hcached
    rw [(h path).cached] at hcached
    rw [(h path).lookup]
    exact hfiles path hcached

/-- Changes that concern one path. -/
theorem of_others (path : CStr) (hfiles : w.FilesOnly) (hothers : ∀ other, other ≠ path → w.PassesBy w₁ other)
    (htarget : ∀ change ∈ changes, change.target = path)
    (hshown : env.conf.Includes path → w₁.shown env path = applyAll 0 (w.shown env) changes path)
    (hown : w₁.cached path ≠ none → (w₁.remote.lookup path).map Obj.ftype ≠ some .dir) : w.Makes env w₁ changes where
  shown := by
    intro other hincluded
    by_cases hother : other = path
    · subst hother
      exact hshown hincluded
    · rw [(hothers other hother).shown, FileMap.applyAll_ne fun change hmem => ?_]
      rw [htarget change hmem]
      exact hother
  filesOnly := by
    intro other hcached
    by_cases hother : other = path
    · subst hother
      exact hown hcached
    · rw [(hothers other hother).cached] at hcached
      rw [(hothers other hother).lookup]
      exact hfiles other hcached

/-- One request after another, the second copying onto included paths from included ones only. -/
theorem trans (h₁ : w.Makes env w₁ changes) (h₂ : w₁.Makes env w₂ changes')
    (hwithin : ∀ change ∈ changes', change.Within env.conf.Includes) : w.Makes env w₂ (changes ++ changes') where
  shown := by
    intro path hincluded
    rw [h₂.shown path hincluded, FileMap.applyAll_append]
    exact FileMap.applyAll_congr hwithin h₁.shown hincluded
  filesOnly := h₂.filesOnly

end World.Makes

section Honest

/-- When only attempts that succeed change the objects, the outcome is that of one attempt on the objects there were. -/
theorem writeTimeout_attempt (maxRetry : ℤ) (retriable : Status → Bool) (call : ℕ → Remote → Status × Remote)
    (r : Remote) (hretriable : retriable .success = false)
    (hcall : ∀ i r, (call i r).1 ≠ .success → ∀ path, (call i r).2.lookup path = r.lookup path) :
    ∃ i r', (∀ path, r'.lookup path = r.lookup path) ∧ writeTimeout maxRetry retriable call r = call i r' := by
  refine Attempts.run_eq_last retriable call (fun r' => ∀ path, r'.lookup path = r.lookup path) ?_ _ _ r fun _ => rfl
  intro i r' hr' hretry path
  rw [hcall i r' ?_ path, hr' path]
  intro hsuccess
  rw [hsuccess, hretriable] at hretry
  cases hretry

/-- An honest `dpl_mknod`: an empty file, or nothing. -/
theorem dfsMknodTimeout_honest (maxRetry : ℤ) (path : CStr) (r : Remote) {replies : ℕ → Reply}
    (hhonest : Honest replies) :
    (dfsMknodTimeout maxRetry replies path r).1 = .success ∧
        (dfsMknodTimeout maxRetry replies path r).2.lookup path = some ⟨.reg, [], none, none⟩ ∨
      (dfsMknodTimeout maxRetry replies path r).1 ≠ .success ∧
        (dfsMknodTimeout maxRetry replies path r).2.lookup path = r.lookup path := by
  obtain ⟨i, r', hr', hattempt⟩ := writeTimeout_attempt maxRetry Status.retriableMknod
    (fun i => dplMknod (replies i) path) r (by decide) fun i r' hfailed other => by
      rw [dplMknod, if_neg fun happlied => hfailed (hhonest i happlied)]
  rw [dfsMknodTimeout, hattempt]
  by_cases happlied : (replies i).applied = true
  · refine .inl ⟨hhonest i happlied, ?_⟩
    rw [dplMknod, if_pos happlied, AList.lookup_insert]
  · refine .inr ⟨fun hsuccess => happlied ((replies i).applied_of_success hsuccess), ?_⟩
    rw [dplMknod, if_neg happlied, hr']

/-- An honest `dpl_fcopy`: the object under the new path, or nothing. -/
theorem dfsFcopyTimeout_honest (maxRetry : ℤ) (old new : CStr) (r : Remote) {replies : ℕ → Reply}
    (hhonest : Honest replies) :
    (dfsFcopyTimeout maxRetry replies old new r).1 = .success ∧ (r.lookup old).isSome = true ∧
        (dfsFcopyTimeout maxRetry replies old new r).2.lookup new = r.lookup old ∨
      (dfsFcopyTimeout maxRetry replies old new r).1 ≠ .success ∧
        ∀ path, (dfsFcopyTimeout maxRetry replies old new r).2.lookup path = r.lookup path := by
  have hcall : ∀ i r', (dplFcopy (replies i) old new r').1 ≠ .success → ∀ path,
      (dplFcopy (replies i) old new r').2.lookup path = r'.lookup path := by
    intro i r' hfailed path
    unfold dplFcopy at hfailed ⊢
    cases hlookup : r'.lookup old with
    | none => rfl
    | some obj =>
      simp only [hlookup] at hfailed ⊢
      rw [if_neg fun happlied => hfailed (hhonest i happlied)]
  obtain ⟨i, r', hr', hattempt⟩ := writeTimeout_attempt maxRetry Status.retriable _ r (by decide) hcall
  rw [dfsFcopyTimeout, hattempt]
  by_cases hsuccess : (dplFcopy (replies i) old new r').1 = .success
  · refine .inl ⟨hsuccess, ?_⟩
    rw [← hr' old]
    unfold dplFcopy at hsuccess ⊢
    cases hlookup : r'.lookup old with
    | none =>
      simp only [hlookup] at hsuccess
      exact absurd ((Status.onExisting_eq_success _ _).mp hsuccess).2 (by decide)
    | some obj =>
      simp only [hlookup] at hsuccess ⊢
      rw [if_pos ((replies i).applied_of_success hsuccess), AList.lookup_insert]
      exact ⟨rfl, rfl⟩
  · exact .inr ⟨hsuccess, fun path => (hcall i r' hsuccess path).trans (hr' path)⟩

end Honest

section Moves

variable {env : Env} {written written' : ℕ → Prop} {w w' : World} {path : CStr}

/-- Looking a path up. -/
theorem dfsGetattr_makes {replies : GetattrReplies} {looked : Lookup} (hsound : w.Sound env) (hfiles : w.FilesOnly)
    (h : dfsGetattr env w path replies = .done looked) : w.Makes env looked.world [] := by
  obtain ⟨hremote, w₁, hgrown, hquiet⟩ := dfsGetattr_grown h
  refine .of_passesBy hfiles fun other => ⟨?_, by rw [hremote]⟩
  exact hquiet.cached.trans (hgrown.passesBy hsound).cached

/-- Opening a directory. -/
theorem dfsOpendir_makes {replies : OpendirReplies} (hsound : w.Sound env) (hfiles : w.FilesOnly) :
    w.Makes env (dfsOpendir env w path replies).2 [] :=
  .of_passesBy hfiles fun _ => (dfsOpendir_grown env w path replies).passesBy hsound

/-- Making a directory, where there is no cache file. -/
theorem dfsMkdir_makes {replies : ℕ → Reply} (hfiles : w.FilesOnly) (hcached : w.cached path = none) :
    w.Makes env (dfsMkdir env w path replies).2 [] := by
  have hcached' : (dfsMkdir env w path replies).2.cached path = none := hcached
  refine .of_others path hfiles (fun other hne => ⟨rfl, dfsMkdirTimeout_lookup_ne hne⟩) (by simp) (fun _ => ?_)
    fun h => absurd hcached' h
  rw [FileMap.applyAll_nil, World.shown_of_remote hcached, World.shown_of_remote hcached']
  cases hlookup : w.remote.lookup path with
  | some obj =>
    refine Remote.fileAt_congr ?_
    rw [hlookup]
    exact dfsMkdirTimeout_lookup hlookup
  | none =>
    have hbefore : w.remote.fileAt env path = none := Remote.fileAt_of_dirs (by simp [hlookup])
    rw [hbefore]
    -- what there is afterwards can only be the directory that was made
    refine Remote.fileAt_of_dirs ?_
    refine writeTimeout_preserves env.conf.maxRetry Status.retriable _
      (fun r => ∀ obj, r.lookup path = some obj → obj.ftype = .dir) ?_ w.remote (by simp [hlookup])
    intro i r hr obj
    unfold dplMkdir
    simp only
    split
    · rw [AList.lookup_insert]
      rintro ⟨⟩
      rfl
    · exact hr obj

/-- Removing a directory. -/
theorem dfsRmdir_makes {replies : RmdirReplies} (hfiles : w.FilesOnly) :
    w.Makes env (dfsRmdir env w path replies).2 [] := by
  obtain ⟨hquiet, hremote⟩ := dfsRmdir_quiet env w path replies
  have hcached : ∀ other, (dfsRmdir env w path replies).2.cached other = w.cached other := fun _ => hquiet.cached
  by_cases hdir : (w.remote.lookup path).map Obj.ftype = some .dir
  · have hnone : w.cached path = none := by
      by_contra hsome
      exact hfiles path hsome hdir
    refine .of_others path hfiles (fun other hne => ⟨hcached other, ?_⟩) (by simp) (fun _ => ?_)
      fun h => absurd ((hcached path).trans hnone) h
    · rw [hremote]
      exact dfsRmdirTimeout_lookup fun heq => absurd heq hne
    · have hdirs : ∀ obj, w.remote.lookup path = some obj → obj.ftype = .dir := by
        intro obj hobj
        rw [hobj] at hdir
        exact Option.some.inj hdir
      rw [FileMap.applyAll_nil, World.shown_of_remote hnone, World.shown_of_remote ((hcached path).trans hnone),
        Remote.fileAt_of_dirs hdirs]
      refine Remote.fileAt_of_dirs ?_
      rw [hremote]
      refine writeTimeout_preserves env.conf.maxRetry Status.retriable _
        (fun r => ∀ obj, r.lookup path = some obj → obj.ftype = .dir) ?_ w.remote hdirs
      intro i r hr obj
      unfold dplRmdir
      simp only
      split
      · simp only
        split
        · rw [AList.lookup_erase]
          exact fun h => by cases h
        · exact hr obj
      · exact hr obj
  · refine .of_passesBy hfiles fun other => ⟨hcached other, ?_⟩
    rw [hremote]
    refine dfsRmdirTimeout_lookup ?_
    rintro rfl
    exact .inl hdir

/-- The object that an upload leaves is the one there was, or a file. -/
theorem upload_lookup_self {fd : ℕ} {st : Stat} {replies : ReleaseReplies} {ok : Bool}
    (h : upload env w path fd st replies = .done (ok, w')) :
    w'.remote.lookup path = w.remote.lookup path ∨ (w'.remote.lookup path).map Obj.ftype = some .reg := by
  obtain ⟨packed, -, -, rfl⟩ := upload_eq_done h
  simp only [pushPacked]
  split
  · exact .inl rfl
  · unfold push
    simp only
    split
    · exact .inl rfl
    · split
      · right
        rw [AList.lookup_insert, Option.map_some, storedObject]
        split <;> rfl
      · exact .inl rfl

/-- Releasing a handle on an entry with a descriptor. -/
theorem dfsRelease_makes {addr : ℕ} {pe : Pentry} {flags : BitVec 32} {replies : ReleaseReplies} {released : Released}
    (hsecured : w.Secured env written) (hfiles : w.FilesOnly) (hfile : w.HasFile path addr pe)
    (hspared : isRdonly flags = false → pe.exclude = false → env.conf.usesZlib = true →
      w.OthersSpared env path (· = collapse (scratchName (cacheName env.conf path))))
    (h : dfsRelease env w addr path flags replies = .done released) : w.Makes env released.world [] := by
  obtain ⟨hplaced, file, content, hcached, -⟩ := hsecured.backed path addr pe hfile
  have hput : ∀ {pe' : Pentry}, pe'.fd = pe.fd → w.Makes env (w.put addr pe') [] := fun hfd =>
    .of_passesBy hfiles fun _ => ⟨World.put_cached hfile.heap hfd, rfl⟩
  cases dfsRelease_outcome h with
  | unusable hheap _ hfs =>
    obtain rfl := Option.some.inj (hfile.heap.symm.trans hheap)
    have hfs' : _ = w.fs := hfs.elim id fun h =>
      h.2.trans (LocalFs.seek_zero hcached.holds.isOpen hcached.holds.offset)
    rw [hfs']
    exact hput rfl
  | readOnly hheap _ hwait =>
    obtain rfl := Option.some.inj (hfile.heap.symm.trans hheap)
    obtain ⟨rfl, -⟩ := Pentry.decRefcount_eq hwait
    exact hput rfl
  | excluded hheap _ hwait =>
    obtain rfl := Option.some.inj (hfile.heap.symm.trans hheap)
    obtain ⟨rfl, -⟩ := Pentry.decRefcount_eq hwait
    exact hput rfl
  | @uploaded _ pe' _ _ w' hheap _ hwait hwrite hincluded hupload =>
    obtain rfl := Option.some.inj (hfile.heap.symm.trans hheap)
    obtain ⟨hwaited, -⟩ := Pentry.decRefcount_eq hwait
    have hframe := upload_touches hupload hcached.holds.isOpen hcached.holds.offset
    obtain ⟨hfiles', -, hcontent⟩ := upload_cached hplaced hcached hupload
    obtain ⟨content', hcontent', -⟩ := hsecured.cached hfile
    have hsame : ∀ other, w'.cached other = w.cached other := by
      intro other
      refine World.cached_congr ?_ fun addr' pe' hfile' => ?_
      · obtain ⟨_, _, _, rfl⟩ := upload_frame hupload
        rfl
      · by_cases hother : other = path
        · subst hother
          obtain rfl : addr' = addr := Option.some.inj (hfile'.table.symm.trans hfile.table)
          obtain rfl := Option.some.inj (hfile'.heap.symm.trans hfile.heap)
          rw [LocalFs.fdContent, LocalFs.fdContent, hfiles', hcached.holds.isOpen, Option.map_some, Option.map_some,
            hcontent, hcached.holds.content]
        · exact hsecured.fdContent hfile' hframe.files
            (hframe.spares fun hname => hspared hwrite hincluded hname.1 other addr' pe' hother hfile' hname.2)
    have hheap' : w'.heap addr = some pe := by
      obtain ⟨_, _, _, rfl⟩ := upload_frame hupload
      exact hfile.heap
    have hafter : ∀ other, (w'.put addr (pe'.markClean replies.unlock)).cached other = w.cached other := by
      intro other
      rw [World.put_cached hheap' (by rw [hwaited]; rfl), hsame]
    refine .of_others path hfiles (fun other hne => ⟨hafter other, ?_⟩) (by simp) (fun _ => ?_) fun _ => ?_
    · rw [World.put_remote, upload_lookup_ne hupload hne]
    · rw [FileMap.applyAll_nil, World.shown_of_cached hcontent', World.shown_of_cached ((hafter path).trans hcontent')]
    · rcases upload_lookup_self hupload with hsame' | hreg
      · rw [World.put_remote, hsame']
        exact hfiles path (by rw [hcontent']; simp)
      · rw [World.put_remote, hreg]
        simp

/-- A visit of the collector. What it drops is on the store. -/
theorem gcCallback_makes {replies : GcReplies} (haes : env.conf.usesAes = false) (hsound : w.Sound env)
    (hsecured : w.Secured env written) (hfiles : w.FilesOnly)
    (hunwritten : ∀ addr pe, w.heap addr = some pe → pe.refcount = 0 → ¬ written addr)
    (h : gcCallback env w path replies = .done w') : w.Makes env w' [] := by
  cases gcCallback_outcome h with
  | untouched => exact .of_passesBy hfiles fun other => .refl w other
  | kept htable hheap => exact .of_passesBy hfiles fun other => ⟨World.put_cached hheap rfl, rfl⟩
  | @collected addr pe htable hheap hcount hfree hfd =>
    have hfile : w.HasFile path addr pe :=
      ⟨htable, hheap, (hsound.rewound addr pe hheap).usable.resolve_left hfd⟩
    have hsound₁ : ({ w with fs := w.fs.unlink (cacheName env.conf path) replies.unlinkCache } : World).Sound env :=
      hsound.frame rfl rfl rfl (w.fs.unlink_keeps _ _)
    have hgone : (w.collect env.conf path replies.unlinkCache).cached path = none :=
      World.cached_of_table (World.remove_table_self _ _)
    have hremote : (w.collect env.conf path replies.unlinkCache).remote = w.remote := World.remove_remote _ _
    refine .of_others path hfiles (fun other hne => ⟨?_, by rw [hremote]⟩) (by simp) (fun hincluded => ?_)
      fun h => absurd hgone h
    · refine (World.remove_showsAs hsound₁ hne).cached.trans ?_
      exact World.cached_congr rfl fun _ pe' _ => w.fs.unlink_fdContent _ _ _
    · obtain ⟨content, hcached, hkeeps⟩ := hsecured.cached hfile
      have hexclude : pe.exclude = false := by
        by_contra hexcluded
        have hmatched := hsound.exclude path addr pe htable hheap (by simpa using hexcluded)
        rw [hincluded] at hmatched
        cases hmatched
      obtain ⟨obj, hobj, hgives⟩ := hkeeps ⟨hexclude, hfree, hunwritten addr pe hheap hcount⟩
      have hftype : obj.ftype ≠ .dir := by
        have hnot := hfiles path (by rw [hcached]; simp)
        rw [hobj] at hnot
        simpa using hnot
      rw [FileMap.applyAll_nil, World.shown_of_remote hgone, World.shown_of_cached hcached, hremote,
        Remote.fileAt_of_lookup hobj, hgives.file haes hftype]

end Moves

end Dropletfs
