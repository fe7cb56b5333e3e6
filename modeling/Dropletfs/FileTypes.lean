import Dropletfs.Evolution

/-!
# File types of entries

A lookup served from the store and a successful `dfs_opendir` both tell the type of a path. The
record of what was told is kept beside the session, and compared with the type that the entry of
the path carries. A lookup stores the type of a regular file whatever it found, and `dfs_opendir`
stores a type only in an entry that it makes.
-/

namespace Dropletfs

/-- The file type for the type bits of a mode, where there is one. -/
def modeFiletype (mode : BitVec 32) : Option Filetype :=
  if mode &&& sIfmt = sIfdir then some .dir
  else if mode &&& sIfmt = sIfreg then some .reg
  else if mode &&& sIfmt = sIflnk then some .symlink
  else none

/-- A lookup of the path is served from the store. -/
def World.unsetAt (w : World) (path : CStr) : Bool := ((w.entry path).map Pentry.ondisk).getD .unset = .unset

/-- What a request tells about the type of a path. -/
def Session.toldTypes (env : Env) (s : Session) : Op → List (CStr × Filetype)
  | .getattr path replies =>
    match dfsGetattr env s.world path replies with
    | .done looked =>
      if path ≠ "/".toList ∧ s.world.unsetAt path ∧ looked.ret = 0 then
        ((modeFiletype looked.st.mode).map fun type => (path, type)).toList
      else []
    | _ => []
  | .opendir path replies => if (dfsOpendir env s.world path replies).1 = 0 then [(path, .dir)] else []
  | _ => []

/-- A session with the types told so far. -/
abbrev Typings := Session × List (CStr × Filetype)

/-- The entry of a path carries every type told of the path. -/
def Typings.Right (t : Typings) : Prop :=
  ∀ path type, (path, type) ∈ t.2 → ∀ pe, t.1.world.entry path = some pe → pe.filetype = some type

/-- The calls of a lookup served from the store succeed. -/
def GetattrReplies.Describes (replies : GetattrReplies) (env : Env) (r : Remote) (path : CStr) : Prop :=
  (dfsNameiTimeout env.conf.maxRetry replies.namei path r).1 = .success ∧
    ((dfsGetattrTimeout env.conf.maxRetry replies.getattr path r).1 = .success ∨
      (dfsGetattrTimeout env.conf.maxRetry replies.getattr path r).1 = .eisdir) ∧
    ((dfsGetattrTimeout env.conf.maxRetry replies.getattr path r).2.isSome = true →
      replies.mdLock = true ∧ replies.mdUnlock = true)

/-- An object whose mode is not that of a directory or a symbolic link: by the mode in its metadata, or
by its type and the `symlink` key. The bits of a directory and of a symbolic link together are neither. -/
def ShowsNoOther (type : Ftype) (dict : Dict) : Prop :=
  if dict.gives "mode".toList then
    BitVec.ofInt 32 (metadatatoll dict "mode".toList) &&& sIfmt ≠ sIfdir ∧
      BitVec.ofInt 32 (metadatatoll dict "mode".toList) &&& sIfmt ≠ sIflnk
  else if (dict "symlink".toList).isSome then type = .dir else type ≠ .dir

/-- A request does not get the type of an entry wrong. A lookup served from the store finds no directory
and no symbolic link, and no other type was told of the path; `dfs_opendir` finds an entry typed as a
directory, or makes one for a path of which no other type was told; no request makes an entry without a type
for a path of which one was told. -/
def TypesRightly (env : Env) (t : Typings) : Op → Prop
  | .getattr path replies => path ≠ "/".toList → t.1.world.unsetAt path = true →
    (replies.Describes env t.1.world.remote path →
      (∀ type, t.1.world.remote.ftype path = some type →
        ShowsNoOther type (((t.1.world.remote.lookup path).bind Obj.metadata).getD Dict.new)) ∧
      ∀ told, (path, told) ∈ t.2 → told = .reg) ∧
    (¬ replies.Describes env t.1.world.remote path → t.1.world.table path = none → replies.alloc = true →
      replies.keyDup = true → ∀ told, (path, told) ∉ t.2)
  | .opendir path replies => dfsOpendirTimeout env.conf.maxRetry replies.opendir = .success →
    (∀ pe, t.1.world.entry path = some pe → pe.filetype = some .dir) ∧
    (t.1.world.table path = none → replies.alloc = true → replies.keyDup = true →
      ∀ told, (path, told) ∈ t.2 → told = .dir)
  | .create path mode _ replies => ¬ CreateRefused env t.1.world path mode replies →
    t.1.world.table path = none → replies.opening.alloc = true → replies.opening.keyDup = true →
      ∀ told, (path, told) ∉ t.2
  | .open path _ replies => t.1.world.table path = none → replies.alloc = true → replies.keyDup = true →
      ∀ told, (path, told) ∉ t.2
  | _ => True

/-- A mode that shows neither a directory nor a symbolic link. -/
theorem firstStat_filetype (proc : Process) (now : ℤ) (type : Ftype) (dict : Dict) {told : Filetype}
    (h : ShowsNoOther type dict) (htold : modeFiletype (firstStat proc now type dict).mode = some told) :
    told = .reg := by
  simp only [firstStat, symlinkBit_eq, fillStatFromMetadata, storeMeta_eq, setDefaultStat_mode proc now] at htold
  unfold ShowsNoOther at h
  cases hgives : dict.gives "mode".toList with
  | true =>
    simp only [hgives, if_true] at h htold
    unfold modeFiletype at htold
    rw [if_neg h.1, if_neg h.2] at htold
    split at htold
    · exact (Option.some.inj htold).symm
    · cases htold
  | false =>
    simp only [hgives, Bool.false_eq_true, if_false] at h htold
    cases hlink : (dict "symlink".toList).isSome with
    | true =>
      simp only [hlink, if_true] at h htold
      subst h
      revert htold
      cases told <;> decide
    | false =>
      simp only [hlink, Bool.false_eq_true, if_false] at h htold
      cases type with
      | dir => exact absurd rfl h
      | reg => revert htold; cases told <;> decide
      | other => revert htold; cases told <;> decide

/-- Without metadata the defaults are all there is. -/
theorem firstStat_new (proc : Process) (now : ℤ) (type : Ftype) :
    firstStat proc now type Dict.new = setDefaultStat proc now .single type := by
  have hlink : symlinkBit (setDefaultStat proc now .single type) Dict.new = setDefaultStat proc now .single type :=
    if_neg (by simp only [Dict.new, Option.isSome_none, Bool.false_eq_true, not_false_eq_true])
  simp only [firstStat, hlink, fillStatFromMetadata, storeMeta_eq, Dict.new_gives, Bool.false_eq_true, if_false]

/-- A lookup served from the store succeeds exactly when its calls do. -/
theorem getattrUnset_ret {env : Env} {w : World} {addr : ℕ} {pe : Pentry} {path : CStr} {replies : GetattrReplies}
    {looked : Lookup} (h : getattrUnset env w addr pe path .single replies = .done looked) :
    looked.ret = 0 ↔ replies.Describes env w.remote path := by
  have hfailed : (-1 : ℤ) ≠ 0 := by decide
  unfold getattrUnset at h
  unfold GetattrReplies.Describes
  cases hnamei : dfsNameiTimeout env.conf.maxRetry replies.namei path w.remote with
  | mk status type =>
    have hfound := dfsNameiTimeout_success env.conf.maxRetry replies.namei path w.remote
    rw [hnamei] at h hfound
    by_cases hstatus : status = .success
    · obtain ⟨htype, hsome⟩ := hfound hstatus
      simp only at htype
      rw [← htype] at hsome
      obtain ⟨found, rfl⟩ := Option.isSome_iff_exists.mp hsome
      subst hstatus
      cases hgetattr : dfsGetattrTimeout env.conf.maxRetry replies.getattr path w.remote with
      | mk status metadata =>
        simp only [hgetattr, true_and] at h ⊢
        split at h
        · rename_i hrefused
          obtain rfl := Exec.done.inj h
          exact ⟨fun hret => absurd hret hfailed, fun hok => absurd hok.1 (not_or.mpr hrefused)⟩
        · rename_i hok
          have hok' : status = .success ∨ status = .eisdir := by
            by_contra hnot
            exact hok (not_or.mp hnot)
          cases metadata with
          | none =>
            obtain rfl := Exec.done.inj h
            exact ⟨fun _ => ⟨hok', fun hsome => by cases hsome⟩, fun _ => rfl⟩
          | some dict =>
            simp only at h
            split at h
            · rename_i hlock
              obtain rfl := Exec.done.inj h
              exact ⟨fun hret => absurd hret hfailed, fun hdone => by
                rw [(hdone.2 rfl).1] at hlock
                cases hlock⟩
            · rename_i hlock
              split at h
              · cases h
              · split at h
                · rename_i hunlock
                  obtain rfl := Exec.done.inj h
                  exact ⟨fun hret => absurd hret hfailed, fun hdone => by
                    rw [(hdone.2 rfl).2] at hunlock
                    cases hunlock⟩
                · rename_i hunlock
                  obtain rfl := Exec.done.inj h
                  exact ⟨fun _ => ⟨hok', fun _ => ⟨by simpa using hlock, by simpa using hunlock⟩⟩, fun _ => rfl⟩
    · have hret : looked.ret = env.statusCode status := by
        revert h
        cases status with
        | success => exact absurd rfl hstatus
        | failure | enoent | eisdir | einval | other =>
          intro h
          obtain rfl := Exec.done.inj h
          rfl
      have hneg := env.statusCode_neg status hstatus
      exact ⟨fun hzero => by omega, fun hok => absurd hok.1 hstatus⟩

/-- A lookup changes no type of an entry but that of the path, which it sets when the answer comes from the
store. -/
theorem getattrByPlaceholder_filetypes {env : Env} {w : World} {addr : ℕ} {pe : Pentry} {path : CStr}
    {replies : GetattrReplies} {looked : Lookup} (hheap : w.heap addr = some pe)
    (h : getattrByPlaceholder env w addr pe path .single replies = .done looked) :
    looked.world.table = w.table ∧ ∀ other, (looked.world.heap other).map Pentry.filetype =
      if other = addr ∧ pe.ondisk = .unset ∧ looked.ret = 0 then some (some .reg)
      else (w.heap other).map Pentry.filetype := by
  have hput : ∀ (pe' : Pentry) other, ((w.put addr pe').heap other).map Pentry.filetype =
      if other = addr then some pe'.filetype else (w.heap other).map Pentry.filetype := by
    intro pe' other
    by_cases hother : other = addr
    · rw [hother, World.put_heap_self, if_pos rfl, Option.map_some]
    · rw [World.put_heap_ne _ _ hother, if_neg hother]
  cases getattrByPlaceholder_outcome h with
  | kept hret => exact ⟨rfl, fun other => (if_neg fun hserved => hret hserved.2.1 hserved.2.2).symm⟩
  | held hret =>
    refine ⟨rfl, fun other => ?_⟩
    rw [if_neg fun hserved => hret hserved.2.2, hput]
    split
    · rename_i hother
      rw [hother, hheap, Option.map_some]
    · rfl
  | served hunset =>
    refine ⟨(World.fillDirent_quiet ..).table, fun other => ?_⟩
    rw [World.fillDirent_map _ _ _ _ _ fun _ _ => rfl, hput]
    simp only [hunset, and_true]

section LookupEntry

variable {w w₁ : World} {path : CStr} {replies : GetattrReplies} {addr : ℕ}

/-- Where the entry of a lookup comes from does not concern the other paths. -/
theorem LookupEntry.other {env : Env} {other : CStr} {addr' : ℕ} (h : LookupEntry w path replies addr w₁)
    (hsound : w.Sound env) (hne : other ≠ path) (htable : w₁.table other = some addr') :
    w.table other = some addr' ∧ addr' ≠ addr ∧ w₁.heap addr' = w.heap addr' := by
  cases h with
  | found hfound =>
    refine ⟨htable, ?_, rfl⟩
    rintro rfl
    exact hne (hsound.table_inj other path _ htable hfound)
  | made =>
    simp only [World.insert, Function.update_of_ne hne] at htable
    have hlt : addr' ≠ w.nextAddr := Nat.ne_of_lt (hsound.table_lt other addr' htable)
    exact ⟨htable, hlt, Function.update_of_ne hlt ..⟩

/-- The entry is not looked up yet exactly when the lookup is served from the store. -/
theorem LookupEntry.unsetAt_iff {pe : Pentry} (h : LookupEntry w path replies addr w₁)
    (hheap : w₁.heap addr = some pe) :
    w.unsetAt path = true ↔ pe.ondisk = .unset := by
  cases h with
  | found hfound => simp [World.unsetAt, World.entry, hfound, hheap]
  | made hnone =>
    simp only [World.insert, Function.update_self, Option.some.injEq] at hheap
    simp [World.unsetAt, World.entry, hnone, ← hheap, pentryNew]

/-- A lookup works on the same store. -/
theorem LookupEntry.remote (h : LookupEntry w path replies addr w₁) : w₁.remote = w.remote := by
  cases h with
  | found => rfl
  | made => rfl

end LookupEntry

/-- What a lookup tells is the type of a regular file when it finds no directory and no symbolic link. -/
theorem getattrUnset_told {env : Env} {w : World} {addr : ℕ} {pe : Pentry} {path : CStr} {replies : GetattrReplies}
    {looked : Lookup} {told : Filetype} (h : getattrUnset env w addr pe path .single replies = .done looked)
    (hret : looked.ret = 0) (hshows : ∀ type, w.remote.ftype path = some type →
      ShowsNoOther type (((w.remote.lookup path).bind Obj.metadata).getD Dict.new))
    (htold : modeFiletype looked.st.mode = some told) : told = .reg := by
  cases getattrUnset_outcome h with
  | failed hfailed => exact absurd hret hfailed
  | @plain type htype hmetadata =>
    have hshown := hshows type htype
    rw [hmetadata, Option.getD_none] at hshown
    simp only at htold
    rw [← firstStat_new] at htold
    exact firstStat_filetype _ _ _ _ hshown htold
  | @described type dict htype hmetadata =>
    have hshown := hshows type htype
    rw [hmetadata, Option.getD_some] at hshown
    exact firstStat_filetype _ _ _ _ hshown htold

/-- A lookup that gets no type wrong keeps the types right. -/
theorem getattr_right {env : Env} {t : Typings} {path : CStr} {replies : GetattrReplies} {looked : Lookup}
    (hsound : t.1.world.Sound env) (h : t.Right) (hguard : TypesRightly env t (.getattr path replies))
    (hcall : dfsGetattr env t.1.world path replies = .done looked) :
    Typings.Right ({ t.1 with world := looked.world }, t.1.toldTypes env (.getattr path replies) ++ t.2) := by
  simp only [Session.toldTypes, hcall]
  cases dfsGetattr_outcome hcall with
  | root hroot =>
    rw [if_neg fun hnot => hnot.1 hroot, List.nil_append]
    exact h
  | noEntry =>
    have hfailed : (-1 : ℤ) ≠ 0 := by decide
    rw [if_neg fun hnot => hfailed hnot.2.2, List.nil_append]
    exact h
  | @entry addr w₁ pe looked₁ hroot hentry hheap hbranch =>
    obtain ⟨htable, hfiletypes⟩ := getattrByPlaceholder_filetypes hheap hbranch
    have hunset := hentry.unsetAt_iff hheap
    intro other type hmem pe' hentry'
    -- the type of the entry in question after the lookup
    obtain ⟨addr', htable', hheap'⟩ : ∃ addr', (looked₁.world.touch addr replies.now).table other = some addr' ∧
        (looked₁.world.touch addr replies.now).heap addr' = some pe' := Option.bind_eq_some_iff.mp hentry'
    rw [(World.touch_quiet looked₁.world addr replies.now).table, htable] at htable'
    have hfiletype := hfiletypes addr'
    rw [← looked₁.world.touch_map addr addr' replies.now Pentry.filetype fun _ _ => rfl, hheap',
      Option.map_some] at hfiletype
    simp only at hmem
    by_cases hother : other = path
    · subst hother
      obtain rfl : addr = addr' := Option.some.inj (hentry.table.symm.trans htable')
      simp only [true_and] at hfiletype
      by_cases hserved : pe.ondisk = .unset ∧ looked₁.ret = 0
      · -- served from the store: the entry is typed as a regular file
        rw [if_pos hserved] at hfiletype
        rw [Option.some.inj hfiletype]
        have hbranch' : getattrUnset env w₁ addr pe other .single replies = .done looked₁ := by
          rw [getattrByPlaceholder, hserved.1] at hbranch
          exact hbranch
        have hdescribes := (getattrUnset_ret hbranch').mp hserved.2
        obtain ⟨hshows, hknown⟩ := (hguard hroot (hunset.mpr hserved.1)).1 (by rw [← hentry.remote]; exact hdescribes)
        rw [← hentry.remote] at hshows
        rcases List.mem_append.mp hmem with hnew | hold
        · rw [if_pos ⟨hroot, hunset.mpr hserved.1, hserved.2⟩] at hnew
          obtain ⟨told, htold, heq⟩ := Option.map_eq_some_iff.mp (Option.mem_toList.mp hnew)
          obtain rfl := congrArg Prod.snd heq
          rw [getattrUnset_told hbranch' hserved.2 hshows htold]
        · rw [hknown type hold]
      · rw [if_neg hserved, hheap, Option.map_some] at hfiletype
        rw [Option.some.inj hfiletype]
        rw [if_neg fun hnot => hserved ⟨hunset.mp hnot.2.1, hnot.2.2⟩, List.nil_append] at hmem
        have hfails : pe.ondisk = .unset → ¬ replies.Describes env t.1.world.remote other := by
          intro hfresh hdescribes
          rw [getattrByPlaceholder, hfresh] at hbranch
          exact hserved ⟨hfresh, (getattrUnset_ret hbranch).mpr (by rw [hentry.remote]; exact hdescribes)⟩
        cases hentry with
        | found hfound => exact h other type hmem pe (by rw [World.entry, hfound]; exact hheap)
        | made hnone halloc hkey =>
          have hfresh : pe.ondisk = .unset := by
            simp only [World.insert, Function.update_self, Option.some.injEq] at hheap
            rw [← hheap]
            rfl
          exact absurd hmem ((hguard hroot (hunset.mpr hfresh)).2 (hfails hfresh) hnone halloc hkey type)
    · obtain ⟨hfound, hne, hsame⟩ := hentry.other hsound hother htable'
      rw [if_neg fun hnot => hne hnot.1, hsame] at hfiletype
      obtain ⟨pe₀, hheap₀, heq⟩ := Option.map_eq_some_iff.mp hfiletype.symm
      have hold : (other, type) ∈ t.2 := by
        rcases List.mem_append.mp hmem with hnew | hold
        · split at hnew
          · obtain ⟨told, -, heq⟩ := Option.map_eq_some_iff.mp (Option.mem_toList.mp hnew)
            exact absurd (congrArg Prod.fst heq).symm hother
          · cases hnew
        · exact hold
      rw [← heq]
      exact h other type hold pe₀ (by rw [World.entry, hfound]; exact hheap₀)

/-- The ways `dfs_opendir` can end: it fails, or it finds an entry for the directory, or it makes one. -/
inductive OpendirOutcome (env : Env) (w : World) (path : CStr) (replies : OpendirReplies) : ℤ × World → Prop
  | failed {ret : ℤ} : ret ≠ 0 → OpendirOutcome env w path replies (ret, w)
  | known {addr : ℕ} : dfsOpendirTimeout env.conf.maxRetry replies.opendir = .success → w.table path = some addr →
      OpendirOutcome env w path replies (0, w)
  | made : dfsOpendirTimeout env.conf.maxRetry replies.opendir = .success → w.table path = none →
      replies.alloc = true → replies.keyDup = true →
      OpendirOutcome env w path replies (0, (w.insert path (.made path replies.pathDup (some .dir))).2)

/-- `dfs_opendir` ends in one of these ways. -/
theorem dfsOpendir_outcome (env : Env) (w : World) (path : CStr) (replies : OpendirReplies) :
    OpendirOutcome env w path replies (dfsOpendir env w path replies) := by
  unfold dfsOpendir
  simp only
  split
  · rename_i hstatus
    have hneg := env.statusCode_neg _ hstatus
    exact .failed (by omega)
  · rename_i hstatus
    have hsuccess := not_not.mp hstatus
    split
    · rename_i addr htable
      exact .known hsuccess htable
    · rename_i hnone
      split
      · exact .failed (by decide)
      · rename_i halloc
        simp only [not_or, Bool.not_eq_false] at halloc
        exact .made hsuccess hnone halloc.1 halloc.2

/-- An opendir that gets no type wrong keeps the types right. -/
theorem opendir_right {env : Env} {t : Typings} {path : CStr} {replies : OpendirReplies}
    (hsound : t.1.world.Sound env) (h : t.Right) (hguard : TypesRightly env t (.opendir path replies)) :
    Typings.Right ({ t.1 with world := (dfsOpendir env t.1.world path replies).2 },
      t.1.toldTypes env (.opendir path replies) ++ t.2) := by
  have houtcome := dfsOpendir_outcome env t.1.world path replies
  simp only [Session.toldTypes]
  generalize dfsOpendir env t.1.world path replies = result at houtcome ⊢
  intro other type hmem pe' hentry
  cases houtcome with
  | failed hret =>
    simp only [hret, if_false, List.nil_append] at hmem
    exact h other type hmem pe' hentry
  | known hstatus =>
    simp only [if_true, List.mem_append, List.mem_singleton, Prod.mk.injEq] at hmem
    rcases hmem with ⟨rfl, rfl⟩ | hold
    · exact (hguard hstatus).1 pe' hentry
    · exact h other type hold pe' hentry
  | made hstatus hnone halloc hkey =>
    simp only [if_true, List.mem_append, List.mem_singleton, Prod.mk.injEq] at hmem
    obtain ⟨addr, htable, hheap⟩ := Option.bind_eq_some_iff.mp hentry
    simp only [World.insert, Function.update_apply] at htable hheap
    by_cases hother : other = path
    · rw [if_pos hother] at htable
      obtain rfl := Option.some.inj htable
      rw [if_pos rfl] at hheap
      obtain rfl := Option.some.inj hheap
      rcases hmem with ⟨-, rfl⟩ | hold
      · rfl
      · rw [hother] at hold
        rw [(hguard hstatus).2 hnone halloc hkey type hold]
        rfl
    · rw [if_neg hother] at htable
      rw [if_neg (Nat.ne_of_lt (hsound.table_lt other addr htable))] at hheap
      rcases hmem with ⟨heq, -⟩ | hold
      · exact absurd heq hother
      · exact h other type hold pe' (by rw [World.entry, htable]; exact hheap)

/-- An open that puts an entry into the table could allocate it. -/
theorem dfsOpen_made {env : Env} {w : World} {path : CStr} {flags : BitVec 32} {replies : OpenReplies}
    {opened : Opened} (h : dfsOpen env w path flags replies = .done opened) (hnone : w.table path = none)
    (hsome : opened.world.table path ≠ none) : replies.alloc = true ∧ replies.keyDup = true := by
  by_contra hnot
  have hfails : replies.alloc = false ∨ replies.keyDup = false := by
    cases halloc : replies.alloc <;> cases hkey : replies.keyDup <;> simp_all
  have hpopulate := (findOrPopulate_eq_none w path replies).mpr ⟨hnone, hfails⟩
  unfold dfsOpen at h
  rw [hpopulate] at h
  obtain rfl := Exec.done.inj h
  exact hsome hnone

/-- A create that puts an entry into the table was not refused, and could allocate it. -/
theorem dfsCreate_made {env : Env} {w : World} {path : CStr} {mode flags : BitVec 32} {replies : CreateReplies}
    {created : Opened} (h : dfsCreate env w path mode flags replies = .done created) (hnone : w.table path = none)
    (hsome : created.world.table path ≠ none) :
    ¬ CreateRefused env w path mode replies ∧ replies.opening.alloc = true ∧ replies.opening.keyDup = true := by
  cases dfsCreate_outcome h with
  | refused => exact absurd hnone hsome
  | noEntry hnot hopen => exact ⟨hnot, dfsOpen_made hopen hnone hsome⟩
  | entry hnot hopen _ _ hentry =>
    obtain ⟨-, fs, remote, trace, metadata, -, -, hworld⟩ := createEntry_frame hentry
    rw [hworld] at hsome
    exact ⟨hnot, dfsOpen_made hopen hnone hsome⟩

/-- Opening, creating and releasing keep the type of an entry. -/
theorem filetype_opening : ToleratesOpening fun pe pe' : Pentry => pe'.filetype = pe.filetype where
  refl _ := rfl
  trans h₁ h₂ := h₂.trans h₁
  erased _ _ := rfl
  counted _ _ _ _ := rfl
  described _ _ _ _ := rfl
  opened _ _ _ := rfl

/-- A request other than a lookup keeps the type of every entry but the one it makes. -/
theorem Session.step_filetype {env : Env} {s s' : Session} {op : Op} {path : CStr} {pe' : Pentry}
    (hsound : s.world.Sound env) (hstep : s.step env op = .done s')
    (hop : ∀ path replies, op ≠ .getattr path replies) (hentry : s'.world.entry path = some pe') :
    (∃ pe, s.world.entry path = some pe ∧ pe'.filetype = pe.filetype) ∨
      path = op.makes.1 ∧ s.world.table path = none ∧ s'.world.table path ≠ none ∧
        pe'.filetype = op.makes.2.filetype := by
  obtain ⟨w₁, hadded, hchanged⟩ :=
    Session.step_changed filetype_opening (fun path replies h => absurd h (hop path replies)) hsound hstep
  obtain ⟨addr, htable', hheap'⟩ := Option.bind_eq_some_iff.mp hentry
  obtain ⟨pe, hheap, hsame⟩ := hchanged.heap addr pe' hheap'
  have htable := hchanged.table path addr htable'
  cases hadded with
  | same => exact .inl ⟨pe, by rw [World.entry, htable]; exact hheap, hsame⟩
  | more hnone =>
    simp only [World.insert, Function.update_apply] at htable hheap
    by_cases hpath : path = op.makes.1
    · rw [if_pos hpath] at htable
      obtain rfl := Option.some.inj htable
      rw [if_pos rfl] at hheap
      obtain rfl := Option.some.inj hheap
      exact .inr ⟨hpath, by rw [hpath]; exact hnone, by rw [htable']; simp, hsame⟩
    · rw [if_neg hpath] at htable
      rw [if_neg (Nat.ne_of_lt (hsound.table_lt path addr htable))] at hheap
      exact .inl ⟨pe, by rw [World.entry, htable]; exact hheap, hsame⟩

/-- One request that gets no type wrong keeps the types right. -/
theorem Session.step_right {env : Env} {t t' : Typings} {op : Op} (hsound : t.1.world.Sound env) (h : t.Right)
    (hguard : TypesRightly env t op) (hstep : t.1.step env op = .done t'.1)
    (htold : t'.2 = t.1.toldTypes env op ++ t.2) : t'.Right := by
  -- nothing new is told, and a path of which something was told gets no new entry
  have hsilent : (∀ path replies, op ≠ .getattr path replies) → t.1.toldTypes env op = [] →
      (∀ type, (op.makes.1, type) ∈ t.2 → t.1.world.table op.makes.1 = none →
        t'.1.world.table op.makes.1 ≠ none → False) → t'.Right := by
    intro hop hnothing hmade path type hmem pe' hentry
    rw [htold, hnothing, List.nil_append] at hmem
    rcases Session.step_filetype hsound hstep hop hentry with ⟨pe, hbefore, hsame⟩ | ⟨rfl, hnone, hsome, -⟩
    · rw [hsame]
      exact h path type hmem pe hbefore
    · exact (hmade type hmem hnone hsome).elim
  cases op with
  | getattr path replies =>
    obtain ⟨looked, hcall, hdone⟩ := Exec.bind_eq_done.mp hstep
    have hright := getattr_right hsound h hguard hcall
    have ht' : t' = ({ t.1 with world := looked.world }, t.1.toldTypes env (.getattr path replies) ++ t.2) :=
      Prod.ext (Exec.done.inj hdone).symm htold
    rw [ht']
    exact hright
  | opendir path replies =>
    have ht' : t' = ({ t.1 with world := (dfsOpendir env t.1.world path replies).2 },
        t.1.toldTypes env (.opendir path replies) ++ t.2) := Prod.ext (Exec.done.inj hstep).symm htold
    rw [ht']
    exact opendir_right hsound h hguard
  | create path mode flags replies =>
    refine hsilent (fun _ _ h => by cases h) rfl fun type hmem hnone hsome => ?_
    obtain ⟨created, hcall, hdone⟩ := Exec.bind_eq_done.mp hstep
    rw [← Exec.done.inj hdone] at hsome
    obtain ⟨hnot, halloc, hkey⟩ := dfsCreate_made hcall hnone hsome
    exact hguard hnot hnone halloc hkey type hmem
  | «open» path flags replies =>
    refine hsilent (fun _ _ h => by cases h) rfl fun type hmem hnone hsome => ?_
    obtain ⟨opened, hcall, hdone⟩ := Exec.bind_eq_done.mp hstep
    rw [← Exec.done.inj hdone] at hsome
    obtain ⟨halloc, hkey⟩ := dfsOpen_made hcall hnone hsome
    exact hguard hnone halloc hkey type hmem
  | mkdir | mknod | read | write | release | unlink | rmdir | rename | gc =>
    refine hsilent (fun _ _ h => by cases h) rfl fun type _ hnone hsome => ?_
    have hreduced := Session.step_reduced filetype_opening.toToleratesCounting hsound rfl hstep
    obtain ⟨addr, htable⟩ := Option.ne_none_iff_exists'.mp hsome
    cases hnone.symm.trans (hreduced.table _ addr htable)

/-- The typings reached by requests that all meet a guard, from nothing told. -/
def Typings.Reached (env : Env) (guard : Typings → Op → Prop) : Typings → Prop :=
  GuardedRuns.Reaches (GuardedRuns.recorded (Session.step env) fun s op _ told => s.toldTypes env op ++ told) guard
    fun t => t.1.Initial ∧ t.2 = []

/-- In every run that gets no type wrong, the entry of a path carries each type told of the path. -/
theorem reached_types_right {env : Env} {t : Typings} (h : Typings.Reached env (TypesRightly env) t) : t.Right := by
  refine GuardedRuns.Reaches.invariant Typings.Right ?_ ?_ h
  · rintro t ⟨-, hnothing⟩ path type hmem
    rw [hnothing] at hmem
    cases hmem
  · intro t op t' hreached hright hguard hstep
    obtain ⟨hnext, htold⟩ := GuardedRuns.recorded_eq_done.mp hstep
    exact Session.step_right (Session.Reached.sound hreached.unrecorded) hright hguard hnext htold

/-- A file that was looked up is known as one. -/
theorem reached_types_right_file :
    ∃ t : Typings, ("/f".toList, Filetype.reg) ∈ t.2 ∧ (t.1.world.entry "/f".toList).isSome = true ∧ t.Right := by
  have hreached : ∃ t : Typings, ("/f".toList, Filetype.reg) ∈ t.2 ∧ (t.1.world.entry "/f".toList).isSome = true ∧
      Typings.Reached Env.plain (TypesRightly Env.plain) t := by
    refine ⟨_, ?_, ?_, GuardedRuns.Reaches.step (s := (.start .empty (.file "/f".toList [65]), []))
      (i := .getattr "/f".toList .granted) (.start ⟨Session.start_initial .., rfl⟩) ?_ rfl⟩
    · decide
    · rfl
    · intro _ _
      refine ⟨fun _ => ⟨?_, fun told hmem => (by cases hmem)⟩, fun _ _ _ _ told hmem => by cases hmem⟩
      intro type htype
      obtain rfl : Ftype.reg = type := Option.some.inj htype
      change ShowsNoOther .reg Dict.new
      unfold ShowsNoOther
      rw [Dict.new_gives, if_neg Bool.false_ne_true, if_neg (by simp [Dict.new])]
      decide
  obtain ⟨t, hmem, hentry, h⟩ := hreached
  exact ⟨t, hmem, hentry, reached_types_right h⟩

/-- A directory that was looked up is known as a file. -/
theorem directory_typed_regular :
    ∃ t : Typings, Typings.Reached Env.plain GuardedRuns.unguarded t ∧ ¬ t.Right := by
  refine ⟨_, GuardedRuns.Reaches.step
    (s := (.start .empty ((∅ : Remote).insert "/d".toList ⟨.dir, [], none, none⟩), []))
    (i := .getattr "/d".toList .granted) (.start ⟨Session.start_initial .., rfl⟩) trivial rfl, fun hright => ?_⟩
  have htyped := hright "/d".toList .dir (by decide) _ rfl
  exact absurd htyped (by decide)

end Dropletfs
