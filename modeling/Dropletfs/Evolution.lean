import Dropletfs.Attributes
import Dropletfs.Descriptors

/-!
# What becomes of an entry

A request adds at most one entry to the table, removes some, and changes others. The kinds of
change are few: counting and locking, storing metadata and marks, providing a descriptor,
taking a path out of a list, and what a lookup stores. A relation that tolerates them holds
between each entry that a request leaves and what it was before.
-/

namespace Dropletfs

/-- A relation between an entry and a later state of it that allows for paths being taken out of its
list. -/
structure ToleratesErasing (R : Pentry → Pentry → Prop) : Prop where
  refl : ∀ pe, R pe pe
  trans : ∀ {pe₁ pe₂ pe₃}, R pe₁ pe₂ → R pe₂ pe₃ → R pe₁ pe₃
  erased : ∀ pe path, R pe { pe with dirent := pe.dirent.erase path }

/-- A relation that also allows for counting, locking and marking. -/
structure ToleratesCounting (R : Pentry → Pentry → Prop) : Prop extends ToleratesErasing R where
  counted : ∀ pe refcount locked flag, R pe { pe with refcount := refcount, locked := locked, flag := flag }

/-- A relation that also allows for what opening and creating do. -/
structure ToleratesOpening (R : Pentry → Pentry → Prop) : Prop extends ToleratesCounting R where
  described : ∀ pe metadata digest exclude,
    R pe { pe with metadata := metadata, digest := digest, exclude := exclude }
  opened : ∀ pe fd, 0 ≤ fd → R pe { pe with fd := fd, ondisk := .localFile }

/-- A relation that also allows for what lookups do. -/
structure ToleratesLookups (R : Pentry → Pentry → Prop) : Prop extends ToleratesErasing R where
  touched : ∀ pe metadata mdLocked atime, R pe { pe with metadata := metadata, mdLocked := mdLocked, atime := atime }
  listed : ∀ pe path, R pe { pe with dirent := path :: pe.dirent }
  typed : ∀ pe, pe.ondisk = .unset → R pe { pe with filetype := some .reg }
  looked : ∀ pe, pe.ondisk = .unset → R pe { pe with ondisk := .remote, filetype := some .reg }

/-- An entry as `pentry_new` and its caller make it for a path. -/
def Pentry.made (path : CStr) (dup : Bool) (filetype : Option Filetype) : Pentry :=
  { pentryNew with path := if dup then some path else none, filetype := filetype }

namespace World

/-- The table has the same entries, or one more. -/
inductive Added (w : World) (path : CStr) (pe : Pentry) : World → Prop
  | same : Added w path pe w
  | more : w.table path = none → Added w path pe (w.insert path pe).2

/-- Entries have gone or changed, but none was added. -/
structure Changed (R : Pentry → Pentry → Prop) (w w' : World) : Prop where
  nextAddr : w'.nextAddr = w.nextAddr
  table : ∀ path addr, w'.table path = some addr → w.table path = some addr
  heap : ∀ addr pe', w'.heap addr = some pe' → ∃ pe, w.heap addr = some pe ∧ R pe pe'
  alive : ∀ path addr, w'.table path = some addr → (w.heap addr).isSome = true → (w'.heap addr).isSome = true

namespace Changed

variable {R : Pentry → Pentry → Prop} {w w₁ w₂ : World}

/-- Nothing has changed in the table. -/
theorem of_eq (hR : ToleratesErasing R) (hnext : w₁.nextAddr = w.nextAddr) (htable : w₁.table = w.table)
    (hheap : w₁.heap = w.heap) : w.Changed R w₁ where
  nextAddr := hnext
  table := by
    rw [htable]
    exact fun _ _ h => h
  heap := by
    rw [hheap]
    exact fun addr pe h => ⟨pe, h, hR.refl pe⟩
  alive := by
    rw [hheap]
    exact fun _ _ _ h => h

/-- One change after another. -/
theorem trans (hR : ToleratesErasing R) (h₁ : w.Changed R w₁) (h₂ : w₁.Changed R w₂) : w.Changed R w₂ where
  nextAddr := h₂.nextAddr.trans h₁.nextAddr
  table path addr h := h₁.table path addr (h₂.table path addr h)
  heap := by
    intro addr pe₂ hheap₂
    obtain ⟨pe₁, hheap₁, hR₂⟩ := h₂.heap addr pe₂ hheap₂
    obtain ⟨pe, hheap, hR₁⟩ := h₁.heap addr pe₁ hheap₁
    exact ⟨pe, hheap, hR.trans hR₁ hR₂⟩
  alive := by
    intro path addr htable halive
    exact h₂.alive path addr htable (h₁.alive path addr (h₂.table path addr htable) halive)

/-- Storing an entry. -/
theorem put (hR : ToleratesErasing R) {addr : ℕ} {pe pe' : Pentry} (hheap : w.heap addr = some pe) (hpe : R pe pe') :
    w.Changed R (w.put addr pe') where
  nextAddr := rfl
  table _ _ h := h
  heap := by
    intro other qe hqe
    by_cases hother : other = addr
    · rw [hother, put_heap_self] at hqe
      rw [hother]
      exact ⟨pe, hheap, Option.some.inj hqe ▸ hpe⟩
    · rw [put_heap_ne _ _ hother] at hqe
      exact ⟨qe, hqe, hR.refl qe⟩
  alive := by
    intro _ other _ halive
    by_cases hother : other = addr
    · rw [hother, put_heap_self]
      rfl
    · rwa [put_heap_ne _ _ hother]

/-- Changing an entry, if it is there. -/
theorem modify (hR : ToleratesErasing R) (addr : ℕ) {change : Pentry → Pentry} (hchange : ∀ pe, R pe (change pe)) :
    w.Changed R (w.modify addr change) := by
  unfold World.modify
  split
  · exact .of_eq hR rfl rfl rfl
  · rename_i pe hheap
    exact .put hR hheap (hchange pe)

/-- Taking a path out of the list of a directory. -/
theorem removeDirentOf (hR : ToleratesErasing R) (dir : Option CStr) (path : CStr) (junk : Filetype) :
    w.Changed R (w.removeDirentOf dir path junk) := by
  unfold World.removeDirentOf
  split
  · exact .of_eq hR rfl rfl rfl
  · refine .modify hR _ fun pe => ?_
    unfold Pentry.removeDirent
    split
    · exact hR.erased pe path
    · exact hR.refl pe

/-- Removing a path destroys the entry of no other. -/
theorem remove {env : Env} (hR : ToleratesErasing R) (hsound : w.Sound env) (path : CStr) :
    w.Changed R (w.remove path) := by
  unfold World.remove
  split
  · exact .of_eq hR rfl rfl rfl
  · rename_i addr htable
    have hleft : ∀ other a, Function.update w.table path none other = some a →
        w.table other = some a ∧ a ≠ addr := by
      intro other a hother
      rw [Function.update_apply] at hother
      split at hother
      · cases hother
      · rename_i hne
        refine ⟨hother, ?_⟩
        rintro rfl
        exact hne (hsound.table_inj other path a hother htable)
    unfold World.free
    split
    · exact ⟨rfl, fun other a h => (hleft other a h).1, fun a pe h => ⟨pe, h, hR.refl pe⟩, fun _ _ _ h => h⟩
    · refine ⟨rfl, fun other a h => (hleft other a h).1, ?_, ?_⟩
      · intro a pe hpe
        simp only [Function.update_apply] at hpe
        split at hpe
        · cases hpe
        · exact ⟨pe, hpe, hR.refl pe⟩
      · intro other a h halive
        simpa only [Function.update_of_ne (hleft other a h).2] using halive

end Changed

end World

section Requests

variable {R : Pentry → Pentry → Prop} {env : Env} {w : World}

/-- The entry that an open works on is in the table already or made for the path. -/
theorem findOrPopulate_added {w' : World} {path : CStr} {replies : OpenReplies} {addr : ℕ}
    (h : findOrPopulate w path replies = some (addr, w')) :
    w.Added path (.made path replies.pathDup none) w' := by
  rcases findOrPopulate_cases h with ⟨-, rfl⟩ | ⟨hnone, -, rfl⟩
  · exact .same
  · exact .more hnone

/-- Holding an entry is tolerated. -/
theorem ToleratesOpening.held (hR : ToleratesOpening R) (pe : Pentry) (semPost : Bool) (mode : StateMode) :
    R pe (pe.held semPost mode) := by
  unfold Pentry.held Pentry.incRefcount
  cases semPost with
  | true =>
    split
    · exact hR.counted pe (pe.refcount + 1) pe.locked pe.flag
    · exact hR.counted pe (pe.refcount + 1) true pe.flag
  | false =>
    split
    · exact hR.refl pe
    · exact hR.counted pe pe.refcount true pe.flag

/-- Opening a path. -/
theorem dfsOpen_changed (hR : ToleratesOpening R) (hsound : w.Sound env) {path : CStr} {flags : BitVec 32}
    {replies : OpenReplies} {opened : Opened} (hopen : dfsOpen env w path flags replies = .done opened) :
    ∃ w₁, w.Added path (.made path replies.pathDup none) w₁ ∧ w₁.Changed R opened.world := by
  have hbase := hR.toToleratesErasing
  have hmode : ∀ {addr w' pe fs pe' ret}, Found w path replies addr w' pe →
      openByMode env w'.fs w'.remote (pe.held replies.semPost (getModeFromFlags flags)) path
        (getModeFromFlags flags) replies = .done (ret, fs, pe') →
      if ret = -1 then R pe pe' else R pe { pe' with ondisk := .localFile } := by
    intro addr w' pe fs pe' ret hfound hcall
    obtain ⟨hheld, -⟩ := pe.held_fd replies.semPost (getModeFromFlags flags)
    have husable : (pe.held replies.semPost (getModeFromFlags flags)).Usable := by
      rw [Pentry.Usable, hheld]
      exact ((hsound.grown (findOrPopulate_grown hfound.lookup)).rewound addr pe hfound.heap).usable
    have hbefore := hR.held pe replies.semPost (getModeFromFlags flags)
    generalize pe.held replies.semPost (getModeFromFlags flags) = held at *
    cases openByMode_outcome husable hcall with
    | failed =>
      rw [if_pos rfl]
      exact hR.trans hbefore (hR.described held _ _ held.exclude)
    | kept _ hfd =>
      rw [if_neg (by decide)]
      exact hR.trans hbefore (hR.trans (hR.opened held held.fd hfd) (hR.counted _ held.refcount held.locked _))
    | @fetched _ obj bytes fd metadata digest =>
      rw [if_neg (by decide)]
      exact hR.trans hbefore (hR.trans (hR.opened held fd (Int.natCast_nonneg fd))
        (hR.trans (hR.counted _ held.refcount held.locked _) (hR.described _ metadata digest held.exclude)))
    | @created _ name fd =>
      rw [if_neg (by decide)]
      exact hR.trans hbefore (hR.trans (hR.opened held fd (Int.natCast_nonneg fd))
        (hR.counted _ held.refcount held.locked .dirty))
  cases dfsOpen_outcome hopen with
  | noEntry => exact ⟨w, .same, .of_eq hbase rfl rfl rfl⟩
  | @lockFailed addr w' pe pe' hfound _ _ hwait =>
    obtain ⟨rfl, -⟩ := Pentry.decRefcount_eq hwait
    refine ⟨w', findOrPopulate_added hfound.lookup, .put hbase hfound.heap ?_⟩
    cases replies.semPost with
    | true => exact hR.counted pe _ pe.locked pe.flag
    | false => exact hR.counted pe _ pe.locked pe.flag
  | @failed addr w' pe pe' fs hfound _ hcall =>
    refine ⟨w', findOrPopulate_added hfound.lookup, ?_⟩
    have hstored : w'.Changed R { w' with fs := fs } := .of_eq hbase rfl rfl rfl
    exact hstored.trans hbase (.put hbase hfound.heap (by simpa using hmode hfound hcall))
  | @succeeded addr w' pe pe' fs ret hfound _ hcall hne =>
    refine ⟨w', findOrPopulate_added hfound.lookup, ?_⟩
    have hstored : w'.Changed R { w' with fs := fs } := .of_eq hbase rfl rfl rfl
    exact hstored.trans hbase (.put hbase hfound.heap (by simpa [hne] using hmode hfound hcall))

/-- Creating a path. -/
theorem dfsCreate_changed (hR : ToleratesOpening R) (hsound : w.Sound env) {path : CStr} {mode flags : BitVec 32}
    {replies : CreateReplies} {created : Opened} (hcreate : dfsCreate env w path mode flags replies = .done created) :
    ∃ w₁, w.Added path (.made path replies.opening.pathDup none) w₁ ∧ w₁.Changed R created.world := by
  have hbase := hR.toToleratesErasing
  cases dfsCreate_outcome hcreate with
  | refused => exact ⟨w, .same, .of_eq hbase rfl rfl rfl⟩
  | noEntry _ hopen =>
    obtain ⟨w₁, hadded, hchanged⟩ := dfsOpen_changed hR hsound hopen
    exact ⟨w₁, hadded, hchanged⟩
  | @entry opened _ addr pe _ hopen hfh hheap hentry =>
    obtain ⟨w₁, hadded, hchanged⟩ := dfsOpen_changed hR hsound hopen
    obtain ⟨-, fs, remote, trace, metadata, -, -, hworld⟩ := createEntry_frame hentry
    refine ⟨w₁, hadded, hchanged.trans hbase ?_⟩
    rw [hworld]
    have hstored : opened.world.Changed R { opened.world with fs := fs, remote := remote, trace := trace } :=
      .of_eq hbase rfl rfl rfl
    exact hstored.trans hbase (.put hbase hheap (hR.described pe metadata pe.digest _))

/-- Releasing a handle. -/
theorem dfsRelease_changed (hR : ToleratesCounting R) {addr : ℕ} {path : CStr} {flags : BitVec 32}
    {replies : ReleaseReplies} {released : Released}
    (hrelease : dfsRelease env w addr path flags replies = .done released) : w.Changed R released.world := by
  have hbase := hR.toToleratesErasing
  cases dfsRelease_outcome hrelease with
  | @unusable pe fs hheap =>
    have hstored : w.Changed R { w with fs := fs } := .of_eq hbase rfl rfl rfl
    exact hstored.trans hbase (.put hbase hheap (hR.counted pe pe.refcount _ .clean))
  | @readOnly pe _ _ hheap _ hwait =>
    obtain ⟨rfl, -⟩ := Pentry.decRefcount_eq hwait
    exact .put hbase hheap (hR.counted pe _ pe.locked pe.flag)
  | @excluded pe _ _ hheap _ hwait =>
    obtain ⟨rfl, -⟩ := Pentry.decRefcount_eq hwait
    exact .put hbase hheap (hR.counted pe _ _ .clean)
  | @uploaded pe _ _ _ _ hheap _ hwait _ _ hupload =>
    obtain ⟨rfl, -⟩ := Pentry.decRefcount_eq hwait
    obtain ⟨fs, remote, trace, rfl⟩ := upload_frame hupload
    have hstored : w.Changed R { w with fs := fs, remote := remote, trace := trace } := .of_eq hbase rfl rfl rfl
    exact hstored.trans hbase (.put hbase hheap (hR.counted pe _ _ .clean))

/-- Unlinking a path. -/
theorem dfsUnlink_changed (hR : ToleratesErasing R) (hsound : w.Sound env) (path : CStr) (replies : UnlinkReplies) :
    w.Changed R (dfsUnlink env w path replies).2 := by
  have hunlinked : w.Changed R (w.unlinked env path replies) := .of_eq hR rfl rfl rfl
  have hsound' : (w.unlinked env path replies).Sound env := by
    refine hsound.frame rfl rfl rfl ?_
    rw [LocalFs.Keeps, World.unlinked, LocalFs.unlink_files]
    exact fun _ _ h => h
  unfold dfsUnlink
  simp only
  split
  · exact .of_eq hR rfl rfl rfl
  · split
    · exact hunlinked
    · exact hunlinked.trans hR (.trans hR (.remove hR hsound' path) (.removeDirentOf hR _ _ _))

/-- Removing a directory. -/
theorem dfsRmdir_changed (hR : ToleratesErasing R) (path : CStr) (replies : RmdirReplies) :
    w.Changed R (dfsRmdir env w path replies).2 := by
  unfold dfsRmdir
  simp only
  split
  · exact .of_eq hR rfl rfl rfl
  · split
    · exact .of_eq hR rfl rfl rfl
    · have hstored : w.Changed R ({ w with
          remote := (dfsRmdirTimeout env.conf.maxRetry replies.rmdir path w.remote).2 }.log (.rmdir path)) :=
        .of_eq hR rfl rfl rfl
      exact hstored.trans hR (.removeDirentOf hR _ _ _)

/-- What is tolerated is kept up by each change made during a rename. -/
theorem renamePreserves_changed (hR : ToleratesErasing R) (w₀ : World) (replies : RenameReplies) :
    RenamePreserves env replies fun w => w.Sound env ∧ w₀.Changed R w where
  log _ _ h := ⟨h.1.frame rfl rfl rfl (fun _ _ h => h), h.2.trans hR (.of_eq hR rfl rfl rfl)⟩
  cwd _ _ h := ⟨h.1.frame rfl rfl rfl (fun _ _ h => h), h.2.trans hR (.of_eq hR rfl rfl rfl)⟩
  fcopy _ _ _ h := ⟨h.1.frame rfl rfl rfl (fun _ _ h => h), h.2.trans hR (.of_eq hR rfl rfl rfl)⟩
  dirent w dir path junk h :=
    ⟨h.1.quiet (w.removeDirentOf_quiet dir path junk), h.2.trans hR (.removeDirentOf hR dir path junk)⟩
  unlink _ path h := ⟨dfsUnlink_sound h.1, h.2.trans hR (dfsUnlink_changed hR h.1 path _)⟩
  mkdir _ _ h := ⟨h.1.frame rfl rfl rfl (fun _ _ h => h), h.2.trans hR (.of_eq hR rfl rfl rfl)⟩
  rmdir w path h :=
    ⟨h.1.quiet (dfsRmdir_quiet env w path (replies.rmdir path)).1, h.2.trans hR (dfsRmdir_changed hR path _)⟩

/-- A rename. -/
theorem dfsRename_changed (hR : ToleratesErasing R) {depth : ℕ} {s s' : Renaming} {old new : CStr}
    {replies : RenameReplies} {ret : ℤ} (hsound : s.world.Sound env)
    (hrename : dfsRename env depth s old new replies = .done (ret, s')) : s.world.Changed R s'.world :=
  (dfsRename_preserves (renamePreserves_changed hR s.world replies) ⟨hsound, .of_eq hR rfl rfl rfl⟩ hrename).2

/-- A visit of the collector. -/
theorem gcCallback_changed (hR : ToleratesErasing R) (hlock : ∀ pe locked, R pe { pe with locked := locked })
    (hsound : w.Sound env) {path : CStr} {replies : GcReplies}
    {w' : World} (hgc : gcCallback env w path replies = .done w') : w.Changed R w' := by
  cases gcCallback_outcome hgc with
  | untouched => exact .of_eq hR rfl rfl rfl
  | @kept addr pe _ hheap => exact .put hR hheap (hlock pe _)
  | collected =>
    have hstored : w.Changed R { w with fs := w.fs.unlink (cacheName env.conf path) replies.unlinkCache } :=
      .of_eq hR rfl rfl rfl
    have hsound' : World.Sound env { w with fs := w.fs.unlink (cacheName env.conf path) replies.unlinkCache } := by
      refine hsound.frame rfl rfl rfl ?_
      rw [LocalFs.Keeps, LocalFs.unlink_files]
      exact fun _ _ h => h
    exact hstored.trans hR (.remove hR hsound' path)

/-- Writing through a handle. -/
theorem dfsWrite_changed (hR : ToleratesErasing R) {addr : ℕ} {data : Bytes} {offset : ℕ} {replies : WriteReplies}
    {ret : ℤ} {w' : World} (hwrite : dfsWrite w addr data offset replies = .done (ret, w')) : w.Changed R w' := by
  obtain ⟨fs, rfl⟩ := dfsWrite_frame hwrite
  exact .of_eq hR rfl rfl rfl

/-- Adding a path to the list of its directory. -/
theorem World.Changed.fillDirent (hR : ToleratesLookups R) (path : CStr) (reply : Bool) :
    w.Changed R (w.fillDirent path reply) := by
  unfold World.fillDirent
  split
  · exact .of_eq hR.toToleratesErasing rfl rfl rfl
  · refine .modify hR.toToleratesErasing _ fun pe => ?_
    unfold Pentry.addDirent
    split
    · exact hR.listed pe path
    · exact hR.refl pe

/-- Looking a path up. -/
theorem dfsGetattr_changed (hR : ToleratesLookups R) {path : CStr} {replies : GetattrReplies} {looked : Lookup}
    (h : dfsGetattr env w path replies = .done looked) :
    ∃ w₁, w.Added path (.made path replies.pathDup none) w₁ ∧ w₁.Changed R looked.world := by
  have hbase := hR.toToleratesErasing
  cases dfsGetattr_outcome h with
  | root => exact ⟨w, .same, .of_eq hbase rfl rfl rfl⟩
  | noEntry => exact ⟨w, .same, .of_eq hbase rfl rfl rfl⟩
  | @entry addr w₁ pe looked₁ _ hentry hheap hcall =>
    refine ⟨w₁, ?_, ?_⟩
    · cases hentry with
      | found => exact .same
      | made hnone => exact .more hnone
    · have hcalled : w₁.Changed R looked₁.world := by
        cases getattrByPlaceholder_outcome hcall with
        | kept => exact .of_eq hbase rfl rfl rfl
        | @held _ _ metadata => exact .put hbase hheap (hR.touched pe metadata true pe.atime)
        | @served _ metadata ondisk hunset hondisk =>
          refine .trans hbase (.put hbase hheap ?_) (.fillDirent hR _ _)
          rcases hondisk with rfl | rfl
          · rw [← hunset]
            exact hR.trans (hR.typed pe hunset) (hR.touched _ metadata pe.mdLocked pe.atime)
          · exact hR.trans (hR.looked pe hunset) (hR.touched _ metadata pe.mdLocked pe.atime)
      exact hcalled.trans hbase (.modify hbase addr fun pe => hR.touched pe pe.metadata pe.mdLocked _)

/-- Opening a directory. -/
theorem dfsOpendir_added (env : Env) (w : World) (path : CStr) (replies : OpendirReplies) :
    w.Added path (.made path replies.pathDup (some .dir)) (dfsOpendir env w path replies).2 := by
  unfold dfsOpendir
  simp only
  split
  · exact .same
  · split
    · exact .same
    · rename_i hnone
      split
      · exact .same
      · exact .more hnone

end Requests

/-- The path that a request may add to the table, and the entry it would make for it. -/
def Op.makes : Op → CStr × Pentry
  | .getattr path replies => (path, .made path replies.pathDup none)
  | .opendir path replies => (path, .made path replies.pathDup (some .dir))
  | .create path _ _ replies => (path, .made path replies.opening.pathDup none)
  | .open path _ replies => (path, .made path replies.pathDup none)
  | _ => ([], .made [] true none)

/-- A request that may add an entry to the table. -/
def Op.adds : Op → Bool
  | .getattr _ _ | .opendir _ _ | .create _ _ _ _ | .open _ _ _ => true
  | _ => false

section Step

variable {env : Env} {s s' : Session} {op : Op} {R : Pentry → Pentry → Prop}

/-- The other requests only remove entries and change them as is tolerated. -/
theorem Session.step_reduced (hR : ToleratesCounting R) (hsound : s.world.Sound env) (hadds : op.adds = false)
    (hstep : s.step env op = .done s') : s.world.Changed R s'.world := by
  have hbase := hR.toToleratesErasing
  have hunchanged : s.world.Changed R s.world := .of_eq hbase rfl rfl rfl
  cases op with
  | getattr | opendir | create | «open» => cases hadds
  | mkdir path replies =>
    obtain rfl := Exec.done.inj hstep
    exact .of_eq hbase rfl rfl rfl
  | mknod path replies =>
    obtain rfl := Exec.done.inj hstep
    exact .of_eq hbase rfl rfl rfl
  | read i size offset replies =>
    simp only [Session.step] at hstep
    split at hstep
    · obtain rfl := Exec.done.inj hstep
      exact hunchanged
    · obtain ⟨_, -, hdone⟩ := Exec.bind_eq_done.mp hstep
      obtain rfl := Exec.done.inj hdone
      exact hunchanged
  | write i data offset replies =>
    simp only [Session.step] at hstep
    split at hstep
    · obtain rfl := Exec.done.inj hstep
      exact hunchanged
    · split at hstep
      · obtain rfl := Exec.done.inj hstep
        exact hunchanged
      · obtain ⟨⟨ret, w⟩, hcall, hdone⟩ := Exec.bind_eq_done.mp hstep
        obtain rfl := Exec.done.inj hdone
        exact dfsWrite_changed hbase hcall
  | release i replies =>
    simp only [Session.step] at hstep
    split at hstep
    · obtain rfl := Exec.done.inj hstep
      exact hunchanged
    · obtain ⟨released, hcall, hdone⟩ := Exec.bind_eq_done.mp hstep
      obtain rfl := Exec.done.inj hdone
      exact dfsRelease_changed hR hcall
  | unlink path replies =>
    obtain rfl := Exec.done.inj hstep
    exact dfsUnlink_changed hbase hsound path replies
  | rmdir path replies =>
    obtain rfl := Exec.done.inj hstep
    exact dfsRmdir_changed hbase path replies
  | rename depth ring old new replies =>
    obtain ⟨⟨ret, renamed⟩, hcall, hdone⟩ := Exec.bind_eq_done.mp hstep
    obtain rfl := Exec.done.inj hdone
    exact dfsRename_changed (s := ⟨s.world, ring⟩) hbase hsound hcall
  | gc path replies =>
    obtain ⟨w, hcall, hdone⟩ := Exec.bind_eq_done.mp hstep
    obtain rfl := Exec.done.inj hdone
    exact gcCallback_changed hbase (fun pe locked => hR.counted pe pe.refcount locked pe.flag) hsound hcall

/-- A request adds at most the entry that it makes, and changes others as is tolerated. -/
theorem Session.step_changed (hopening : ToleratesOpening R)
    (hlookups : ∀ path replies, op = .getattr path replies → ToleratesLookups R)
    (hsound : s.world.Sound env) (hstep : s.step env op = .done s') :
    ∃ w₁, s.world.Added op.makes.1 op.makes.2 w₁ ∧ w₁.Changed R s'.world := by
  cases op with
  | getattr path replies =>
    obtain ⟨looked, hcall, hdone⟩ := Exec.bind_eq_done.mp hstep
    obtain rfl := Exec.done.inj hdone
    exact dfsGetattr_changed (hlookups path replies rfl) hcall
  | opendir path replies =>
    obtain rfl := Exec.done.inj hstep
    exact ⟨_, dfsOpendir_added env s.world path replies, .of_eq hopening.toToleratesErasing rfl rfl rfl⟩
  | create path mode flags replies =>
    obtain ⟨created, hcall, hdone⟩ := Exec.bind_eq_done.mp hstep
    obtain rfl := Exec.done.inj hdone
    exact dfsCreate_changed hopening hsound hcall
  | «open» path flags replies =>
    obtain ⟨opened, hcall, hdone⟩ := Exec.bind_eq_done.mp hstep
    obtain rfl := Exec.done.inj hdone
    exact dfsOpen_changed hopening hsound hcall
  | mkdir | mknod | read | write | release | unlink | rmdir | rename | gc =>
    exact ⟨s.world, .same, Session.step_reduced hopening.toToleratesCounting hsound rfl hstep⟩

end Step

/-- The relation that always holds tolerates what opening does. -/
theorem trivial_opening : ToleratesOpening fun _ _ : Pentry => True where
  refl _ := trivial
  trans _ _ := trivial
  erased _ _ := trivial
  counted _ _ _ _ := trivial
  described _ _ _ _ := trivial
  opened _ _ _ := trivial

/-- It tolerates what lookups do. -/
theorem trivial_lookups : ToleratesLookups fun _ _ : Pentry => True where
  toToleratesErasing := trivial_opening.toToleratesErasing
  touched _ _ _ _ := trivial
  listed _ _ := trivial
  typed _ _ := trivial
  looked _ _ := trivial

/-- Every path of the table has an entry. -/
def World.Present (w : World) : Prop := ∀ path addr, w.table path = some addr → ∃ pe, w.heap addr = some pe

/-- One request keeps an entry for every path. -/
theorem Session.step_present {env : Env} {s s' : Session} {op : Op} (hsound : s.world.Sound env)
    (h : s.world.Present) (hstep : s.step env op = .done s') : s'.world.Present := by
  obtain ⟨w₁, hadded, hchanged⟩ := Session.step_changed trivial_opening (fun _ _ _ => trivial_lookups) hsound hstep
  have hgrown : w₁.Present := by
    cases hadded with
    | same => exact h
    | more hnone =>
      intro path addr htable
      simp only [World.insert, Function.update_apply] at htable ⊢
      split at htable
      · obtain rfl := Option.some.inj htable
        exact ⟨_, if_pos rfl⟩
      · rw [if_neg (Nat.ne_of_lt (hsound.table_lt path addr htable))]
        exact h path addr htable
  intro path addr htable
  obtain ⟨pe, hheap⟩ := hgrown path addr (hchanged.table path addr htable)
  exact Option.isSome_iff_exists.mp (hchanged.alive path addr htable (by rw [hheap]; rfl))

/-- In every run, every path of the table has an entry. -/
theorem Session.Reached.present {env : Env} {guard : Session → Op → Prop} {s : Session}
    (h : s.Reached env guard) : s.world.Present := by
  refine GuardedRuns.Reaches.invariant (fun s => s.world.Present) ?_ ?_ h
  · intro s hs path addr htable
    rw [hs.table] at htable
    cases htable
  · intro s op s' hreached hs _ hstep
    exact Session.step_present (Session.Reached.sound hreached) hs hstep

end Dropletfs
