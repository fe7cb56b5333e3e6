import Dropletfs.OpenDescriptors
import Dropletfs.Removal

/-!
# Accounting for descriptors

What is open and was not open when the program started belongs to the entries of the table,
a descriptor to each, as long as no open for writing from scratch replaces a descriptor and
no decompression fails with the descriptor of the download still open.
-/

namespace Dropletfs

/-- The path has no entry, or one without a descriptor. -/
def World.Bare (w : World) (path : CStr) : Prop := ∀ pe, w.entry path = some pe → pe.fd = -1

/-- An open neither replaces a descriptor nor leaves one behind: `open_creat` gets to work only on a path
without a descriptor, and what a download delivers is decompressed without failure. -/
structure OpensTidily (env : Env) (w : World) (path : CStr) (flags : BitVec 32) (replies : OpenReplies) : Prop where
  replaces : CreatesLocal flags replies → w.Bare path
  unpacks : getModeFromFlags flags ≠ .creat → (getModeFromFlags flags ≠ .rdonly → replies.lock = true) →
    w.Bare path → replies.copy.Tidy env w.fs.opened w.remote path

/-- A request neither replaces a descriptor nor leaves one behind. -/
def KeepsAccount (env : Env) (s : Session) : Op → Prop
  | .open path flags replies => OpensTidily env s.world path flags replies
  | .create path mode flags replies =>
    CreateRefused env s.world path mode replies ∨ OpensTidily env s.world path flags replies.opening
  | _ => True

/-- The descriptors opened since the start are those of the entries of the table, each of one entry only. -/
structure World.Accounted (start : Set ℕ) (w : World) : Prop where
  stored : ∀ fd : ℕ, fd ∈ w.fs.opened \ start ↔ ∃ path pe, w.entry path = some pe ∧ pe.fd = fd
  once : ∀ path other pe pe', w.entry path = some pe → w.entry other = some pe' → 0 ≤ pe.fd → pe.fd = pe'.fd →
    path = other

/-- Every entry is in the table, the descriptors of the start are still open, those of the entries are open
and not among them, and no other is open. -/
structure World.Accounts (start : Set ℕ) (w : World) : Prop where
  listed : ∀ addr pe, w.heap addr = some pe → ∃ path, w.table path = some addr
  others : start ⊆ w.fs.opened
  own : ∀ addr pe, ∀ fd : ℕ, w.heap addr = some pe → pe.fd = fd → fd ∈ w.fs.opened \ start
  stored : ∀ fd : ℕ, fd ∈ w.fs.opened \ start → ∃ addr pe, w.heap addr = some pe ∧ pe.fd = fd

namespace World.Accounts

variable {env : Env} {start : Set ℕ} {w w' : World}

/-- The table, the entries and what is open are as before. -/
theorem frame (h : w.Accounts start) (hheap : w'.heap = w.heap) (htable : w'.table = w.table)
    (hopened : w'.fs.opened = w.fs.opened) : w'.Accounts start where
  listed := by
    rw [hheap, htable]
    exact h.listed
  others := by
    rw [hopened]
    exact h.others
  own := by
    rw [hheap, hopened]
    exact h.own
  stored := by
    rw [hheap, hopened]
    exact h.stored

/-- A quiet change. -/
theorem quiet (h : w.Accounts start) (hquiet : w.Quiet w') : w'.Accounts start where
  listed := by
    intro addr pe' hheap'
    obtain ⟨pe, hheap, -⟩ := hquiet.heap_after hheap'
    rw [hquiet.table]
    exact h.listed addr pe hheap
  others := by
    rw [hquiet.fs]
    exact h.others
  own := by
    intro addr pe' fd hheap' hfd
    obtain ⟨pe, hheap, hcore⟩ := hquiet.heap_after hheap'
    have hsame : pe'.fd = pe.fd := congrArg Core.fd hcore
    rw [hquiet.fs]
    exact h.own addr pe fd hheap (by omega)
  stored := by
    intro fd hfd
    rw [hquiet.fs] at hfd
    obtain ⟨addr, pe, hheap, hpe⟩ := h.stored fd hfd
    obtain ⟨pe', hheap', hcore⟩ := hquiet.heap_before hheap
    have hsame : pe'.fd = pe.fd := congrArg Core.fd hcore
    exact ⟨addr, pe', hheap', by omega⟩

/-- A new entry, which has no descriptor. -/
theorem insert {path : CStr} {pe : Pentry} (h : w.Accounts start) (hsound : w.Sound env)
    (hnone : w.table path = none) (hfd : pe.fd = -1) : (w.insert path pe).2.Accounts start where
  listed := by
    intro addr pe' hheap
    simp only [World.insert, Function.update_apply] at hheap ⊢
    split at hheap
    · rename_i haddr
      exact ⟨path, by rw [if_pos rfl, haddr]⟩
    · obtain ⟨other, hother⟩ := h.listed addr pe' hheap
      refine ⟨other, ?_⟩
      rw [if_neg, hother]
      rintro rfl
      rw [hnone] at hother
      cases hother
  others := h.others
  own := by
    intro addr pe' fd hheap hpe
    simp only [World.insert, Function.update_apply] at hheap
    split at hheap
    · obtain rfl := Option.some.inj hheap
      omega
    · exact h.own addr pe' fd hheap hpe
  stored := by
    intro fd hopen
    obtain ⟨addr, pe', hheap, hpe⟩ := h.stored fd hopen
    refine ⟨addr, pe', ?_, hpe⟩
    have hne : addr ≠ w.nextAddr := by
      rintro rfl
      rw [hsound.fresh _ (Nat.le_refl _)] at hheap
      cases hheap
    simpa only [World.insert, Function.update_of_ne hne] using hheap

/-- One more entry at most. -/
theorem grown {path : CStr} (h : w.Accounts start) (hsound : w.Sound env) (hgrown : w.Grown path w') :
    w'.Accounts start := by
  cases hgrown with
  | same => exact h
  | more hnone hfresh => exact h.insert hsound hnone hfresh.fd

/-- Storing an entry whose descriptor is the one it had, or a new one where it had none. -/
theorem put {addr : ℕ} {pe pe' : Pentry} {fs : LocalFs} {remote : Remote} {trace : List Event}
    (h : w.Accounts start) (hheap : w.heap addr = some pe) (hgain : FdGain w.fs fs pe pe') :
    (({ w with fs := fs, remote := remote, trace := trace } : World).put addr pe').Accounts start where
  listed := by
    intro other qe hqe
    by_cases hother : other = addr
    · rw [hother]
      exact h.listed addr pe hheap
    · rw [put_heap_ne _ _ hother] at hqe
      exact h.listed other qe hqe
  others := by
    cases hgain with
    | same _ hopened =>
      rw [put_fs, hopened]
      exact h.others
    | gained _ _ _ hopened =>
      rw [put_fs, hopened]
      exact h.others.trans (Set.subset_insert _ _)
  own := by
    intro other qe fd hqe hfd
    rw [put_fs]
    have hmono : w.fs.opened ⊆ fs.opened := by
      cases hgain with
      | same _ hopened => exact hopened.ge
      | gained _ _ _ hopened => exact hopened ▸ Set.subset_insert _ _
    by_cases hother : other = addr
    · rw [hother, put_heap_self] at hqe
      obtain rfl := Option.some.inj hqe
      cases hgain with
      | same heq _ =>
        obtain ⟨hopen, hnew⟩ := h.own addr pe fd hheap (heq ▸ hfd)
        exact ⟨hmono hopen, hnew⟩
      | @gained new _ heq hfree hopened =>
        obtain rfl : new = fd := by omega
        exact ⟨hopened ▸ Set.mem_insert _ _, fun hstart => hfree (h.others hstart)⟩
    · rw [put_heap_ne _ _ hother] at hqe
      obtain ⟨hopen, hnew⟩ := h.own other qe fd hqe hfd
      exact ⟨hmono hopen, hnew⟩
  stored := by
    intro fd hopen
    rw [put_fs] at hopen
    have hkept : pe'.fd = pe.fd ∨ pe.fd = -1 → fd ∈ w.fs.opened \ start → ∃ a qe,
        ((({ w with fs := fs, remote := remote, trace := trace } : World).put addr pe').heap a = some qe) ∧
          qe.fd = fd := by
      intro hfd hbefore
      obtain ⟨a, qe, hqe, hsame⟩ := h.stored fd hbefore
      by_cases ha : a = addr
      · subst ha
        obtain rfl := Option.some.inj (hheap.symm.trans hqe)
        exact ⟨a, pe', put_heap_self .., by omega⟩
      · exact ⟨a, qe, by rw [put_heap_ne _ _ ha]; exact hqe, hsame⟩
    cases hgain with
    | same heq hopened =>
      rw [hopened] at hopen
      exact hkept (.inl heq) hopen
    | @gained new hnone heq _ hopened =>
      rw [hopened] at hopen
      rcases Set.mem_insert_iff.mp hopen.1 with rfl | hbefore
      · exact ⟨addr, pe', put_heap_self .., heq⟩
      · exact hkept (.inr hnone) ⟨hbefore, hopen.2⟩

/-- Destroying an entry that the table has given up closes its descriptor. -/
theorem freed {addr : ℕ} {pe : Pentry} {table : CStr → Option ℕ} (h : w.Accounts start) (hsound : w.Sound env)
    (hheap : w.heap addr = some pe)
    (hlisted : ∀ {a qe}, a ≠ addr → w.heap a = some qe → ∃ path, table path = some a) :
    (({ w with table := table } : World).free addr).Accounts start := by
  have hleft : ∀ {a qe}, Function.update w.heap addr none a = some qe → a ≠ addr ∧ w.heap a = some qe := by
    intro a qe ha
    rw [Function.update_apply] at ha
    split at ha
    · cases ha
    · exact ⟨‹_›, ha⟩
  have hopened : ∀ fd : ℕ, fd ∈ (if 0 ≤ pe.fd then w.fs.close pe.fd.toNat else w.fs).opened ↔
      fd ∈ w.fs.opened ∧ pe.fd ≠ fd := by
    intro fd
    split
    · rw [LocalFs.close_opened, Set.mem_sdiff, Set.mem_singleton_iff]
      constructor
      · rintro ⟨hopen, hne⟩
        exact ⟨hopen, by omega⟩
      · rintro ⟨hopen, hne⟩
        exact ⟨hopen, by omega⟩
    · simp only [iff_self_and]
      omega
  simp only [World.free, hheap]
  refine ⟨?_, ?_, ?_, ?_⟩
  · intro a qe ha
    obtain ⟨hne, ha⟩ := hleft ha
    exact hlisted hne ha
  · intro fd hstart
    exact (hopened fd).mpr ⟨h.others hstart, fun hfd => (h.own addr pe fd hheap hfd).2 hstart⟩
  · intro a qe fd ha hfd
    obtain ⟨hne, ha⟩ := hleft ha
    obtain ⟨hopen, hnew⟩ := h.own a qe fd ha hfd
    refine ⟨(hopened fd).mpr ⟨hopen, fun hsame => ?_⟩, hnew⟩
    exact hne (hsound.fd_inj a addr qe pe ha hheap (by omega) (by omega))
  · rintro fd ⟨hopen, hnew⟩
    obtain ⟨hbefore, hother⟩ := (hopened fd).mp hopen
    obtain ⟨a, qe, ha, hqe⟩ := h.stored fd ⟨hbefore, hnew⟩
    refine ⟨a, qe, ?_, hqe⟩
    simp only
    rw [Function.update_of_ne, ha]
    rintro rfl
    obtain rfl := Option.some.inj (hheap.symm.trans ha)
    exact hother hqe

/-- Removing a path destroys its entry. -/
theorem remove (h : w.Accounts start) (hsound : w.Sound env) (path : CStr) : (w.remove path).Accounts start := by
  unfold World.remove
  split
  · exact h
  · rename_i addr htable
    have hlisted : ∀ {a qe}, a ≠ addr → w.heap a = some qe →
        ∃ other, Function.update w.table path none other = some a := by
      intro a qe hne ha
      obtain ⟨other, hother⟩ := h.listed a qe ha
      refine ⟨other, ?_⟩
      rw [Function.update_of_ne, hother]
      rintro rfl
      exact hne (Option.some.inj (hother.symm.trans htable))
    cases hheap : w.heap addr with
    | some pe => exact h.freed hsound hheap hlisted
    | none =>
      simp only [World.free, hheap]
      refine ⟨fun a qe ha => hlisted ?_ ha, h.others, h.own, h.stored⟩
      rintro rfl
      rw [hheap] at ha
      cases ha

/-- In a sound state, the accounts are in order. -/
theorem accounted (h : w.Accounts start) (hsound : w.Sound env) : w.Accounted start where
  stored := by
    intro fd
    constructor
    · intro hopen
      obtain ⟨addr, pe, hheap, hfd⟩ := h.stored fd hopen
      obtain ⟨path, htable⟩ := h.listed addr pe hheap
      exact ⟨path, pe, by rw [World.entry, htable, Option.bind_some, hheap], hfd⟩
    · rintro ⟨path, pe, hentry, hfd⟩
      obtain ⟨addr, -, hheap⟩ : ∃ addr, w.table path = some addr ∧ w.heap addr = some pe :=
        Option.bind_eq_some_iff.mp hentry
      exact h.own addr pe fd hheap hfd
  once := by
    intro path other pe pe' hentry hentry' hpos hfd
    obtain ⟨addr, htable, hheap⟩ : ∃ addr, w.table path = some addr ∧ w.heap addr = some pe :=
      Option.bind_eq_some_iff.mp hentry
    obtain ⟨addr', htable', hheap'⟩ : ∃ addr, w.table other = some addr ∧ w.heap addr = some pe' :=
      Option.bind_eq_some_iff.mp hentry'
    obtain rfl := hsound.fd_inj addr addr' pe pe' hheap hheap' hpos hfd
    exact hsound.table_inj path other addr htable htable'

end World.Accounts

section Requests

variable {env : Env} {start : Set ℕ} {w w' : World} {path : CStr}

/-- The entry that an open finds or makes has no descriptor if the path is bare, and only then. -/
theorem Found.bare_iff {replies : OpenReplies} {addr : ℕ} {pe : Pentry} (h : Found w path replies addr w' pe) :
    w.Bare path ↔ pe.fd = -1 := by
  unfold World.Bare World.entry
  rcases findOrPopulate_cases h.lookup with ⟨htable, rfl⟩ | ⟨htable, rfl, rfl⟩
  · simp [htable, h.heap]
  · have hnew := h.heap
    simp only [World.insert, Function.update_self, Option.some.injEq] at hnew
    simp [htable, ← hnew, pentryNew]

/-- A tidy open keeps the accounts. -/
theorem dfsOpen_accounts {flags : BitVec 32} {replies : OpenReplies} {opened : Opened} (h : w.Accounts start)
    (hsound : w.Sound env) (htidy : OpensTidily env w path flags replies)
    (hopen : dfsOpen env w path flags replies = .done opened) : opened.world.Accounts start := by
  have hmode : ∀ {addr w' pe fs pe' ret pe''}, Found w path replies addr w' pe →
      (getModeFromFlags flags ≠ .rdonly → replies.lock = true ∧ pe.locked = false) →
      openByMode env w'.fs w'.remote (pe.held replies.semPost (getModeFromFlags flags)) path
        (getModeFromFlags flags) replies = .done (ret, fs, pe') → pe''.fd = pe'.fd →
      (({ w' with fs := fs } : World).put addr pe'').Accounts start := by
    intro addr w' pe fs pe' ret pe'' hfound hlock hcall hfd
    obtain ⟨-, hfs, hremote⟩ := hfound.cached
    have hgrown := findOrPopulate_grown hfound.lookup
    obtain ⟨hheld, -⟩ := pe.held_fd replies.semPost (getModeFromFlags flags)
    have husable : (pe.held replies.semPost (getModeFromFlags flags)).Usable := by
      rw [Pentry.Usable, hheld]
      exact ((hsound.grown hgrown).rewound addr pe hfound.heap).usable
    have hgain := openByMode_gain husable
      (fun hcreat hdup hreply => by
        rw [hheld]
        exact hfound.bare_iff.mp (htidy.replaces ⟨hcreat, (hlock (by rw [hcreat]; decide)).1, hdup, hreply⟩))
      (fun hcreat hbare => by
        rw [hfs, hremote]
        exact htidy.unpacks hcreat (fun hrdonly => (hlock hrdonly).1) (hfound.bare_iff.mpr (hheld ▸ hbare)))
      hcall
    refine (h.grown hsound hgrown).put hfound.heap ?_
    cases hgain with
    | same heq hopened => exact .same (by rw [hfd, heq, hheld]) hopened
    | gained hnone heq hfree hopened => exact .gained (hheld ▸ hnone) (hfd.trans heq) hfree hopened
  cases dfsOpen_outcome hopen with
  | noEntry => exact h
  | @lockFailed addr w' pe pe' hfound _ _ hwait =>
    obtain ⟨rfl, -⟩ := Pentry.decRefcount_eq hwait
    refine (h.grown hsound (findOrPopulate_grown hfound.lookup)).put hfound.heap (.same ?_ rfl)
    cases replies.semPost <;> rfl
  | failed hfound hlock hcall => exact hmode hfound hlock hcall rfl
  | succeeded hfound hlock hcall _ => exact hmode hfound hlock hcall rfl

/-- A create whose open is tidy keeps the accounts. -/
theorem dfsCreate_accounts {mode flags : BitVec 32} {replies : CreateReplies} {created : Opened}
    (h : w.Accounts start) (hsound : w.Sound env)
    (htidy : CreateRefused env w path mode replies ∨ OpensTidily env w path flags replies.opening)
    (hcreate : dfsCreate env w path mode flags replies = .done created) : created.world.Accounts start := by
  cases dfsCreate_outcome hcreate with
  | refused => exact h
  | noEntry hnot hopen =>
    have hopened := dfsOpen_accounts h hsound (htidy.resolve_left hnot) hopen
    exact hopened
  | @entry opened _ addr pe hnot hopen _ hheap hentry =>
    obtain ⟨-, fs, remote, trace, metadata, hfs, -, hworld⟩ := createEntry_frame hentry
    rw [hworld]
    refine (dfsOpen_accounts h hsound (htidy.resolve_left hnot) hopen).put hheap (.same (by rfl) ?_)
    rcases hfs with rfl | rfl
    · rfl
    · exact LocalFs.opened_of_files (LocalFs.fchmod_keeps ..)

/-- A release keeps the accounts. -/
theorem dfsRelease_accounts {addr : ℕ} {flags : BitVec 32} {replies : ReleaseReplies} {released : Released}
    (h : w.Accounts start) (hrelease : dfsRelease env w addr path flags replies = .done released) :
    released.world.Accounts start := by
  cases dfsRelease_outcome hrelease with
  | unusable hheap _ hfs =>
    refine h.put hheap (.same (by rfl) ?_)
    rcases hfs with rfl | ⟨-, rfl⟩
    · rfl
    · exact LocalFs.seek_opened ..
  | readOnly hheap _ hwait _ =>
    obtain ⟨rfl, -⟩ := Pentry.decRefcount_eq hwait
    exact h.put hheap (.same (by rfl) rfl)
  | excluded hheap _ hwait _ _ =>
    obtain ⟨rfl, -⟩ := Pentry.decRefcount_eq hwait
    exact h.put hheap (.same (by rfl) rfl)
  | uploaded hheap _ hwait _ _ hupload =>
    obtain ⟨rfl, -⟩ := Pentry.decRefcount_eq hwait
    have hopened := upload_opened hupload
    obtain ⟨fs, remote, trace, rfl⟩ := upload_frame hupload
    exact h.put hheap (.same (by rfl) hopened)

/-- An unlink keeps the accounts. -/
theorem dfsUnlink_accounts {replies : UnlinkReplies} (h : w.Accounts start) (hsound : w.Sound env) :
    (dfsUnlink env w path replies).2.Accounts start := by
  have houtcome := dfsUnlink_outcome env w path replies
  generalize dfsUnlink env w path replies = result at houtcome
  have hunlinked : (w.unlinked env path replies).Accounts start :=
    h.frame rfl rfl (LocalFs.opened_of_files (LocalFs.unlink_files ..))
  have hsound' : (w.unlinked env path replies).Sound env := by
    refine hsound.frame rfl rfl rfl ?_
    rw [LocalFs.Keeps, World.unlinked, LocalFs.unlink_files]
    exact fun _ _ h => h
  cases houtcome with
  | failed => exact h.frame rfl rfl rfl
  | absent => exact hunlinked
  | destroyed _ _ hquiet => exact (hunlinked.remove hsound' path).quiet hquiet

/-- A visit of the collector keeps the accounts. -/
theorem gcCallback_accounts {replies : GcReplies} (h : w.Accounts start) (hsound : w.Sound env)
    (hgc : gcCallback env w path replies = .done w') : w'.Accounts start := by
  cases gcCallback_outcome hgc with
  | untouched => exact h
  | kept _ hheap _ _ => exact h.put hheap (.same (by rfl) rfl)
  | collected _ _ _ _ _ =>
    have hsound' : ({ w with fs := w.fs.unlink (cacheName env.conf path) replies.unlinkCache } : World).Sound env := by
      refine hsound.frame rfl rfl rfl ?_
      rw [LocalFs.Keeps, LocalFs.unlink_files]
      exact fun _ _ h => h
    have haccounts :
        ({ w with fs := w.fs.unlink (cacheName env.conf path) replies.unlinkCache } : World).Accounts start :=
      h.frame rfl rfl (LocalFs.opened_of_files (LocalFs.unlink_files ..))
    exact haccounts.remove hsound' path

/-- A write keeps the accounts. -/
theorem dfsWrite_accounts {addr : ℕ} {data : Bytes} {offset : ℕ} {replies : WriteReplies} {ret : ℤ}
    (h : w.Accounts start) (hwrite : dfsWrite w addr data offset replies = .done (ret, w')) : w'.Accounts start := by
  unfold dfsWrite at hwrite
  split at hwrite
  · cases hwrite
  · split at hwrite
    · simp only [Exec.done.injEq, Prod.mk.injEq] at hwrite
      exact hwrite.2 ▸ h
    · split at hwrite
      · simp only [Exec.done.injEq, Prod.mk.injEq] at hwrite
        exact hwrite.2 ▸ h
      · rename_i hpwrite
        simp only [Exec.done.injEq, Prod.mk.injEq] at hwrite
        obtain ⟨-, rfl⟩ := hwrite
        refine h.frame rfl rfl ?_
        unfold LocalFs.pwrite at hpwrite
        split at hpwrite
        · split at hpwrite
          · simp only [Option.some.injEq, Prod.mk.injEq] at hpwrite
            obtain ⟨-, rfl⟩ := hpwrite
            rfl
          · cases hpwrite
        · cases hpwrite

/-- A rename keeps the accounts: all it does to descriptors is unlinking. -/
theorem dfsRename_accounts {depth : ℕ} {s s' : Renaming} {old new : CStr} {replies : RenameReplies} {ret : ℤ}
    (h : s.world.Accounts start) (hsound : s.world.Sound env)
    (hrename : dfsRename env depth s old new replies = .done (ret, s')) : s'.world.Accounts start := by
  have hpreserves : RenamePreserves env replies fun w => w.Sound env ∧ w.Accounts start :=
    { log := fun _ _ hw => ⟨hw.1.frame rfl rfl rfl (fun _ _ h => h), hw.2.frame rfl rfl rfl⟩
      cwd := fun _ _ hw => ⟨hw.1.frame rfl rfl rfl (fun _ _ h => h), hw.2.frame rfl rfl rfl⟩
      fcopy := fun _ _ _ hw => ⟨hw.1.frame rfl rfl rfl (fun _ _ h => h), hw.2.frame rfl rfl rfl⟩
      dirent := fun w dir path junk hw =>
        ⟨hw.1.quiet (w.removeDirentOf_quiet dir path junk), hw.2.quiet (w.removeDirentOf_quiet dir path junk)⟩
      unlink := fun _ _ hw => ⟨dfsUnlink_sound hw.1, dfsUnlink_accounts hw.2 hw.1⟩
      mkdir := fun _ _ hw => ⟨hw.1.frame rfl rfl rfl (fun _ _ h => h), hw.2.frame rfl rfl rfl⟩
      rmdir := fun w path hw => ⟨hw.1.quiet (dfsRmdir_quiet env w path (replies.rmdir path)).1,
        hw.2.quiet (dfsRmdir_quiet env w path (replies.rmdir path)).1⟩ }
  exact (dfsRename_preserves hpreserves ⟨hsound, h⟩ hrename).2

end Requests

/-- Every request that neither replaces a descriptor nor leaves one behind keeps the accounts. -/
theorem Session.step_accounts {env : Env} {start : Set ℕ} {s s' : Session} {op : Op} (h : s.world.Accounts start)
    (hsound : s.world.Sound env) (hkeeps : KeepsAccount env s op) (hstep : s.step env op = .done s') :
    s'.world.Accounts start := by
  cases op with
  | getattr path replies =>
    obtain ⟨looked, hcall, hdone⟩ := Exec.bind_eq_done.mp hstep
    obtain rfl := Exec.done.inj hdone
    obtain ⟨-, w₁, hgrown, hquiet⟩ := dfsGetattr_grown hcall
    exact (h.grown hsound hgrown).quiet hquiet
  | opendir path replies =>
    obtain rfl := Exec.done.inj hstep
    exact h.grown hsound (dfsOpendir_grown env s.world path replies)
  | mkdir path replies =>
    obtain rfl := Exec.done.inj hstep
    exact h.frame rfl rfl rfl
  | mknod path replies =>
    obtain rfl := Exec.done.inj hstep
    exact h.frame rfl rfl rfl
  | create path mode flags replies =>
    obtain ⟨created, hcall, hdone⟩ := Exec.bind_eq_done.mp hstep
    obtain rfl := Exec.done.inj hdone
    exact dfsCreate_accounts h hsound hkeeps hcall
  | «open» path flags replies =>
    obtain ⟨opened, hcall, hdone⟩ := Exec.bind_eq_done.mp hstep
    obtain rfl := Exec.done.inj hdone
    exact dfsOpen_accounts h hsound hkeeps hcall
  | read i size offset replies =>
    simp only [Session.step] at hstep
    split at hstep
    · obtain rfl := Exec.done.inj hstep
      exact h
    · obtain ⟨_, -, hdone⟩ := Exec.bind_eq_done.mp hstep
      obtain rfl := Exec.done.inj hdone
      exact h
  | write i data offset replies =>
    simp only [Session.step] at hstep
    split at hstep
    · obtain rfl := Exec.done.inj hstep
      exact h
    · split at hstep
      · obtain rfl := Exec.done.inj hstep
        exact h
      · obtain ⟨⟨ret, w⟩, hcall, hdone⟩ := Exec.bind_eq_done.mp hstep
        obtain rfl := Exec.done.inj hdone
        exact dfsWrite_accounts h hcall
  | release i replies =>
    simp only [Session.step] at hstep
    split at hstep
    · obtain rfl := Exec.done.inj hstep
      exact h
    · obtain ⟨released, hcall, hdone⟩ := Exec.bind_eq_done.mp hstep
      obtain rfl := Exec.done.inj hdone
      exact dfsRelease_accounts h hcall
  | unlink path replies =>
    obtain rfl := Exec.done.inj hstep
    exact dfsUnlink_accounts h hsound
  | rmdir path replies =>
    obtain rfl := Exec.done.inj hstep
    exact h.quiet (dfsRmdir_quiet env s.world path replies).1
  | rename depth ring old new replies =>
    obtain ⟨⟨ret, renamed⟩, hcall, hdone⟩ := Exec.bind_eq_done.mp hstep
    obtain rfl := Exec.done.inj hdone
    exact dfsRename_accounts (s := ⟨s.world, ring⟩) h hsound hcall
  | gc path replies =>
    obtain ⟨w, hcall, hdone⟩ := Exec.bind_eq_done.mp hstep
    obtain rfl := Exec.done.inj hdone
    exact gcCallback_accounts h hsound hcall

/-- The program as it starts, with these descriptors open. -/
def Session.StartsWith (start : Set ℕ) (s : Session) : Prop := s.Initial ∧ s.world.fs.opened = start

/-- In every run whose requests neither replace a descriptor nor leave one behind, the descriptors opened
since the start are those of the entries of the table, each of one entry only. -/
theorem reached_accounted (env : Env) (start : Set ℕ) (s : Session)
    (h : GuardedRuns.Reaches (Session.step env) (KeepsAccount env) (Session.StartsWith start) s) :
    s.world.Accounted start := by
  have hsound : ∀ {s}, GuardedRuns.Reaches (Session.step env) (KeepsAccount env) (Session.StartsWith start) s →
      s.world.Sound env := fun hreached => Session.Reached.sound (hreached.mono_init fun _ hstart => hstart.1)
  have haccounts : s.world.Accounts start := by
    refine GuardedRuns.Reaches.invariant (fun s => s.world.Accounts start) ?_ ?_ h
    · rintro s ⟨hinit, hopened⟩
      have hheap : ∀ {addr pe}, s.world.heap addr ≠ some pe := fun h => by simp [hinit.heap] at h
      refine ⟨fun _ _ h => absurd h hheap, hopened.ge, fun _ _ _ h => absurd h hheap, ?_⟩
      rintro fd ⟨hopen, hnew⟩
      exact absurd (hopened ▸ hopen) hnew
    · intro s op s' hreached hs hguard hstep
      exact Session.step_accounts hs (hsound hreached) hguard hstep
  exact haccounts.accounted (hsound h)

/-- Opening a file for reading. -/
theorem reached_accounted_open :
    ∃ s : Session, s.handles.length = 1 ∧ s.world.Accounted LocalFs.empty.opened := by
  have hopen : ∃ s : Session, s.handles.length = 1 ∧ GuardedRuns.Reaches (Session.step Env.plain)
      (KeepsAccount Env.plain) (Session.StartsWith LocalFs.empty.opened) s := by
    refine ⟨_, ?_, GuardedRuns.Reaches.step (s := .start .empty (.file "/f".toList [65]))
      (i := .open "/f".toList oRdonly (.granted 3)) (.start ⟨Session.start_initial .., rfl⟩) ⟨?_, ?_⟩ rfl⟩
    · rfl
    · rintro ⟨hcreat, -⟩
      exact absurd hcreat (by decide)
    · rintro - - - - obj download hlookup -
      obtain rfl := Option.some.inj hlookup
      trivial
  obtain ⟨s, hlength, hreached⟩ := hopen
  exact ⟨s, hlength, reached_accounted Env.plain LocalFs.empty.opened s hreached⟩

/-- The requests that open and close cache files. -/
def Op.movesDescriptors : Op → Bool
  | .create .. | .open .. | .release .. | .unlink .. | .gc .. => true
  | _ => false

/-- Opening a file for writing a second time, after it was released, leaves its first descriptor open. -/
theorem reopened_leaks :
    ∃ s : Session, GuardedRuns.Reaches (Session.step Env.plain) (fun _ op => op.movesDescriptors = true)
      (Session.StartsWith LocalFs.empty.opened) s ∧ ¬ s.world.Accounted LocalFs.empty.opened := by
  have hreopened : ∃ s : Session, GuardedRuns.Reaches (Session.step Env.plain)
      (fun _ op => op.movesDescriptors = true) (Session.StartsWith LocalFs.empty.opened) s ∧
      3 ∈ s.world.fs.opened ∧ ∀ path pe, s.world.entry path = some pe → pe.fd = 4 := by
    refine ⟨_, GuardedRuns.Reaches.step (i := .open "/f".toList oWronly (.granted 4))
      (GuardedRuns.Reaches.step (i := .release 0 (.granted 4))
        (GuardedRuns.Reaches.step (s := .start .empty ∅) (i := .open "/f".toList oWronly (.granted 3))
          (.start ⟨Session.start_initial .., rfl⟩) rfl rfl) rfl rfl) rfl rfl, ?_, ?_⟩
    · exact LocalFs.mem_opened.mpr rfl
    · intro path pe hentry
      by_cases hpath : path = "/f".toList
      · subst hpath
        obtain rfl := Option.some.inj hentry
        rfl
      · obtain ⟨addr, htable, -⟩ := Option.bind_eq_some_iff.mp hentry
        -- the table holds the one path only
        have hnone : (none : Option ℕ) = some addr :=
          (@Function.update_of_ne CStr (fun _ => Option ℕ) _ path "/f".toList hpath (some 0) fun _ => none).symm.trans
            htable
        cases hnone
  obtain ⟨s, hreached, hopen, hentries⟩ := hreopened
  refine ⟨s, hreached, fun haccounted => ?_⟩
  obtain ⟨path, pe, hentry, hfd⟩ := (haccounted.stored 3).mp ⟨hopen, Bool.false_ne_true⟩
  have hfour := hentries path pe hentry
  omega

end Dropletfs
