import Dropletfs.EntryFrame
import Dropletfs.Session
import Mathlib.Data.List.Perm.Basic

/-!
# Handles and the entries they point to

A handle keeps the address of an entry. The collector spares entries whose reference count
is not zero, and counts never fall below the number of open handles as long as the
semaphore calls succeed. `dfs_unlink`, and `dfs_rename` through it, destroy the entry
without a look at the count.
-/

namespace Dropletfs

/-- The number of open handles on an address. -/
def Session.holders (s : Session) (addr : ℕ) : ℕ := s.handles.countP fun handle => handle.addr = addr

/-- The entry of every open handle has not been destroyed. -/
def Session.Live (s : Session) : Prop := ∀ handle ∈ s.handles, (s.world.heap handle.addr).isSome = true

/-- A handle is open on the entry the table has for a path. -/
def Session.OpenOn (s : Session) (path : CStr) : Prop :=
  ∃ handle ∈ s.handles, s.world.table path = some handle.addr

/-- A request does not remove a path that is open, the semaphore can be posted, and the mutex locked
when `dfs_create` opens a path that has a cache file. -/
def SparesOpen (env : Env) (s : Session) : Op → Prop
  | .unlink path replies =>
    (dfsUnlinkTimeout env.conf.maxRetry replies.unlink path s.world.remote).1 = .success → ¬ s.OpenOn path
  | .rename _ _ _ _ replies => ∀ path, s.OpenOn path → ∀ i, ((replies.unlink path).unlink i).status ≠ .success
  | .open _ _ replies => replies.semPost = true
  | .create path _ _ replies => replies.opening.semPost = true ∧
    (replies.opening.lock = true ∨ ∀ pe, s.world.entry path = some pe → pe.fd = -1)
  | _ => True

/-- There are entries at the addresses that need one, each with at least the count it needs, and none
where the next one will be. -/
structure World.Supports (need : ℕ → ℕ) (w : World) : Prop where
  entry : ∀ addr, 0 < need addr → ∃ pe, w.heap addr = some pe ∧ need addr ≤ pe.refcount
  fresh : ∀ addr, w.nextAddr ≤ addr → w.heap addr = none

/-- One more handle on an address. -/
def oneMore (need : ℕ → ℕ) (addr : ℕ) : ℕ → ℕ := Function.update need addr (need addr + 1)

namespace World.Supports

variable {need : ℕ → ℕ} {w w' : World}

/-- A quiet change keeps the counts. -/
theorem quiet (h : w.Supports need) (hquiet : w.Quiet w') : w'.Supports need where
  entry := by
    intro addr hneed
    obtain ⟨pe, hheap, hle⟩ := h.entry addr hneed
    obtain ⟨pe', hheap', hcore⟩ := hquiet.heap_before hheap
    have hrefcount : pe'.refcount = pe.refcount := congrArg Core.refcount hcore
    exact ⟨pe', hheap', by omega⟩
  fresh := by
    intro addr hle
    rw [hquiet.nextAddr] at hle
    exact hquiet.heap_none (h.fresh addr hle)

/-- A new entry gets an address that nobody needs yet. -/
theorem grown {path : CStr} (h : w.Supports need) (hgrown : w.Grown path w') : w'.Supports need := by
  cases hgrown with
  | same => exact h
  | more hnone hfresh =>
    constructor
    · intro addr hneed
      obtain ⟨pe, hheap, hle⟩ := h.entry addr hneed
      have hne : addr ≠ w.nextAddr := by
        rintro rfl
        rw [h.fresh _ (Nat.le_refl _)] at hheap
        cases hheap
      exact ⟨pe, by simpa only [insert, Function.update_of_ne hne] using hheap, hle⟩
    · intro addr hle
      simp only [insert] at hle ⊢
      rw [Function.update_of_ne (by omega)]
      exact h.fresh addr (by omega)

/-- Storing an entry with a count high enough for what is then needed of it. -/
theorem put {need' : ℕ → ℕ} {addr : ℕ} {pe pe' : Pentry} (h : w.Supports need) (hheap : w.heap addr = some pe)
    (hsame : ∀ other, other ≠ addr → need' other = need other) (hle : need' addr ≤ pe'.refcount) :
    (w.put addr pe').Supports need' where
  entry := by
    intro other hneed
    by_cases hother : other = addr
    · subst hother
      exact ⟨pe', put_heap_self .., hle⟩
    · rw [hsame other hother] at hneed ⊢
      rw [put_heap_ne _ _ hother]
      exact h.entry other hneed
  fresh := by
    intro other hother
    have hne : other ≠ addr := by
      rintro rfl
      rw [h.fresh _ hother] at hheap
      cases hheap
    rw [put_heap_ne _ _ hne]
    exact h.fresh other hother

/-- The count of an entry is at least what is needed of it. -/
theorem le_refcount {addr : ℕ} {pe : Pentry} (h : w.Supports need) (hheap : w.heap addr = some pe) :
    need addr ≤ pe.refcount := by
  by_cases hzero : need addr = 0
  · omega
  · obtain ⟨pe₁, hheap₁, hle⟩ := h.entry addr (by omega)
    obtain rfl := Option.some.inj (hheap.symm.trans hheap₁)
    exact hle

/-- Removing a path whose entry nobody needs. -/
theorem remove {path : CStr} (h : w.Supports need)
    (hpath : ∀ addr, w.table path = some addr → need addr = 0) : (w.remove path).Supports need := by
  unfold World.remove
  split
  · exact h
  · rename_i addr htable
    have hzero := hpath addr htable
    unfold free
    split
    · exact ⟨h.entry, h.fresh⟩
    · constructor
      · intro other hneed
        have hne : other ≠ addr := by
          rintro rfl
          omega
        simp only [Function.update_of_ne hne]
        exact h.entry other hneed
      · intro other hother
        by_cases hne : other = addr
        · subst hne
          exact Function.update_self ..
        · simp only [Function.update_of_ne hne]
          exact h.fresh other hother

end World.Supports

/-- An open that counts supports its handle as well, unless it could not lock the entry. -/
theorem dfsOpen_supports {need : ℕ → ℕ} {env : Env} {w : World} {path : CStr} {flags : BitVec 32}
    {replies : OpenReplies} {opened : Opened} (h : w.Supports need) (hpost : replies.semPost = true)
    (hopen : dfsOpen env w path flags replies = .done opened) :
    opened.world.Supports need ∧ ∀ addr, opened.fh = some addr →
      (opened.ret = 0 ∨ getModeFromFlags flags = .rdonly ∨ replies.lock = true) →
        opened.world.Supports (oneMore need addr) := by
  -- the entry as it is after a call that took the reference, and maybe more
  have hheld : ∀ {addr : ℕ} {w₁ : World} {pe pe' : Pentry} {fs : LocalFs} {ret : ℤ} (mark : Pentry → Pentry),
      Found w path replies addr w₁ pe →
      openByMode env w₁.fs w₁.remote (pe.held replies.semPost (getModeFromFlags flags)) path
        (getModeFromFlags flags) replies = .done (ret, fs, pe') → (mark pe').refcount = pe'.refcount →
      ({ w₁ with fs := fs }.put addr (mark pe')).Supports need ∧
        ({ w₁ with fs := fs }.put addr (mark pe')).Supports (oneMore need addr) := by
    intro addr w₁ pe pe' fs ret mark hfound hmode hmark
    obtain ⟨fd, flag, metadata, digest, hentry⟩ := openByMode_entry hmode
    have hcount : (mark pe').refcount = pe.refcount + 1 := by
      rw [hmark, hentry]
      exact (Pentry.held_refcount ..).trans (by rw [if_pos hpost])
    have hbefore := h.grown (findOrPopulate_grown hfound.lookup)
    have hle := hbefore.le_refcount hfound.heap
    have hstored : World.Supports need { w₁ with fs := fs } := ⟨hbefore.entry, hbefore.fresh⟩
    constructor
    · exact hstored.put hfound.heap (fun _ _ => rfl) (by omega)
    · refine hstored.put hfound.heap (fun other hother => Function.update_of_ne hother ..) ?_
      simp only [oneMore, Function.update_self]
      omega
  cases dfsOpen_outcome hopen with
  | noEntry => exact ⟨h, fun _ hfh => by cases hfh⟩
  | lockFailed hfound hne hlock hwait =>
    have hbefore := h.grown (findOrPopulate_grown hfound.lookup)
    have hle := hbefore.le_refcount hfound.heap
    obtain ⟨rfl, -⟩ := Pentry.decRefcount_eq hwait
    refine ⟨hbefore.put hfound.heap (fun _ _ => rfl) ?_, ?_⟩
    · simp only [Pentry.incRefcount, hpost, if_true]
      split <;> omega
    · rintro addr - (hret | hrdonly | hlocked)
      · simp at hret
      · exact absurd hrdonly hne
      · rw [hlock] at hlocked
        cases hlocked
  | failed hfound _ hmode =>
    obtain ⟨hsame, hmore⟩ := hheld id hfound hmode rfl
    exact ⟨hsame, fun addr hfh _ => Option.some.inj hfh ▸ hmore⟩
  | succeeded hfound _ hmode _ =>
    obtain ⟨hsame, hmore⟩ := hheld (fun pe => { pe with ondisk := .localFile }) hfound hmode rfl
    exact ⟨hsame, fun addr hfh _ => Option.some.inj hfh ▸ hmore⟩

/-- An open that cannot lock an entry without a cache file leaves it without one. -/
theorem dfsOpen_unlocked_fd {env : Env} {w : World} {path : CStr} {flags : BitVec 32} {replies : OpenReplies}
    {opened : Opened} {addr : ℕ} {pe : Pentry} (hopen : dfsOpen env w path flags replies = .done opened)
    (hmode : getModeFromFlags flags ≠ .rdonly) (hlock : replies.lock = false)
    (hfd : ∀ pe, w.entry path = some pe → pe.fd = -1) (hfh : opened.fh = some addr)
    (hheap : opened.world.heap addr = some pe) : pe.fd = -1 := by
  cases dfsOpen_outcome hopen with
  | noEntry => cases hfh
  | @lockFailed addr' w' pe₀ pe' hfound _ _ hwait =>
    obtain rfl : addr' = addr := Option.some.inj hfh
    rw [World.put_heap_self] at hheap
    obtain rfl := Option.some.inj hheap
    obtain ⟨rfl, -⟩ := Pentry.decRefcount_eq hwait
    have hinc : (pe₀.incRefcount replies.semPost).fd = pe₀.fd := by
      unfold Pentry.incRefcount
      split <;> rfl
    simp only [hinc]
    rcases findOrPopulate_cases hfound.lookup with ⟨htable, rfl⟩ | ⟨-, rfl, rfl⟩
    · exact hfd pe₀ (by simp [World.entry, htable, hfound.heap])
    · have hnew := hfound.heap
      simp only [World.insert, Function.update_self, Option.some.injEq] at hnew
      rw [← hnew]
      rfl
  | failed _ hheld => simp [hlock] at hheld; exact absurd hheld hmode
  | succeeded _ hheld => simp [hlock] at hheld; exact absurd hheld hmode

/-- A create that counts supports its handle as well when it succeeds. -/
theorem dfsCreate_supports {need : ℕ → ℕ} {env : Env} {w : World} {path : CStr} {mode flags : BitVec 32}
    {replies : CreateReplies} {created : Opened} (h : w.Supports need)
    (hpost : replies.opening.semPost = true)
    (hlock : replies.opening.lock = true ∨ ∀ pe, w.entry path = some pe → pe.fd = -1)
    (hcreate : dfsCreate env w path mode flags replies = .done created) :
    created.world.Supports need ∧ ∀ addr, created.fh = some addr → created.ret = 0 →
      created.world.Supports (oneMore need addr) := by
  cases dfsCreate_outcome hcreate with
  | refused => exact ⟨h, fun _ hfh => by cases hfh⟩
  | noEntry _ hopen => exact ⟨(dfsOpen_supports h hpost hopen).1, fun _ hfh => by cases hfh⟩
  | @entry opened _ addr pe _ hopen hfh hheap hentry =>
    obtain ⟨hsame, hmore⟩ := dfsOpen_supports h hpost hopen
    obtain ⟨hfh', fs, remote, trace, metadata, -, -, hworld⟩ := createEntry_frame hentry
    have hput : ∀ need, opened.world.Supports need → created.world.Supports need := by
      intro need hneed
      rw [hworld]
      have hstored : World.Supports need { opened.world with fs := fs, remote := remote, trace := trace } :=
        ⟨hneed.entry, hneed.fresh⟩
      have hle := hneed.le_refcount hheap
      exact hstored.put hheap (fun _ _ => rfl) hle
    refine ⟨hput _ hsame, ?_⟩
    intro addr' haddr hret
    obtain rfl : addr = addr' := Option.some.inj (hfh'.symm.trans haddr)
    by_cases hheld : getModeFromFlags flags = .rdonly ∨ replies.opening.lock = true
    · exact hput _ (hmore addr hfh (.inr hheld))
    · -- without the lock there is no cache file to go on with
      simp only [not_or, Bool.not_eq_true] at hheld
      have hfd := hlock.resolve_left (by simp [hheld.2])
      have hnone := dfsOpen_unlocked_fd hopen hheld.1 hheld.2 hfd hfh hheap
      simp only [createEntry, hnone, if_true, Exec.done.injEq] at hentry
      rw [← hentry] at hret
      simp at hret

/-- A release supports the other handles. -/
theorem dfsRelease_supports {need need' : ℕ → ℕ} {env : Env} {w : World} {addr : ℕ} {path : CStr}
    {flags : BitVec 32} {replies : ReleaseReplies} {released : Released} (h : w.Supports need)
    (hsame : ∀ other, other ≠ addr → need' other = need other) (hless : need addr = need' addr + 1)
    (hrelease : dfsRelease env w addr path flags replies = .done released) :
    released.world.Supports need' := by
  have hput : ∀ {w' : World} {pe pe' : Pentry}, w.heap addr = some pe → w'.heap = w.heap →
      w'.nextAddr = w.nextAddr → pe.refcount ≤ pe'.refcount + 1 → (w'.put addr pe').Supports need' := by
    intro w' pe pe' hheap hheap' hnext hle
    have hneed := h.le_refcount hheap
    have hstored : w'.Supports need :=
      ⟨fun other hother => by rw [hheap']; exact h.entry other hother,
        fun other hother => by rw [hheap']; exact h.fresh other (by omega)⟩
    exact hstored.put (by rw [hheap']; exact hheap) hsame (by omega)
  cases dfsRelease_outcome hrelease with
  | unusable hheap => exact hput hheap rfl rfl (Nat.le_succ _)
  | readOnly hheap _ hwait =>
    obtain ⟨rfl, -⟩ := Pentry.decRefcount_eq hwait
    exact hput hheap rfl rfl (by simp only; split <;> omega)
  | excluded hheap _ hwait =>
    obtain ⟨rfl, -⟩ := Pentry.decRefcount_eq hwait
    exact hput hheap rfl rfl (by simp only [Pentry.markClean]; split <;> omega)
  | uploaded hheap _ hwait _ _ hupload =>
    obtain ⟨rfl, -⟩ := Pentry.decRefcount_eq hwait
    obtain ⟨fs, remote, trace, rfl⟩ := upload_frame hupload
    exact hput hheap rfl rfl (by simp only [Pentry.markClean]; split <;> omega)

/-- Unlinking a path whose entry nobody needs. -/
theorem dfsUnlink_supports {need : ℕ → ℕ} {env : Env} {w : World} {path : CStr} {replies : UnlinkReplies}
    (h : w.Supports need)
    (hpath : (dfsUnlinkTimeout env.conf.maxRetry replies.unlink path w.remote).1 = .success →
      ∀ addr, w.table path = some addr → need addr = 0) :
    (dfsUnlink env w path replies).2.Supports need := by
  have houtcome := dfsUnlink_outcome env w path replies
  generalize dfsUnlink env w path replies = result at houtcome
  cases houtcome with
  | failed => exact ⟨h.entry, h.fresh⟩
  | absent => exact ⟨h.entry, h.fresh⟩
  | destroyed hstatus htable hquiet =>
    have hstored : (w.unlinked env path replies).Supports need := ⟨h.entry, h.fresh⟩
    exact (hstored.remove (hpath hstatus)).quiet hquiet

/-- The collector only removes entries whose count is zero. -/
theorem gcCallback_supports {need : ℕ → ℕ} {env : Env} {w w' : World} {path : CStr} {replies : GcReplies}
    (h : w.Supports need) (hgc : gcCallback env w path replies = .done w') : w'.Supports need := by
  cases gcCallback_outcome hgc with
  | untouched => exact h
  | kept _ hheap =>
    have hle := h.le_refcount hheap
    exact h.put hheap (fun _ _ => rfl) hle
  | collected htable hheap hzero =>
    have hstored : World.Supports need { w with
        fs := w.fs.unlink (cacheName env.conf path) replies.unlinkCache } := ⟨h.entry, h.fresh⟩
    refine hstored.remove ?_
    intro addr haddr
    obtain rfl := Option.some.inj (htable.symm.trans haddr)
    have hle := h.le_refcount hheap
    omega

/-- A rename that unlinks no path whose entry is needed. -/
theorem dfsRename_supports {need : ℕ → ℕ} {env : Env} {depth : ℕ} {s s' : Renaming} {old new : CStr}
    {replies : RenameReplies} {ret : ℤ} (h : s.world.Supports need)
    (hpath : ∀ path addr, s.world.table path = some addr → 0 < need addr →
      ∀ i, ((replies.unlink path).unlink i).status ≠ .success)
    (hrename : dfsRename env depth s old new replies = .done (ret, s')) : s'.world.Supports need := by
  -- along the way the table only loses paths, so what is needed then was needed at the start
  have hpreserves : RenamePreserves env replies fun w => w.Supports need ∧
      ∀ path addr, w.table path = some addr → s.world.table path = some addr := by
    constructor
    · rintro w event ⟨hw, htable⟩
      exact ⟨⟨hw.entry, hw.fresh⟩, htable⟩
    · rintro w dir ⟨hw, htable⟩
      exact ⟨⟨hw.entry, hw.fresh⟩, htable⟩
    · rintro w old new ⟨hw, htable⟩
      exact ⟨⟨hw.entry, hw.fresh⟩, htable⟩
    · rintro w dir path junk ⟨hw, htable⟩
      have hquiet := w.removeDirentOf_quiet dir path junk
      exact ⟨hw.quiet hquiet, by rw [hquiet.table]; exact htable⟩
    · rintro w path ⟨hw, htable⟩
      constructor
      · refine dfsUnlink_supports hw ?_
        intro hstatus addr haddr
        by_contra hneed
        have hfails := hpath path addr (htable path addr haddr) (Nat.pos_of_ne_zero hneed)
        obtain ⟨i, r, -, heq⟩ := Attempts.run_eq_last Status.retriable
          (fun i => dplUnlink ((replies.unlink path).unlink i) path) (fun _ => True) (fun _ _ _ _ => trivial)
          env.conf.maxRetry.toNat 0 w.remote trivial
        rw [dfsUnlinkTimeout, writeTimeout, heq] at hstatus
        exact hfails i ((Status.onExisting_eq_success _ _).mp hstatus).1
      · intro other addr haddr
        apply htable
        have houtcome := dfsUnlink_outcome env w path (replies.unlink path)
        generalize dfsUnlink env w path (replies.unlink path) = result at houtcome haddr
        cases houtcome with
        | failed => exact haddr
        | absent => exact haddr
        | destroyed _ htable' hquiet =>
          rw [hquiet.table] at haddr
          exact World.remove_table (w := w.unlinked env path (replies.unlink path)) haddr
    · rintro w path ⟨hw, htable⟩
      exact ⟨⟨hw.entry, hw.fresh⟩, htable⟩
    · rintro w path ⟨hw, htable⟩
      have hquiet := (dfsRmdir_quiet env w path (replies.rmdir path)).1
      exact ⟨hw.quiet hquiet, by rw [hquiet.table]; exact htable⟩
  exact (dfsRename_preserves hpreserves ⟨h, fun _ _ haddr => haddr⟩ hrename).1

/-- Opening a path adds one handle to its address when it succeeds. -/
theorem Session.holders_opened (s : Session) (path : CStr) (flags : BitVec 32) (opened : Opened) :
    (s.opened path flags opened).holders = s.holders ∧ (opened.ret ≠ 0 ∨ opened.fh = none) ∨
      ∃ addr, opened.ret = 0 ∧ opened.fh = some addr ∧
        (s.opened path flags opened).holders = oneMore s.holders addr := by
  by_cases hret : opened.ret = 0
  · cases hfh : opened.fh with
    | none => exact .inl ⟨by funext; simp [Session.holders, Session.opened, hfh], .inr rfl⟩
    | some addr =>
      refine .inr ⟨addr, hret, rfl, ?_⟩
      funext other
      simp only [Session.holders, Session.opened, hret, if_true, hfh, Option.map_some, Option.toList_some,
        List.cons_append, List.nil_append, List.countP_cons, oneMore, Function.update_apply]
      by_cases hother : other = addr
      · simp [hother]
      · simp [hother, Ne.symm hother]
  · exact .inl ⟨by funext; simp [Session.holders, Session.opened, hret], .inl hret⟩

/-- Releasing a handle takes one from its address. -/
theorem Session.holders_eraseIdx (s : Session) (w : World) {i : ℕ} {handle : Handle}
    (h : s.handles[i]? = some handle) :
    (∀ other, other ≠ handle.addr → Session.holders ⟨w, s.handles.eraseIdx i⟩ other = s.holders other) ∧
      s.holders handle.addr = Session.holders ⟨w, s.handles.eraseIdx i⟩ handle.addr + 1 := by
  obtain ⟨hlt, hget⟩ := List.getElem?_eq_some_iff.mp h
  have hperm := List.getElem_cons_eraseIdx_perm hlt
  rw [hget] at hperm
  have hcount : ∀ other, s.holders other =
      (if handle.addr = other then 1 else 0) + Session.holders ⟨w, s.handles.eraseIdx i⟩ other := by
    intro other
    rw [Session.holders, ← hperm.countP_eq, List.countP_cons, Nat.add_comm]
    simp [Session.holders]
  constructor
  · intro other hother
    rw [hcount other, if_neg (Ne.symm hother), Nat.zero_add]
  · rw [hcount handle.addr, if_pos rfl, Nat.add_comm]

/-- One request that spares the open paths keeps every open handle counted. -/
theorem Session.step_supports {env : Env} {s s' : Session} {op : Op} (h : s.world.Supports s.holders)
    (hguard : SparesOpen env s op) (hstep : s.step env op = .done s') : s'.world.Supports s'.holders := by
  have hopened : ∀ path flags opened, opened.world.Supports s.holders →
      (∀ addr, opened.fh = some addr → opened.ret = 0 → opened.world.Supports (oneMore s.holders addr)) →
      (s.opened path flags opened).world.Supports (s.opened path flags opened).holders := by
    intro path flags opened hsame hmore
    rcases s.holders_opened path flags opened with ⟨heq, -⟩ | ⟨addr, hret, hfh, heq⟩
    · rw [heq]
      exact hsame
    · rw [heq]
      exact hmore addr hfh hret
  cases op with
  | getattr path replies =>
    obtain ⟨looked, hcall, hdone⟩ := Exec.bind_eq_done.mp hstep
    obtain rfl := Exec.done.inj hdone
    obtain ⟨-, w₁, hgrown, hquiet⟩ := dfsGetattr_grown hcall
    exact (h.grown hgrown).quiet hquiet
  | opendir path replies =>
    obtain rfl := Exec.done.inj hstep
    exact h.grown (dfsOpendir_grown env s.world path replies)
  | mkdir path replies =>
    obtain rfl := Exec.done.inj hstep
    exact ⟨h.entry, h.fresh⟩
  | mknod path replies =>
    obtain rfl := Exec.done.inj hstep
    exact ⟨h.entry, h.fresh⟩
  | create path mode flags replies =>
    obtain ⟨created, hcall, hdone⟩ := Exec.bind_eq_done.mp hstep
    obtain rfl := Exec.done.inj hdone
    obtain ⟨hsame, hmore⟩ := dfsCreate_supports h hguard.1 hguard.2 hcall
    exact hopened path flags created hsame hmore
  | «open» path flags replies =>
    obtain ⟨opened, hcall, hdone⟩ := Exec.bind_eq_done.mp hstep
    obtain rfl := Exec.done.inj hdone
    obtain ⟨hsame, hmore⟩ := dfsOpen_supports h hguard hcall
    exact hopened path flags opened hsame fun addr hfh hret => hmore addr hfh (.inl hret)
  | read i size offset replies =>
    simp only [Session.step] at hstep
    split at hstep
    · obtain rfl := Exec.done.inj hstep
      exact h
    · obtain ⟨_, -, hdone⟩ := Exec.bind_eq_done.mp hstep
      obtain rfl := Exec.done.inj hdone
      exact h
  | write i data offset replies =>
    simp only [Session.step] at hstep
    split at hstep
    · obtain rfl := Exec.done.inj hstep
      exact h
    · split at hstep
      · obtain rfl := Exec.done.inj hstep
        exact h
      · obtain ⟨⟨ret, w⟩, hcall, hdone⟩ := Exec.bind_eq_done.mp hstep
        obtain rfl := Exec.done.inj hdone
        obtain ⟨fs, rfl⟩ := dfsWrite_frame hcall
        exact ⟨h.entry, h.fresh⟩
  | release i replies =>
    simp only [Session.step] at hstep
    split at hstep
    · obtain rfl := Exec.done.inj hstep
      exact h
    · rename_i handle hget
      obtain ⟨released, hcall, hdone⟩ := Exec.bind_eq_done.mp hstep
      obtain rfl := Exec.done.inj hdone
      obtain ⟨hother, hless⟩ := s.holders_eraseIdx released.world hget
      exact dfsRelease_supports h hother hless hcall
  | unlink path replies =>
    obtain rfl := Exec.done.inj hstep
    refine dfsUnlink_supports h ?_
    intro hstatus addr haddr
    by_contra hneed
    obtain ⟨handle, hmem, heq⟩ := List.countP_pos_iff.mp (Nat.pos_of_ne_zero hneed)
    exact hguard hstatus ⟨handle, hmem, by rw [haddr, ← of_decide_eq_true heq]⟩
  | rmdir path replies =>
    obtain rfl := Exec.done.inj hstep
    exact h.quiet (dfsRmdir_quiet env s.world path replies).1
  | rename depth ring old new replies =>
    obtain ⟨⟨ret, renamed⟩, hcall, hdone⟩ := Exec.bind_eq_done.mp hstep
    obtain rfl := Exec.done.inj hdone
    refine dfsRename_supports (s := ⟨s.world, ring⟩) h ?_ hcall
    intro path addr haddr hneed
    obtain ⟨handle, hmem, heq⟩ := List.countP_pos_iff.mp hneed
    exact hguard path ⟨handle, hmem, by rw [haddr, ← of_decide_eq_true heq]⟩
  | gc path replies =>
    obtain ⟨w, hcall, hdone⟩ := Exec.bind_eq_done.mp hstep
    obtain rfl := Exec.done.inj hdone
    exact gcCallback_supports h hcall

/-- In a run whose requests spare the open paths, every open handle keeps its entry. -/
theorem reached_live (env : Env) (s : Session) (h : s.Reached env (SparesOpen env)) : s.Live := by
  have hsupports : s.world.Supports s.holders := by
    refine GuardedRuns.Reaches.invariant (fun s => s.world.Supports s.holders) ?_ ?_ h
    · intro s hs
      exact ⟨fun addr hneed => by simp [Session.holders, hs.handles] at hneed, fun addr _ => hs.heap addr⟩
    · intro s op s' _ hs hguard hstep
      exact Session.step_supports hs hguard hstep
  intro handle hmem
  have hpos : 0 < s.holders handle.addr := List.countP_pos_iff.mpr ⟨handle, hmem, by simp⟩
  obtain ⟨pe, hheap, -⟩ := hsupports.entry handle.addr hpos
  simp [hheap]

/-- Opening a file keeps to the guard, and the handle keeps its entry. -/
theorem reached_live_open :
    ∃ s : Session, s.Reached Env.plain (SparesOpen Env.plain) ∧ s.handles.length = 1 ∧ s.Live := by
  have hopen : ∃ s : Session, s.Reached Env.plain (SparesOpen Env.plain) ∧ s.handles.length = 1 := by
    refine ⟨_, GuardedRuns.Reaches.step (s := .start .empty (.file "/f".toList [65]))
      (i := .open "/f".toList oRdonly (.granted 3)) (.start (Session.start_initial ..)) ?_ rfl, rfl⟩
    exact rfl
  obtain ⟨s, hreached, hlength⟩ := hopen
  exact ⟨s, hreached, hlength, reached_live Env.plain s hreached⟩

/-- Renaming a file that is open destroys the entry of its handle. -/
theorem renamed_open_not_live :
    ∃ s : Session, s.Reached Env.plain GuardedRuns.unguarded ∧ ¬ s.Live := by
  refine ⟨_, GuardedRuns.Reaches.step (i := .rename 0 .start "/f".toList "/g".toList .granted)
    (GuardedRuns.Reaches.step (s := .start .empty (.file "/f".toList [65]))
      (i := .open "/f".toList oRdonly (.granted 3)) (.start (Session.start_initial ..)) trivial rfl)
    trivial rfl, ?_⟩
  intro hlive
  exact absurd (hlive ⟨0, "/f".toList, oRdonly⟩ (by exact List.mem_singleton.mpr rfl)) (by decide)

end Dropletfs
