import Dropletfs.Create
import Dropletfs.Release

/-!
# Counting handles and holding the mutex

`dfs_open` counts the handle and, unless the mode is read-only, locks the entry.
`dfs_release` counts down and, unless the access mode is read-only, unlocks. The two decide
from different readings of the flags, and `dfs_release` skips the count when it cannot
examine the file. A `dfs_open` or `dfs_create` that fails late gives nothing back.
-/

namespace Dropletfs

/-- Opening took one reference and `dfs_release` gave it back, and the same for the mutex: the states
are those before the open, between the two, and after the release. -/
structure Paired (before between after : World) (path : CStr) : Prop where
  refcount : after.refcountOf path = before.refcountOf path
  mutex : after.lockedOf path = before.lockedOf path
  once : between.refcountOf path = after.refcountOf path + 1
  unlocks_iff : between.lockedOf path = true ∧ after.lockedOf path = false ↔
    before.lockedOf path = false ∧ between.lockedOf path = true

/-- `dfs_release` can examine the file of the entry. -/
def Examined (w : World) (addr : ℕ) (replies : ReleaseReplies) : Prop :=
  ∃ pe, w.heap addr = some pe ∧ (w.fs.fstat pe.fd replies.fstat).isSome = true

/-- The semaphore calls and the `fstat` succeed, a read-only handle does not append or create, and the
mutex of any other is unlocked without error. -/
structure PairedCalls (between : World) (addr : ℕ) (flags : BitVec 32) (opening : OpenReplies)
    (replies : ReleaseReplies) : Prop where
  semPost : opening.semPost = true
  semWait : replies.semWait = true
  fstat : Examined between addr replies
  readOnly : isRdonly flags = true → hasFlag flags oAppend = false ∧ hasFlag flags oCreat = false
  unlock : isRdonly flags = false → replies.unlock = true

/-- The count of the entry the table has for a path. -/
theorem World.refcountOf_eq {w : World} {path : CStr} {addr : ℕ} {pe : Pentry}
    (htable : w.table path = some addr) (hheap : w.heap addr = some pe) :
    w.refcountOf path = pe.refcount := by
  simp [refcountOf, entry, htable, hheap]

/-- The mutex of the entry the table has for a path. -/
theorem World.lockedOf_eq {w : World} {path : CStr} {addr : ℕ} {pe : Pentry}
    (htable : w.table path = some addr) (hheap : w.heap addr = some pe) :
    w.lockedOf path = pe.locked := by
  simp [lockedOf, entry, htable, hheap]

/-- Storing an entry sets the count and the mutex of its path. -/
theorem World.hold_put (w : World) {path : CStr} {addr : ℕ} (pe : Pentry) (h : w.table path = some addr) :
    (w.put addr pe).refcountOf path = pe.refcount ∧ (w.put addr pe).lockedOf path = pe.locked :=
  ⟨refcountOf_eq (w := w.put addr pe) h (put_heap_self ..), lockedOf_eq (w := w.put addr pe) h (put_heap_self ..)⟩

/-- A successful open and its release are paired exactly when those calls succeed and the two
functions agree on what the flags mean. -/
theorem open_release_paired_iff (env : Env) (w : World) (path : CStr) (flags : BitVec 32)
    (opening : OpenReplies) (replies : ReleaseReplies) (opened : Opened) (addr : ℕ) (released : Released)
    (hopen : dfsOpen env w path flags opening = .done opened) (hret : opened.ret = 0)
    (hfh : opened.fh = some addr)
    (hrelease : dfsRelease env opened.world addr path flags replies = .done released) :
    Paired w opened.world released.world path ↔ PairedCalls opened.world addr flags opening replies := by
  obtain ⟨pe, htable, hheap, hrefcount, hlocked, hfree⟩ := dfsOpen_success hopen hret hfh
  obtain ⟨htable', pe', hheap', hrefcount', hpos, hlocked'⟩ := dfsRelease_entry hheap hrelease
  have hbetween := World.refcountOf_eq htable hheap
  have hbetween' := World.lockedOf_eq htable hheap
  have hafter := World.refcountOf_eq (htable'.symm ▸ htable) hheap'
  have hafter' := World.lockedOf_eq (htable'.symm ▸ htable) hheap'
  have hmode := getModeFromFlags_eq_rdonly flags
  have hexamined : Examined opened.world addr replies ↔
      (opened.world.fs.fstat pe.fd replies.fstat).isSome = true :=
    ⟨fun ⟨pe₁, h₁, hstat⟩ => Option.some.inj (hheap.symm.trans h₁) ▸ hstat, fun h => ⟨pe, hheap, h⟩⟩
  constructor
  · rintro ⟨hcount, hmutex, honce, hunlock⟩
    rw [hbetween, hafter] at honce
    rw [hafter] at hcount
    rw [hbetween', hafter'] at hunlock
    rw [hafter'] at hmutex
    -- the count went down, so the file was examined and the semaphore waited for
    have hstat : (opened.world.fs.fstat pe.fd replies.fstat).isSome = true ∧ replies.semWait = true := by
      by_contra hnot
      rw [if_neg hnot] at hrefcount'
      omega
    refine ⟨?_, hstat.2, hexamined.mpr hstat.1, ?_, ?_⟩
    · by_contra hpost
      rw [if_neg hpost] at hrefcount
      omega
    · intro hrdonly
      rw [if_pos ⟨hstat.1, hrdonly⟩] at hlocked'
      by_contra hflags
      have hne : getModeFromFlags flags ≠ .rdonly := fun h => hflags (hmode.mp h).2
      have hbefore := hfree hne
      simp [hne, hbefore, hlocked'] at hlocked hmutex
      simp [hlocked] at hmutex
    · intro hrdonly
      have hne : getModeFromFlags flags ≠ .rdonly := fun h => by
        have := (hmode.mp h).1
        simp [hrdonly] at this
      have hbefore := hfree hne
      by_contra hfails
      simp [hrdonly, hfails] at hlocked'
      simp [hne] at hlocked
      simp [hlocked', hlocked, hbefore] at hmutex
  · rintro ⟨hpost, hwait, hstat, hflags, hunlock⟩
    rw [hexamined] at hstat
    rw [if_pos ⟨hstat, hwait⟩] at hrefcount'
    rw [if_pos hpost] at hrefcount
    have hmutex : released.world.lockedOf path = w.lockedOf path ∧
        (opened.world.lockedOf path = true ∧ released.world.lockedOf path = false ↔
          w.lockedOf path = false ∧ opened.world.lockedOf path = true) := by
      rw [hbetween', hafter']
      cases hrdonly : isRdonly flags with
      | true =>
        have heq := hmode.mpr ⟨hrdonly, hflags hrdonly⟩
        simp [hstat, hrdonly] at hlocked'
        simp [heq] at hlocked
        simp [hlocked', hlocked, and_comm]
      | false =>
        have hne : getModeFromFlags flags ≠ .rdonly := fun h => by
          have := (hmode.mp h).1
          simp [hrdonly] at this
        simp [hrdonly, hunlock hrdonly] at hlocked'
        simp [hne] at hlocked
        simp [hlocked', hlocked, hfree hne]
    refine ⟨?_, hmutex.1, ?_, hmutex.2⟩
    · rw [hafter]
      omega
    · rw [hbetween, hafter]
      omega

/-- The calls of a plain read-only open and release make them a pair. -/
theorem open_release_paired_rdonly :
    ∃ opened released,
      dfsOpen Env.plain (.start .empty (.file "/f".toList [65])) "/f".toList oRdonly (.granted 3) = .done opened ∧
      dfsRelease Env.plain opened.world 0 "/f".toList oRdonly (.granted 4) = .done released ∧
      (Paired (.start .empty (.file "/f".toList [65])) opened.world released.world "/f".toList ↔
        PairedCalls opened.world 0 oRdonly (.granted 3) (.granted 4)) :=
  ⟨_, _, rfl, rfl, open_release_paired_iff Env.plain _ _ _ _ _ _ _ _ rfl rfl rfl rfl⟩

/-- Opened with `O_RDONLY|O_APPEND`, the entry is locked, and its release does not unlock it. -/
theorem append_rdonly_not_paired :
    ∃ opened released,
      dfsOpen Env.plain (.start .empty (.file "/f".toList [65])) "/f".toList (oRdonly ||| oAppend)
        (.granted 3) = .done opened ∧ opened.ret = 0 ∧ opened.fh = some 0 ∧
      dfsRelease Env.plain opened.world 0 "/f".toList (oRdonly ||| oAppend) (.granted 4) = .done released ∧
      ¬ Paired (.start .empty (.file "/f".toList [65])) opened.world released.world "/f".toList := by
  refine ⟨_, _, rfl, rfl, rfl, rfl, ?_⟩
  intro h
  exact absurd h.mutex (by decide)

/-- The count and the mutex of a path are as they were. -/
structure Untouched (before after : World) (path : CStr) : Prop where
  refcount : after.refcountOf path = before.refcountOf path
  mutex : after.lockedOf path = before.lockedOf path

/-- The failures of `dfs_open` that leave the entry as it was: no entry could be made, the mutex could
not be taken and the semaphore is where it was, or the mode is read-only and nothing was counted. -/
def OpenUndone (w : World) (path : CStr) (flags : BitVec 32) (replies : OpenReplies) : Prop :=
  (w.table path = none ∧ (replies.alloc = false ∨ replies.keyDup = false)) ∨
    (getModeFromFlags flags ≠ .rdonly ∧ replies.lock = false ∧ replies.semPost = replies.semWait) ∨
    (getModeFromFlags flags = .rdonly ∧ replies.semPost = false)

/-- Taking and giving back a reference leaves the count as it was exactly when both calls succeed or
both fail. -/
theorem Pentry.inc_dec_refcount {pe pe' : Pentry} {semPost semWait : Bool}
    (h : (pe.incRefcount semPost).decRefcount semWait = .done pe') :
    (pe'.refcount = pe.refcount ↔ semPost = semWait) ∧ pe'.locked = pe.locked := by
  obtain ⟨rfl, hpos⟩ := Pentry.decRefcount_eq h
  cases semPost <;> cases semWait <;> simp [Pentry.incRefcount] at hpos ⊢
  omega

/-- What an open leaves to its caller, whether it succeeded or failed: the count and the mutex are
those before it exactly if it undid what it had done. -/
theorem dfsOpen_untouched_iff {env : Env} {w : World} {path : CStr} {flags : BitVec 32}
    {replies : OpenReplies} {opened : Opened} (h : dfsOpen env w path flags replies = .done opened) :
    Untouched w opened.world path ↔ OpenUndone w path flags replies := by
  have hheld : ∀ (mark : Pentry → Pentry) {addr : ℕ} {w₁ : World} {pe pe' : Pentry} {fs : LocalFs} {ret : ℤ},
      Found w path replies addr w₁ pe →
      (getModeFromFlags flags ≠ .rdonly → replies.lock = true ∧ pe.locked = false) →
      openByMode env w₁.fs w₁.remote (pe.held replies.semPost (getModeFromFlags flags)) path
        (getModeFromFlags flags) replies = .done (ret, fs, pe') →
      (mark pe').refcount = pe'.refcount → (mark pe').locked = pe'.locked →
      (Untouched w ({ w₁ with fs := fs }.put addr (mark pe')) path ↔ OpenUndone w path flags replies) := by
    intro mark addr w₁ pe pe' fs ret hfound hlock hmode hrefcount hlocked
    obtain ⟨hbefore, hbefore'⟩ := hfound.hold
    obtain ⟨hafter, hafter'⟩ := { w₁ with fs := fs }.hold_put (mark pe') hfound.table
    obtain ⟨fd, flag, metadata, digest, hentry⟩ := openByMode_entry hmode
    have hcounted : (mark pe').refcount = pe.refcount + if replies.semPost then 1 else 0 := by
      rw [hrefcount, hentry]
      exact Pentry.held_refcount ..
    have hholds : (mark pe').locked = (pe.locked || getModeFromFlags flags ≠ .rdonly) := by
      rw [hlocked, hentry]
      exact Pentry.held_locked ..
    rw [hcounted] at hafter
    rw [hholds] at hafter'
    have hsome : findOrPopulate w path replies ≠ none := by simp [hfound.lookup]
    constructor
    · rintro ⟨hcount, hmutex⟩
      rw [hafter, hbefore] at hcount
      rw [hafter', hbefore'] at hmutex
      right; right
      constructor
      · by_contra hne
        simp [hne, (hlock hne).2] at hmutex
      · by_contra hpost
        simp [hpost] at hcount
    · rintro (hnone | ⟨hne, hfails, -⟩ | ⟨heq, hpost⟩)
      · exact absurd ((findOrPopulate_eq_none ..).mpr hnone) hsome
      · rw [(hlock hne).1] at hfails
        cases hfails
      · exact ⟨by rw [hafter, hbefore]; simp [hpost], by rw [hafter', hbefore']; simp [heq]⟩
  cases dfsOpen_outcome h with
  | noEntry hnone =>
    exact ⟨fun _ => .inl ((findOrPopulate_eq_none ..).mp hnone), fun _ => ⟨rfl, rfl⟩⟩
  | lockFailed hfound hne hlock hwait =>
    obtain ⟨hbefore, hbefore'⟩ := hfound.hold
    obtain ⟨hcount, hmutex⟩ := Pentry.inc_dec_refcount hwait
    have hlookup := hfound.lookup
    obtain ⟨hafter, hafter'⟩ := World.hold_put _ _ hfound.table
    constructor
    · intro huntouched
      have hrefcount := huntouched.refcount
      rw [hafter, hbefore] at hrefcount
      exact .inr (.inl ⟨hne, hlock, hcount.mp hrefcount⟩)
    · rintro (hnone | ⟨-, -, heq⟩ | ⟨heq, -⟩)
      · simp [(findOrPopulate_eq_none ..).mpr hnone] at hlookup
      · exact ⟨by rw [hafter, hbefore]; exact hcount.mpr heq, by rw [hafter', hbefore']; exact hmutex⟩
      · exact absurd heq hne
  | failed hfound hlock hmode => exact hheld id hfound hlock hmode rfl rfl
  | succeeded hfound hlock hmode _ =>
    exact hheld (fun pe => { pe with ondisk := .localFile }) hfound hlock hmode rfl rfl

/-- What `dfs_create` does after the open leaves the count and the mutex alone. -/
theorem createEntry_hold {env : Env} {w : World} {addr : ℕ} {pe : Pentry} {path : CStr} {mode : BitVec 32}
    {exclude : Bool} {replies : CreateReplies} {created : Opened} (htable : w.table path = some addr)
    (hheap : w.heap addr = some pe)
    (h : createEntry env w addr pe path mode exclude replies = .done created) :
    created.world.refcountOf path = w.refcountOf path ∧ created.world.lockedOf path = w.lockedOf path := by
  obtain ⟨-, fs, remote, trace, metadata, -, -, hworld⟩ := createEntry_frame h
  obtain ⟨hcount, hmutex⟩ := { w with fs := fs, remote := remote, trace := trace }.hold_put
    { pe with exclude := exclude, metadata := metadata } htable
  rw [hworld, hcount, hmutex, World.refcountOf_eq htable hheap, World.lockedOf_eq htable hheap]
  exact ⟨rfl, rfl⟩

/-- A `dfs_open` or `dfs_create` that fails leaves the count and the mutex of the path as they were
exactly when the open inside it undid what it had done, or was not reached. -/
theorem failed_open_untouched_iff (env : Env) (w : World) (path : CStr) (flags : BitVec 32) :
    (∀ replies opened, dfsOpen env w path flags replies = .done opened → opened.ret ≠ 0 →
      (Untouched w opened.world path ↔ OpenUndone w path flags replies)) ∧
    (∀ mode replies created, dfsCreate env w path mode flags replies = .done created → created.ret ≠ 0 →
      (Untouched w created.world path ↔
        CreateRefused env w path mode replies ∨ OpenUndone w path flags replies.opening)) := by
  refine ⟨fun replies opened h _ => dfsOpen_untouched_iff h, ?_⟩
  intro mode replies created h _
  cases dfsCreate_outcome h with
  | refused hrefused => exact ⟨fun _ => .inl hrefused, fun _ => ⟨rfl, rfl⟩⟩
  | noEntry hrefused hopen hfh =>
    rw [or_iff_right hrefused, ← dfsOpen_untouched_iff hopen]
  | entry hrefused hopen hfh hheap hentry =>
    rw [or_iff_right hrefused, ← dfsOpen_untouched_iff hopen]
    obtain ⟨hcount, hmutex⟩ := createEntry_hold (dfsOpen_table hopen hfh) hheap hentry
    exact ⟨fun ⟨h₁, h₂⟩ => ⟨hcount ▸ h₁, hmutex ▸ h₂⟩, fun ⟨h₁, h₂⟩ => ⟨hcount ▸ h₁, hmutex ▸ h₂⟩⟩

/-- An open that finds no object fails and keeps its reference; a create whose `dpl_mknod` fails keeps
the mutex as well. -/
theorem failed_open_keeps_hold :
    (∃ opened, dfsOpen Env.plain (.start .empty ∅) "/f".toList oRdonly (.granted 3) = .done opened ∧
      opened.ret = -1 ∧ ¬ Untouched (.start .empty ∅) opened.world "/f".toList) ∧
    (∃ created, dfsCreate Env.plain (.start .empty ∅) "/f".toList (sIfreg ||| 0o644) (oWronly ||| oCreat)
        { CreateReplies.granted 3 with mknod := fun _ => .refused } = .done created ∧
      created.ret = -1 ∧ ¬ Untouched (.start .empty ∅) created.world "/f".toList) := by
  constructor
  · refine ⟨_, rfl, rfl, ?_⟩
    intro h
    exact absurd h.refcount (by decide)
  · refine ⟨_, rfl, rfl, ?_⟩
    intro h
    exact absurd h.mutex (by decide)

/-- Both equivalences apply to failures such as an entry that cannot be allocated, and a mode that is
not that of a regular file. -/
theorem failed_open_untouched_alloc :
    (∃ opened, dfsOpen Env.plain (.start .empty ∅) "/f".toList oRdonly
        { OpenReplies.granted 3 with alloc := false } = .done opened ∧
      (Untouched (.start .empty ∅) opened.world "/f".toList ↔
        OpenUndone (.start .empty ∅) "/f".toList oRdonly { OpenReplies.granted 3 with alloc := false })) ∧
    (∃ created, dfsCreate Env.plain (.start .empty ∅) "/f".toList sIfdir oRdonly (.granted 3) = .done created ∧
      (Untouched (.start .empty ∅) created.world "/f".toList ↔
        CreateRefused Env.plain (.start .empty ∅) "/f".toList sIfdir (.granted 3) ∨
          OpenUndone (.start .empty ∅) "/f".toList oRdonly (CreateReplies.granted 3).opening)) :=
  ⟨⟨_, rfl, (failed_open_untouched_iff Env.plain _ _ _).1 _ _ rfl (by decide)⟩,
    ⟨_, rfl, (failed_open_untouched_iff Env.plain _ _ _).2 _ _ _ rfl (by decide)⟩⟩

end Dropletfs
