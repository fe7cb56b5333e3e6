import Dropletfs.Suspension

/-!
# A lookup overtaken by an open

A `dfs_getattr` that found the entry unset marks it as remote when the metadata arrive, whatever the entry has
become. On one entry, an open that returns before that is undone; otherwise the entry stays local.
-/

namespace Dropletfs.Overtaking

/-- The entry that a `dfs_getattr` under way works on. -/
def GetattrAt.entry : GetattrAt → Option ℕ
  | .namei addr _ => some addr
  | .getattr addr _ _ => some addr
  | _ => none

/-- The entry that a `dfs_open` under way works on. -/
def OpenAt.entry : OpenAt → Option ℕ
  | .namei addr _ => some addr
  | .headAll addr _ => some addr
  | .openread addr _ _ => some addr
  | _ => none

/-- The descriptor and the placeholder of an entry. -/
def copyOf (pe : Pentry) : ℤ × Placeholder := (pe.fd, pe.ondisk)

/-- An answer of `dpl_getattr` after which `getattr_unset` stores the metadata and marks the entry as remote. -/
structure Stores (path : CStr) (w : World) (pe : Pentry) (at_ : GetattrAt) (status : Status)
    (replies : GetattrReplies) : Prop where
  waits : ∃ addr type left, at_ = .getattr addr type left
  metadata : ((dplGetattr status path w.remote).2).isSome = true
  lock : replies.mdLock = true
  free : pe.mdLocked = false
  unlock : replies.mdUnlock = true

/-- What a step of `dfs_getattr` does to the entry: it goes on waiting, having found the entry unset in its first
step; it returns, or returns after marking the entry as remote. -/
inductive GetattrMove (path : CStr) (w : World) (addr : ℕ) (pe : Pentry) (at_ : GetattrAt) (status : Status)
    (replies : GetattrReplies) : GetattrAt → ℤ × Placeholder → Prop
  | waits {next : GetattrAt} : next.entry = some addr → (at_.entry = none → pe.ondisk = .unset) →
      ¬ Stores path w pe at_ status replies → GetattrMove path w addr pe at_ status replies next (copyOf pe)
  | returns {ret : ℤ} : ¬ Stores path w pe at_ status replies →
      GetattrMove path w addr pe at_ status replies (.returned ret) (copyOf pe)
  | stores {ret : ℤ} : Stores path w pe at_ status replies →
      GetattrMove path w addr pe at_ status replies (.returned ret) (pe.fd, .remote)

section Getattr

variable {env : Env} {path : CStr} {w w' : World} {addr : ℕ} {pe : Pentry} {status : Status} {replies : GetattrReplies}

/-- The time of the last lookup concerns neither the table nor what an entry has of the file. -/
theorem lookedUp_keeps (addr : ℕ) (looked : Lookup) (replies : GetattrReplies) :
    (lookedUp addr looked replies).2.table = looked.world.table ∧
      ((lookedUp addr looked replies).2.heap addr).map copyOf = (looked.world.heap addr).map copyOf :=
  ⟨(World.touch_quiet _ addr replies.now).table, World.touch_map _ _ _ _ copyOf fun _ _ => rfl⟩

/-- Settling the attributes leaves the descriptor and the placeholder as they are given. -/
theorem getattrSettled_keeps (w : World) (addr : ℕ) (pe : Pentry) (path : CStr) (st : Stat) (replies : GetattrReplies) :
    (getattrSettled w addr pe path st replies).world.table = w.table ∧
      ((getattrSettled w addr pe path st replies).world.heap addr).map copyOf = some (copyOf pe) := by
  refine ⟨?_, ?_⟩
  · exact (World.fillDirent_quiet _ path replies.addDirent).table
  · unfold getattrSettled
    rw [World.fillDirent_map _ _ _ _ copyOf fun _ _ => rfl, World.put_heap_self, pe.setFiletypeFromStat_eq]
    rfl

/-- Metadata come with a success, or for a directory. -/
theorem dplGetattr_metadata (h : ((dplGetattr status path w.remote).2).isSome = true) :
    (dplGetattr status path w.remote).1 = .success ∨ (dplGetattr status path w.remote).1 = .eisdir := by
  simp only [dplGetattr] at h ⊢
  split at h
  · assumption
  · cases h

/-- Only what `getattr_unset` stores marks the entry as remote. -/
theorem getattrFetched_moves {type : Ftype} {left : ℕ} {looked : Lookup} (hheap : w.heap addr = some pe)
    (h : getattrFetched env w addr pe path type (dplGetattr status path w.remote).1
      (dplGetattr status path w.remote).2 replies = .done looked) :
    looked.world.table = w.table ∧ ∃ copy, (looked.world.heap addr).map copyOf = some copy ∧
      GetattrMove path w addr pe (.getattr addr type left) status replies (.returned looked.ret) copy := by
  have hsame : (w.heap addr).map copyOf = some (copyOf pe) := by rw [hheap, Option.map_some]
  unfold getattrFetched at h
  split at h
  · rename_i hfailed
    obtain rfl := Exec.done.inj h
    refine ⟨rfl, _, hsame, .returns fun hstores => ?_⟩
    rcases dplGetattr_metadata hstores.metadata with hsuccess | hdirectory
    · exact hfailed.1 hsuccess
    · exact hfailed.2 hdirectory
  · simp only at h
    split at h
    · rename_i hnone
      obtain rfl := Exec.done.inj h
      obtain ⟨htable, hcopy⟩ := getattrSettled_keeps w addr pe path
        (setDefaultStat env.proc replies.now .single type) replies
      refine ⟨htable, _, hcopy, .returns fun hstores => ?_⟩
      have hsome := hstores.metadata
      rw [hnone] at hsome
      cases hsome
    · rename_i dict hsome
      split at h
      · rename_i hlock
        obtain rfl := Exec.done.inj h
        refine ⟨rfl, _, hsame, .returns fun hstores => ?_⟩
        rw [hstores.lock] at hlock
        cases hlock
      · rename_i hlock
        split at h
        · cases h
        · rename_i hfree
          obtain ⟨metadata, hmetadata⟩ := pe.setMetadata_eq dict replies.setMetadata
          rw [hmetadata] at h
          split at h
          · rename_i hunlock
            obtain rfl := Exec.done.inj h
            refine ⟨rfl, copyOf pe, by rw [World.put_heap_self]; rfl, .returns fun hstores => ?_⟩
            rw [hstores.unlock] at hunlock
            cases hunlock
          · rename_i hunlock
            obtain rfl := Exec.done.inj h
            obtain ⟨htable, hcopy⟩ := getattrSettled_keeps w addr
              { pe with metadata := metadata, ondisk := .remote } path
              (fillStatFromMetadata (symlinkBit (setDefaultStat env.proc replies.now .single type) dict) dict) replies
            refine ⟨htable, _, hcopy, .stores ⟨⟨addr, type, left, rfl⟩, ?_, ?_, ?_, ?_⟩⟩
            · rw [hsome, Option.isSome_some]
            · simpa using hlock
            · simpa using hfree
            · simpa using hunlock

/-- A step of `dfs_getattr`. -/
theorem getattrStep_moves {at_ next : GetattrAt} (htable : w.table path = some addr) (hheap : w.heap addr = some pe)
    (hentry : ∀ a, at_.entry = some a → a = addr)
    (h : getattrStep env path w at_ status replies = .done (next, w')) :
    w'.table = w.table ∧ ∃ copy, (w'.heap addr).map copyOf = some copy ∧
      GetattrMove path w addr pe at_ status replies next copy := by
  have hsame : (w.heap addr).map copyOf = some (copyOf pe) := by rw [hheap, Option.map_some]
  have hlooked : ∀ {looked : Lookup} {copy}, looked.world.table = w.table →
      (looked.world.heap addr).map copyOf = some copy →
      GetattrMove path w addr pe at_ status replies (.returned looked.ret) copy →
      lookedUp addr looked replies = (next, w') → w'.table = w.table ∧ ∃ copy, (w'.heap addr).map copyOf = some copy ∧
        GetattrMove path w addr pe at_ status replies next copy := by
    intro looked copy htable' hcopy hmove hdone
    obtain ⟨htouched, hkept⟩ := lookedUp_keeps addr looked replies
    rw [hdone] at htouched hkept
    obtain rfl := congrArg Prod.fst hdone
    exact ⟨htouched.trans htable', copy, hkept.trans hcopy, hmove⟩
  cases at_ with
  | start =>
    have hnever : ¬ Stores path w pe .start status replies := by
      rintro ⟨⟨_, _, _, hat⟩, -⟩
      cases hat
    simp only [getattrStep, startGetattr, findOrInsert, htable, hheap] at h
    split at h
    · obtain ⟨rfl, rfl⟩ := Prod.mk.inj (Exec.done.inj h)
      exact ⟨rfl, _, hsame, .returns hnever⟩
    · split at h
      · rename_i hunset
        obtain ⟨rfl, rfl⟩ := Prod.mk.inj (Exec.done.inj h)
        exact ⟨rfl, _, hsame, .waits rfl (fun _ => hunset) hnever⟩
      · rename_i hset
        obtain ⟨looked, hlook, hdone⟩ := Exec.bind_eq_done.mp h
        have houtcome := getattrByPlaceholder_outcome hlook
        refine hlooked houtcome.table ?_ (.returns hnever) (Exec.done.inj hdone)
        cases houtcome with
        | kept => exact hsame
        | held => rw [World.put_heap_self]; rfl
        | served hunset => exact absurd hunset hset
  | namei addr' left =>
    obtain rfl : addr' = addr := hentry _ rfl
    have hnever : ¬ Stores path w pe (.namei addr' left) status replies := by
      rintro ⟨⟨_, _, _, hat⟩, -⟩
      cases hat
    simp only [getattrStep] at h
    split at h
    · obtain ⟨rfl, rfl⟩ := Prod.mk.inj (Exec.done.inj h)
      exact ⟨rfl, _, hsame, .waits rfl (fun hnone => by cases hnone) hnever⟩
    · unfold namedGetattr at h
      split at h
      · obtain ⟨rfl, rfl⟩ := Prod.mk.inj (Exec.done.inj h)
        exact ⟨rfl, _, hsame, .waits rfl (fun hnone => by cases hnone) hnever⟩
      · exact hlooked rfl hsame (.returns hnever) (Exec.done.inj h)
  | getattr addr' type left =>
    obtain rfl : addr' = addr := hentry _ rfl
    simp only [getattrStep, fetchedGetattr, hheap] at h
    split at h
    · rename_i hagain
      obtain ⟨rfl, rfl⟩ := Prod.mk.inj (Exec.done.inj h)
      refine ⟨rfl, _, hsame, .waits rfl (fun hnone => by cases hnone) fun hstores => ?_⟩
      have hretriable := hagain.1
      rcases dplGetattr_metadata hstores.metadata with hsuccess | hdirectory
      · rw [hsuccess] at hretriable
        cases hretriable
      · rw [hdirectory] at hretriable
        cases hretriable
    · obtain ⟨looked, hfetched, hdone⟩ := Exec.bind_eq_done.mp h
      obtain ⟨htable', copy, hcopy, hmove⟩ := getattrFetched_moves hheap hfetched
      exact hlooked htable' hcopy hmove (Exec.done.inj hdone)
  | returned => cases h

end Getattr

/-- What a step of `dfs_open` does to the entry: it goes on waiting, fails, or provides a descriptor and marks the
entry as local. -/
inductive OpenMove (addr : ℕ) (pe : Pentry) : OpenAt → ℤ × Placeholder → Prop
  | waits {next : OpenAt} : next.entry = some addr → OpenMove addr pe next (copyOf pe)
  | fails : OpenMove addr pe (.returned (-1)) (copyOf pe)
  | opens {fd : ℤ} : 0 ≤ fd → OpenMove addr pe (.returned 0) (fd, .localFile)

section Open

variable {env : Env} {path : CStr} {flags : BitVec 32} {w w' : World} {addr : ℕ} {pe : Pentry} {status : Status}
  {replies : OpenReplies}

/-- Until the download, nothing but metadata and digest of the entry changes, and what is returned is no
descriptor or that of the entry. -/
theorem prepareCopy_entry {fs fs' : LocalFs} {headers : Option Obj} {copy : CopyReplies} {prepared : Prepared}
    {pe' : Pentry} (h : prepareCopy env fs pe path headers copy = (prepared, fs', pe')) :
    copyOf pe' = copyOf pe ∧ ∀ fd, prepared = .returned fd → fd = -1 ∨ fd = pe.fd := by
  unfold prepareCopy at h
  split at h
  · obtain ⟨rfl, -, rfl⟩ := h
    exact ⟨rfl, fun fd hfd => .inl (Prepared.returned.inj hfd).symm⟩
  · split at h
    · obtain ⟨rfl, -, rfl⟩ := h
      exact ⟨rfl, fun fd hfd => .inl (Prepared.returned.inj hfd).symm⟩
    · obtain ⟨metadata, hmetadata⟩ := pe.setMetadata_eq (getMetadataFromHeaders copy.extract headers) copy.setMetadata
      simp only [hmetadata] at h
      split at h
      · obtain ⟨rfl, -, rfl⟩ := h
        exact ⟨rfl, fun fd hfd => .inl (Prepared.returned.inj hfd).symm⟩
      · obtain ⟨digest, hdigest⟩ := compareDigests_eq { pe with metadata := metadata } headers copy.junkDigest
        rw [hdigest] at h
        split at h
        · obtain ⟨rfl, -, rfl⟩ := h
          exact ⟨rfl, fun fd hfd => .inr (Prepared.returned.inj hfd).symm⟩
        · split at h
          · obtain ⟨rfl, -, rfl⟩ := h
            exact ⟨rfl, fun fd hfd => .inl (Prepared.returned.inj hfd).symm⟩
          · obtain ⟨rfl, -, rfl⟩ := h
            exact ⟨rfl, fun fd hfd => by cases hfd⟩

/-- From the download on, the entry does not change, and what is returned is no descriptor or a new one. -/
theorem finishCopy_entry {fs fs' : LocalFs} {r : Remote} {openFlags : OpenFlags} {download : ℕ} {metadata : Dict}
    {copy : CopyReplies} {fd : ℤ} {pe' : Pentry}
    (h : finishCopy env fs r pe path openFlags download metadata copy = .done (fd, fs', pe')) :
    pe' = pe ∧ (fd = -1 ∨ 0 ≤ fd) := by
  unfold finishCopy at h
  simp only at h
  split at h
  · simp only [Exec.done.injEq, Prod.mk.injEq] at h
    exact ⟨h.2.2.symm, .inl h.1.symm⟩
  · obtain ⟨unpacked, -, hdone⟩ := Exec.bind_eq_done.mp h
    have hopen := Exec.done.inj hdone
    unfold openCopy at hopen
    split at hopen
    · obtain ⟨rfl, -, rfl⟩ := hopen
      exact ⟨rfl, .inl rfl⟩
    · split at hopen
      · obtain ⟨rfl, -, rfl⟩ := hopen
        exact ⟨rfl, .inl rfl⟩
      · simp only at hopen
        split at hopen
        · obtain ⟨rfl, -, rfl⟩ := hopen
          exact ⟨rfl, .inl rfl⟩
        · split at hopen
          · obtain ⟨rfl, -, rfl⟩ := hopen
            exact ⟨rfl, .inl rfl⟩
          · obtain ⟨rfl, -, rfl⟩ := hopen
            exact ⟨rfl, .inr (Int.natCast_nonneg _)⟩

/-- `dfs_open` fails without a descriptor, and marks the entry as local with one. -/
theorem copied_moves {w₁ : World} {pe' : Pentry} {mode : StateMode} {fd : ℤ} {next : OpenAt}
    (htable : w₁.table = w.table)
    (hcopy : copyOf pe' = copyOf pe) (hfd : fd = -1 ∨ 0 ≤ fd) (h : copied w₁ addr pe' mode fd = (next, w')) :
    w'.table = w.table ∧ ∃ copy, (w'.heap addr).map copyOf = some copy ∧ OpenMove addr pe next copy := by
  unfold copied at h
  split at h
  · obtain ⟨rfl, rfl⟩ := Prod.mk.inj h
    refine ⟨htable, copyOf pe, ?_, .fails⟩
    rw [World.put_heap_self, Option.map_some, hcopy]
  · rename_i hne
    obtain ⟨rfl, rfl⟩ := Prod.mk.inj h
    refine ⟨htable, (fd, .localFile), ?_, .opens (hfd.resolve_left hne)⟩
    rw [World.put_heap_self]
    rfl

/-- Holding an entry keeps its descriptor and its placeholder. -/
theorem held_copyOf (pe : Pentry) (semPost : Bool) (mode : StateMode) :
    copyOf (pe.held semPost mode) = copyOf pe ∧ ((pe.held semPost mode).Usable ↔ pe.Usable) := by
  have hcopy : copyOf (pe.held semPost mode) = copyOf pe := by
    cases semPost with
    | false => simp only [Pentry.held, Pentry.incRefcount]; split <;> rfl
    | true => simp only [Pentry.held, Pentry.incRefcount]; split <;> rfl
  have hfd : (pe.held semPost mode).fd = pe.fd := congrArg Prod.fst hcopy
  exact ⟨hcopy, by rw [Pentry.Usable, Pentry.Usable, hfd]⟩

/-- `dfs_open` up to its first remote call. -/
theorem startOpen_moves {next : OpenAt} (husable : pe.Usable)
    (h : startOpen env path flags w addr pe replies = .done (next, w')) :
    w'.table = w.table ∧ ∃ copy, (w'.heap addr).map copyOf = some copy ∧ OpenMove addr pe next copy := by
  obtain ⟨hcopy, husableHeld⟩ := held_copyOf pe replies.semPost (getModeFromFlags flags)
  unfold startOpen at h
  simp only at h
  split at h
  · obtain ⟨pe', hwait, hdone⟩ := Exec.bind_eq_done.mp h
    obtain ⟨rfl, rfl⟩ := Prod.mk.inj (Exec.done.inj hdone)
    obtain ⟨rfl, -⟩ := Pentry.decRefcount_eq hwait
    refine ⟨rfl, copyOf pe, ?_, .fails⟩
    rw [World.put_heap_self]
    cases hpost : replies.semPost <;> simp [Pentry.incRefcount, copyOf]
  · split at h
    · cases h
    · split at h
      · obtain ⟨rfl, rfl⟩ := Prod.mk.inj (Exec.done.inj h)
        refine ⟨rfl, copyOf pe, ?_, .waits rfl⟩
        rw [World.put_heap_self, Option.map_some, hcopy]
      · obtain ⟨opened, hentry, hdone⟩ := Exec.bind_eq_done.mp h
        obtain ⟨rfl, rfl⟩ := Prod.mk.inj (Exec.done.inj hdone)
        obtain ⟨⟨ret, fs, pe'⟩, hmode, hdone⟩ := Exec.bind_eq_done.mp hentry
        have houtcome := openByMode_outcome (husableHeld.mpr husable) hmode
        simp only [pure] at hdone
        split at hdone
        · rename_i hret
          obtain rfl := Exec.done.inj hdone
          refine ⟨rfl, copyOf pe, ?_, .fails⟩
          rw [World.put_heap_self, ← hcopy]
          subst hret
          cases houtcome with
          | failed => rfl
        · rename_i hret
          obtain rfl := Exec.done.inj hdone
          refine ⟨rfl, (pe'.fd, .localFile), ?_, .opens ?_⟩
          · rw [World.put_heap_self]
            rfl
          · cases houtcome with
            | failed => exact absurd rfl hret
            | kept _ hfd => exact hfd
            | fetched => exact Int.natCast_nonneg _
            | created => exact Int.natCast_nonneg _

/-- A step of `dfs_open`. -/
theorem openStep_moves {at_ next : OpenAt} (htable : w.table path = some addr) (hheap : w.heap addr = some pe)
    (husable : pe.Usable) (hentry : ∀ a, at_.entry = some a → a = addr)
    (h : openStep env path flags w at_ status replies = .done (next, w')) :
    w'.table = w.table ∧ ∃ copy, (w'.heap addr).map copyOf = some copy ∧ OpenMove addr pe next copy := by
  have hsame : (w.heap addr).map copyOf = some (copyOf pe) := by rw [hheap, Option.map_some]
  cases at_ with
  | start =>
    simp only [openStep, findOrPopulate, htable, hheap] at h
    exact startOpen_moves husable h
  | namei addr' left =>
    obtain rfl : addr' = addr := hentry _ rfl
    simp only [openStep] at h
    split at h
    · obtain ⟨rfl, rfl⟩ := Prod.mk.inj (Exec.done.inj h)
      exact ⟨rfl, _, hsame, .waits rfl⟩
    · unfold namedOpen at h
      split at h
      · obtain ⟨rfl, rfl⟩ := Prod.mk.inj (Exec.done.inj h)
        exact ⟨rfl, _, hsame, .fails⟩
      · obtain ⟨rfl, rfl⟩ := Prod.mk.inj (Exec.done.inj h)
        exact ⟨rfl, _, hsame, .waits rfl⟩
  | headAll addr' left =>
    obtain rfl : addr' = addr := hentry _ rfl
    simp only [openStep, headedOpen, hheap] at h
    split at h
    · obtain ⟨rfl, rfl⟩ := Prod.mk.inj (Exec.done.inj h)
      exact ⟨rfl, _, hsame, .waits rfl⟩
    · split at h
      · rename_i fd fs pe' hprepared
        obtain ⟨hcopy, hfd⟩ := prepareCopy_entry hprepared
        refine copied_moves ?_ hcopy ?_ (Exec.done.inj h)
        · rfl
        · rcases hfd fd rfl with hnone | hown
          · exact .inl hnone
          · exact hown ▸ husable
      · rename_i fd metadata fs pe' hprepared
        obtain ⟨hcopy, -⟩ := prepareCopy_entry hprepared
        obtain ⟨rfl, rfl⟩ := Prod.mk.inj (Exec.done.inj h)
        refine ⟨rfl, copyOf pe, ?_, .waits rfl⟩
        rw [World.put_heap_self, Option.map_some, hcopy]
  | openread addr' fd metadata =>
    obtain rfl : addr' = addr := hentry _ rfl
    simp only [openStep, hheap] at h
    obtain ⟨⟨fd', fs, pe'⟩, hfinish, hdone⟩ := Exec.bind_eq_done.mp h
    obtain ⟨rfl, hfd⟩ := finishCopy_entry hfinish
    refine copied_moves ?_ rfl hfd (Exec.done.inj hdone)
    rfl
  | returned => cases h

end Open

/-- Both requests are about to run on an entry that the program has come to have for the path. -/
structure Starts (env : Env) (path : CStr) (s : State) : Prop where
  reached : ∃ session : Session, session.Reached env GuardedRuns.unguarded ∧ session.world = s.world
  entry : ∃ addr pe, s.world.table path = some addr ∧ s.world.heap addr = some pe
  getattr : s.getattr = .start
  opening : s.opening = .start

/-- The answer to the last remote call of a `dfs_getattr` that found the entry unset makes it mark an entry that is
local by now. -/
def Overwrites (path : CStr) (s : State) : Event → Prop
  | .getattr status replies => ∃ addr pe, s.world.table path = some addr ∧ s.world.heap addr = some pe ∧
      pe.ondisk = .localFile ∧ Stores path s.world pe s.getattr status replies
  | .opening _ _ => False

/-- Nothing is overwritten. -/
def InOrder (path : CStr) (s : State) (event : Event) : Prop := ¬ Overwrites path s event

/-- The entry of the path is marked as local and has a descriptor. -/
def State.Local (path : CStr) (s : State) : Prop :=
  ∃ addr pe, s.world.table path = some addr ∧ s.world.heap addr = some pe ∧ pe.ondisk = .localFile ∧ 0 ≤ pe.fd

/-- A `dfs_getattr` of the path that succeeds reports what `fstat` has on the descriptor of its entry. -/
def ReportsCopy (env : Env) (path : CStr) (w : World) : Prop :=
  ∀ replies looked, path ≠ "/".toList → dfsGetattr env w path replies = .done looked → looked.ret = 0 →
    ∃ addr pe, w.table path = some addr ∧ w.heap addr = some pe ∧ w.fs.fstat pe.fd replies.fstat = some looked.st

/-- The entry that both requests work on, with what it has of the file: it has a descriptor once it was opened, and
a `dfs_getattr` under way finds it local only after it was opened. -/
structure Shares (path : CStr) (s : State) (addr : ℕ) (copy : ℤ × Placeholder) : Prop where
  table : s.world.table path = some addr
  heap : (s.world.heap addr).map copyOf = some copy
  usable : copy.1 = -1 ∨ 0 ≤ copy.1
  getattr : ∀ a, s.getattr.entry = some a → a = addr
  opening : ∀ a, s.opening.entry = some a → a = addr
  waiting : s.getattr.entry.isSome = true → copy.2 = .localFile → s.opening = .returned 0
  opened : s.opening = .returned 0 → 0 ≤ copy.1

/-- The entry is marked as remote although it was opened, and nothing will change that. -/
def Overwritten (s : State) (copy : ℤ × Placeholder) : Prop :=
  copy.2 = .remote ∧ s.opening = .returned 0 ∧ ∃ ret, s.getattr = .returned ret

/-- What a step means for the placeholder: an entry that was opened stays local if it is not overwritten, and what
is overwritten stays so. -/
structure Follows (path : CStr) (s : State) (event : Event) (s' : State) (copy copy' : ℤ × Placeholder) : Prop where
  kept : (s.opening = .returned 0 → copy.2 = .localFile) → ¬ Overwrites path s event →
    s'.opening = .returned 0 → copy'.2 = .localFile
  overwritten : Overwrites path s event → Overwritten s' copy'
  final : Overwritten s copy → Overwritten s' copy'

section System

variable {env : Env} {path : CStr} {flags : BitVec 32} {s s' : State}

/-- Both requests start on the entry. -/
theorem Starts.shares (h : Starts env path s) : ∃ addr copy, Shares path s addr copy := by
  obtain ⟨⟨session, hreached, hworld⟩, ⟨addr, pe, htable, hheap⟩, hgetattr, hopening⟩ := h
  have husable : pe.Usable := by
    rw [← hworld] at hheap
    exact ((Session.Reached.sound hreached).rewound addr pe hheap).usable
  refine ⟨addr, copyOf pe, htable, by rw [hheap, Option.map_some], husable, ?_, ?_, ?_, ?_⟩
  · intro a ha
    rw [hgetattr] at ha
    cases ha
  · intro a ha
    rw [hopening] at ha
    cases ha
  · intro hwaits
    rw [hgetattr] at hwaits
    cases hwaits
  · intro hopened
    rw [hopening] at hopened
    cases hopened

/-- A step of `dfs_getattr` on the entry. -/
theorem Shares.step_getattr {addr : ℕ} {copy : ℤ × Placeholder} {status : Status} {replies : GetattrReplies}
    (h : Shares path s addr copy) (hstep : step env path flags s (.getattr status replies) = .done s') :
    ∃ copy', Shares path s' addr copy' ∧ Follows path s (.getattr status replies) s' copy copy' := by
  obtain ⟨⟨next, w'⟩, hmoved, hdone⟩ := Exec.bind_eq_done.mp hstep
  obtain rfl := Exec.done.inj hdone
  obtain ⟨pe, hheap, rfl⟩ := Option.map_eq_some_iff.mp h.heap
  have hstores : Overwrites path s (.getattr status replies) ↔
      pe.ondisk = .localFile ∧ Stores path s.world pe s.getattr status replies := by
    constructor
    · rintro ⟨addr', pe', htable', hheap', hboth⟩
      obtain rfl : addr = addr' := Option.some.inj (h.table.symm.trans htable')
      obtain rfl : pe = pe' := Option.some.inj (hheap.symm.trans hheap')
      exact hboth
    · exact fun hboth => ⟨addr, pe, h.table, hheap, hboth⟩
  obtain ⟨htable, copy', hcopy, hmove⟩ := getattrStep_moves h.table hheap h.getattr hmoved
  have hreturned : ∀ {ret : ℤ} {copy'}, (w'.heap addr).map copyOf = some copy' → copy'.1 = pe.fd →
      Shares path { s with world := w', getattr := .returned ret } addr copy' := fun hcopy hfd =>
    ⟨by rw [htable, h.table], hcopy, by rw [hfd]; exact h.usable, (fun a ha => by cases ha), h.opening,
      (fun hwaits => by cases hwaits), fun hopened => by rw [hfd]; exact h.opened hopened⟩
  have hblocked : ∀ {ret}, s.getattr ≠ .returned ret := by
    intro ret hat
    rw [hat] at hmoved
    cases hmoved
  cases hmove with
  | waits hentry hfirst hnever =>
    refine ⟨copyOf pe, ⟨by rw [htable, h.table], hcopy, h.usable, ?_, h.opening, ?_, h.opened⟩, ?_, ?_, ?_⟩
    · intro a ha
      exact (Option.some.inj (hentry.symm.trans ha)).symm
    · intro _ hlocal
      by_cases hwaits : s.getattr.entry.isSome = true
      · exact h.waiting hwaits hlocal
      · have hunset := hfirst (by simpa using hwaits)
        rw [copyOf, hunset] at hlocal
        cases hlocal
    · exact fun hkept _ hopened => hkept hopened
    · exact fun hover => absurd (hstores.mp hover).2 hnever
    · rintro ⟨-, -, ret, hat⟩
      exact absurd hat hblocked
  | returns hnever =>
    refine ⟨copyOf pe, hreturned hcopy rfl, ?_, ?_, ?_⟩
    · exact fun hkept _ hopened => hkept hopened
    · exact fun hover => absurd (hstores.mp hover).2 hnever
    · rintro ⟨-, -, ret, hat⟩
      exact absurd hat hblocked
  | stores hstored =>
    refine ⟨_, hreturned hcopy rfl, ?_, ?_, ?_⟩
    · intro hkept hover hopened
      exact absurd (hstores.mpr ⟨hkept hopened, hstored⟩) hover
    · intro hover
      obtain ⟨addr', type, left, hat⟩ := hstored.waits
      have hopened := h.waiting (by rw [hat]; rfl) (hstores.mp hover).1
      exact ⟨rfl, hopened, _, rfl⟩
    · rintro ⟨-, -, ret, hat⟩
      exact absurd hat hblocked

/-- A step of `dfs_open` on the entry. -/
theorem Shares.step_opening {addr : ℕ} {copy : ℤ × Placeholder} {status : Status} {replies : OpenReplies}
    (h : Shares path s addr copy) (hstep : step env path flags s (.opening status replies) = .done s') :
    ∃ copy', Shares path s' addr copy' ∧ Follows path s (.opening status replies) s' copy copy' := by
  obtain ⟨⟨next, w'⟩, hmoved, hdone⟩ := Exec.bind_eq_done.mp hstep
  obtain rfl := Exec.done.inj hdone
  obtain ⟨pe, hheap, rfl⟩ := Option.map_eq_some_iff.mp h.heap
  obtain ⟨htable, copy', hcopy, hmove⟩ := openStep_moves h.table hheap h.usable h.opening hmoved
  have hblocked : s.opening ≠ .returned 0 := by
    intro hat
    rw [hat] at hmoved
    cases hmoved
  have hfollows : ∀ {next copy'}, (next = .returned 0 → copy'.2 = .localFile) →
      Follows path s (.opening status replies) { s with world := w', opening := next } (copyOf pe) copy' :=
    fun hlocal =>
    ⟨fun _ _ => hlocal, fun hover => hover.elim, fun hover => absurd hover.2.1 hblocked⟩
  have hwaits : s.getattr.entry.isSome = true → (copyOf pe).2 ≠ .localFile := fun hwaits hlocal =>
    hblocked (h.waiting hwaits hlocal)
  cases hmove with
  | waits hentry =>
    have hunfinished : next ≠ .returned 0 := by
      rintro rfl
      cases hentry
    refine ⟨copyOf pe, ⟨by rw [htable, h.table], hcopy, h.usable, h.getattr, ?_, ?_, ?_⟩, hfollows ?_⟩
    · exact fun a ha => (Option.some.inj (hentry.symm.trans ha)).symm
    · exact fun hwaiting hlocal => absurd hlocal (hwaits hwaiting)
    · exact fun hopened => absurd hopened hunfinished
    · exact fun hopened => absurd hopened hunfinished
  | fails =>
    refine ⟨copyOf pe, ⟨by rw [htable, h.table], hcopy, h.usable, h.getattr, ?_, ?_, ?_⟩, hfollows ?_⟩
    · exact fun a ha => by cases ha
    · exact fun hwaiting hlocal => absurd hlocal (hwaits hwaiting)
    · exact fun hopened => by cases hopened
    · exact fun hopened => by cases hopened
  | opens hfd =>
    refine ⟨_, ⟨by rw [htable, h.table], hcopy, .inr hfd, h.getattr, ?_, fun _ _ => rfl, fun _ => hfd⟩,
      hfollows fun _ => rfl⟩
    exact fun a ha => by cases ha

/-- A step of either request on the entry. -/
theorem Shares.step {addr : ℕ} {copy : ℤ × Placeholder} {event : Event} (h : Shares path s addr copy)
    (hstep : Overtaking.step env path flags s event = .done s') :
    ∃ copy', Shares path s' addr copy' ∧ Follows path s event s' copy copy' := by
  cases event with
  | getattr status replies => exact h.step_getattr hstep
  | opening status replies => exact h.step_opening hstep

/-- As long as nothing is overwritten, the entry is local once it was opened. -/
theorem inOrder_local (h : GuardedRuns.Reaches (step env path flags) (InOrder path) (Starts env path) s) :
    ∃ addr copy, Shares path s addr copy ∧ (s.opening = .returned 0 → copy.2 = .localFile) := by
  induction h with
  | start hs =>
    obtain ⟨addr, copy, hshares⟩ := hs.shares
    refine ⟨addr, copy, hshares, fun hopened => ?_⟩
    rw [hs.opening] at hopened
    cases hopened
  | step _ hguard hnext ih =>
    obtain ⟨addr, copy, hshares, hlocal⟩ := ih
    obtain ⟨copy', hshares', hfollows⟩ := hshares.step hnext
    exact ⟨addr, copy', hshares', hfollows.kept hlocal hguard⟩

/-- In every other run the entry ends up marked as remote. -/
theorem reached_overwritten (h : GuardedRuns.Reaches (step env path flags) GuardedRuns.unguarded (Starts env path) s) :
    ∃ addr copy, Shares path s addr copy ∧
      (GuardedRuns.Reaches (step env path flags) (InOrder path) (Starts env path) s ∨ Overwritten s copy) := by
  induction h with
  | start hs =>
    obtain ⟨addr, copy, hshares⟩ := hs.shares
    exact ⟨addr, copy, hshares, .inl (.start hs)⟩
  | @step s s' event _ _ hnext ih =>
    obtain ⟨addr, copy, hshares, hrun⟩ := ih
    obtain ⟨copy', hshares', hfollows⟩ := hshares.step hnext
    refine ⟨addr, copy', hshares', ?_⟩
    rcases hrun with hreached | hover
    · by_cases hovers : Overwrites path s event
      · exact .inr (hfollows.overwritten hovers)
      · exact .inl (.step hreached hovers hnext)
    · exact .inr (hfollows.final hover)

/-- A lookup of an entry that is local reports the cache file. -/
theorem State.Local.reports (h : s.Local path) : ReportsCopy env path s.world := by
  intro replies looked hroot hlook hret
  obtain ⟨addr, pe, htable, hheap, hlocal, hfd⟩ := h
  refine ⟨addr, pe, htable, hheap, ?_⟩
  simp only [dfsGetattr, if_neg hroot, htable, hheap] at hlook
  obtain ⟨inner, hinner, hdone⟩ := Exec.bind_eq_done.mp hlook
  obtain rfl := Exec.done.inj hdone
  simp only [getattrByPlaceholder, hlocal, getattrLocal, if_neg (not_lt.mpr hfd)] at hinner
  split at hinner
  · obtain rfl := Exec.done.inj hinner
    cases hret
  · rename_i st hstat
    obtain rfl := Exec.done.inj hinner
    exact hstat

/-- Once both have returned, the open with success, the entry is local with a descriptor exactly when the run is
one in which the lookup stored no metadata after the open had marked the entry; later lookups then report the
cache file. -/
theorem opened_stays_local_iff {ret : ℤ}
    (h : GuardedRuns.Reaches (Overtaking.step env path flags) GuardedRuns.unguarded (Starts env path) s)
    (_hgetattr : s.getattr = .returned ret) (hopening : s.opening = .returned 0) :
    (s.Local path ↔ GuardedRuns.Reaches (Overtaking.step env path flags) (InOrder path) (Starts env path) s) ∧
      (s.Local path → ReportsCopy env path s.world) := by
  refine ⟨⟨?_, ?_⟩, State.Local.reports⟩
  · rintro ⟨addr, pe, htable, hheap, hlocal, -⟩
    obtain ⟨addr', copy, hshares, hreached | hover⟩ := reached_overwritten h
    · exact hreached
    · obtain rfl : addr' = addr := Option.some.inj (hshares.table.symm.trans htable)
      have hcopy := hshares.heap
      rw [hheap] at hcopy
      obtain rfl := Option.some.inj hcopy
      have hremote : pe.ondisk = .remote := hover.1
      rw [hlocal] at hremote
      cases hremote
  · intro hinOrder
    obtain ⟨addr, copy, hshares, hlocal⟩ := inOrder_local hinOrder
    obtain ⟨pe, hheap, rfl⟩ := Option.map_eq_some_iff.mp hshares.heap
    exact ⟨addr, pe, hshares.table, hheap, hlocal hopening, hshares.opened hopening⟩

end System

/-- A store with one file that has metadata. -/
def described : Remote := (∅ : Remote).insert "/f".toList ⟨.reg, [7], some .new, none⟩

/-- The program after a lookup of the file that the service did not answer. -/
def unanswered : World :=
  match dfsGetattr .plain (.start .empty described) "/f".toList { GetattrReplies.granted with
    namei := fun _ => .failure } with
  | .done looked => looked.world
  | _ => .start .empty described

/-- A lookup and an open of the file, about to run. -/
def bothStart : State := ⟨unanswered, .start, .start⟩

/-- The file has an entry by then. -/
theorem bothStart_starts : Starts .plain "/f".toList bothStart where
  reached := ⟨⟨unanswered, []⟩, .step (i := .getattr "/f".toList { GetattrReplies.granted with
    namei := fun _ => .failure }) (.start (Session.start_initial .empty described)) trivial rfl, rfl⟩
  entry := ⟨0, _, rfl, rfl⟩
  getattr := rfl
  opening := rfl

/-- The requests go on in this order, `true` being the open, and all calls succeed. -/
def granted (order : List Bool) : List Event :=
  order.map fun second => if second then .opening .success (.granted 3) else .getattr .success .granted

/-- The lookup is answered before the open starts. -/
theorem opened_after_lookup :
    ∃ s, GuardedRuns.Reaches (step .plain "/f".toList oRdonly) GuardedRuns.unguarded
        (Starts .plain "/f".toList) s ∧ s.getattr = .returned 0 ∧ s.opening = .returned 0 ∧
      ((s.Local "/f".toList ↔ GuardedRuns.Reaches (step .plain "/f".toList oRdonly) (InOrder "/f".toList)
        (Starts .plain "/f".toList) s) ∧ (s.Local "/f".toList → ReportsCopy .plain "/f".toList s.world)) := by
  have hrun : ∃ s, GuardedRuns.run (step .plain "/f".toList oRdonly) (fun _ _ => true)
      (granted [false, false, false, true, true, true, true]) bothStart = .done s ∧
      s.getattr = .returned 0 ∧ s.opening = .returned 0 := ⟨_, rfl, rfl, rfl⟩
  obtain ⟨s, hrun, hgetattr, hopening⟩ := hrun
  have hreached := GuardedRuns.Reaches.run (fun _ _ _ => trivial) (.start bothStart_starts) hrun
  exact ⟨s, hreached, hgetattr, hopening, opened_stays_local_iff hreached hgetattr hopening⟩

/-- The whole open runs while the lookup waits for `dpl_getattr`: the entry ends up marked as remote. -/
theorem lookup_undoes_open :
    ∃ s, GuardedRuns.Reaches (step .plain "/f".toList oRdonly) GuardedRuns.unguarded
        (Starts .plain "/f".toList) s ∧ s.getattr = .returned 0 ∧ s.opening = .returned 0 ∧
      ¬ s.Local "/f".toList := by
  have hrun : ∃ s, GuardedRuns.run (step .plain "/f".toList oRdonly) (fun _ _ => true)
      (granted [false, false, true, true, true, true, false]) bothStart = .done s ∧
      s.getattr = .returned 0 ∧ s.opening = .returned 0 ∧
      ∃ pe, s.world.table "/f".toList = some 0 ∧ s.world.heap 0 = some pe ∧ pe.ondisk = .remote :=
    ⟨_, rfl, rfl, rfl, _, rfl, rfl, rfl⟩
  obtain ⟨s, hrun, hgetattr, hopening, pe, htable, hheap, hremote⟩ := hrun
  refine ⟨s, .run (fun _ _ _ => trivial) (.start bothStart_starts) hrun, hgetattr, hopening, ?_⟩
  rintro ⟨addr, pe', htable', hheap', hlocal, -⟩
  obtain rfl : 0 = addr := Option.some.inj (htable.symm.trans htable')
  obtain rfl : pe = pe' := Option.some.inj (hheap.symm.trans hheap')
  rw [hlocal] at hremote
  cases hremote

end Dropletfs.Overtaking
