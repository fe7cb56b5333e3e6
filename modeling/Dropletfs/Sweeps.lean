import Dropletfs.Evolution

/-!
# Sweeps of the collector

When the semaphore can be posted and the mutex locked, the count of an entry is at least the
number of its open handles, whether or not other handles outlived their entries. The collector
takes the mutex of an entry whose count is zero and either destroys the entry or gives the
mutex back, without a look at whether giving it back succeeded.
-/

namespace Dropletfs

/-- `g_hash_table_foreach` with `gc_callback`: visits of some paths, in some order. -/
def gcSweep (env : Env) (w : World) : List (CStr × GcReplies) → Exec World
  | [] => .done w
  | visit :: visits => do
    let w ← gcCallback env w visit.1 visit.2
    gcSweep env w visits

/-- The semaphore can be posted and the mutex locked. -/
def Op.Holds : Op → Prop
  | .open _ _ replies => replies.semPost = true ∧ replies.lock = true
  | .create _ _ _ replies => replies.opening.semPost = true ∧ replies.opening.lock = true
  | _ => True

/-- The entries that are there count at least what is needed of them, and nothing is needed of addresses
that were not handed out. -/
structure World.Counts (need : ℕ → ℕ) (w : World) : Prop where
  le : ∀ addr pe, w.heap addr = some pe → need addr ≤ pe.refcount
  fresh : ∀ addr, w.nextAddr ≤ addr → need addr = 0

/-- What is needed of the entries that are there. -/
def World.needed (need : ℕ → ℕ) (w : World) : ℕ → ℕ := fun addr => if (w.heap addr).isSome then need addr else 0

section Counts

variable {env : Env} {need : ℕ → ℕ} {w w' : World}

/-- Entries that count what is needed support what is needed of those that are there. -/
theorem World.Counts.supports (h : w.Counts need) (hsound : w.Sound env) : w.Supports (w.needed need) where
  entry := by
    intro addr hpos
    unfold needed at hpos ⊢
    split at hpos
    · rename_i halive
      obtain ⟨pe, hheap⟩ := Option.isSome_iff_exists.mp halive
      rw [if_pos halive]
      exact ⟨pe, hheap, h.le addr pe hheap⟩
    · exact absurd hpos (Nat.lt_irrefl 0)
  fresh := hsound.fresh

/-- The other way round, for needs that are at most those supported. -/
theorem World.Supports.counts {need' : ℕ → ℕ} (h : w.Supports need')
    (hle : ∀ addr, (w.heap addr).isSome = true → need addr ≤ need' addr)
    (hfresh : ∀ addr, w.nextAddr ≤ addr → need addr = 0) : w.Counts need where
  le addr pe hheap := Nat.le_trans (hle addr (by rw [hheap]; rfl)) (h.le_refcount hheap)
  fresh := hfresh

/-- Changes that keep the counts keep what is counted. -/
theorem World.Counts.changed (h : w.Counts need) (hchanged : w.Changed (fun pe pe' => pe'.refcount = pe.refcount) w') :
    w'.Counts need where
  le := by
    intro addr pe' hheap'
    obtain ⟨pe, hheap, hsame⟩ := hchanged.heap addr pe' hheap'
    rw [hsame]
    exact h.le addr pe hheap
  fresh := by
    rw [hchanged.nextAddr]
    exact h.fresh

/-- A new entry is needed by nobody. -/
theorem World.Counts.added {path : CStr} {pe : Pentry} (h : w.Counts need) (hadded : w.Added path pe w') :
    w'.Counts need := by
  cases hadded with
  | same => exact h
  | more =>
    constructor
    · intro addr pe' hheap
      simp only [World.insert, Function.update_apply] at hheap
      split at hheap
      · rename_i haddr
        rw [h.fresh addr (by omega)]
        exact Nat.zero_le _
      · exact h.le addr pe' hheap
    · intro addr hle
      simp only [World.insert] at hle
      exact h.fresh addr (by omega)

/-- Taking paths out of lists keeps the counts. -/
theorem refcount_erasing : ToleratesErasing fun pe pe' : Pentry => pe'.refcount = pe.refcount where
  refl _ := rfl
  trans h₁ h₂ := h₂.trans h₁
  erased _ _ := rfl

/-- Lookups keep the counts. -/
theorem refcount_lookups : ToleratesLookups fun pe pe' : Pentry => pe'.refcount = pe.refcount where
  toToleratesErasing := refcount_erasing
  touched _ _ _ _ := rfl
  listed _ _ := rfl
  typed _ _ := rfl
  looked _ _ := rfl

/-- Opening destroys no entry, and what it adds is at a new address. -/
theorem dfsOpen_alive {path : CStr} {pe : Pentry} {w₁ : World} (hadded : w.Added path pe w₁)
    (hchanged : w₁.Changed (fun _ _ => True) w') :
    (∀ addr, (w'.heap addr).isSome = true → (w.heap addr).isSome = true ∨ w.nextAddr ≤ addr) ∧
      w.nextAddr ≤ w'.nextAddr := by
  constructor
  · intro addr halive
    obtain ⟨pe', hheap'⟩ := Option.isSome_iff_exists.mp halive
    obtain ⟨pe₁, hheap₁, -⟩ := hchanged.heap addr pe' hheap'
    cases hadded with
    | same => exact .inl (by rw [hheap₁]; rfl)
    | more =>
      simp only [World.insert, Function.update_apply] at hheap₁
      split at hheap₁
      · rename_i haddr
        exact .inr (by omega)
      · exact .inl (by rw [hheap₁]; rfl)
  · rw [hchanged.nextAddr]
    cases hadded with
    | same => exact Nat.le_refl _
    | more => exact Nat.le_succ _

/-- A successful open or create adds one handle, and the entry counts it. -/
theorem Session.opened_counts {s : Session} {path : CStr} {flags : BitVec 32} {opened : Opened}
    {pe : Pentry} {w₁ : World} (h : s.world.Counts s.holders) (hsound : opened.world.Sound env)
    (hadded : s.world.Added path pe w₁)
    (hchanged : w₁.Changed (fun _ _ => True) opened.world)
    (hsame : opened.world.Supports (s.world.needed s.holders))
    (hmore : ∀ addr, opened.fh = some addr → opened.ret = 0 →
      opened.world.Supports (oneMore (s.world.needed s.holders) addr)) :
    (s.opened path flags opened).world.Counts (s.opened path flags opened).holders := by
  obtain ⟨halive, hnext⟩ := dfsOpen_alive hadded hchanged
  have hneeded : ∀ addr, (opened.world.heap addr).isSome = true → s.holders addr ≤ s.world.needed s.holders addr := by
    intro addr hsome
    unfold World.needed
    split
    · exact Nat.le_refl _
    · rename_i hdead
      rw [h.fresh addr ((halive addr hsome).resolve_left hdead)]
  rcases s.holders_opened path flags opened with ⟨heq, -⟩ | ⟨addr, hret, hfh, heq⟩
  · rw [heq]
    exact hsame.counts hneeded fun addr hle => h.fresh addr (by have : opened.world.nextAddr ≤ addr := hle; omega)
  · rw [heq]
    have hsupports := hmore addr hfh hret
    have hlt : addr < opened.world.nextAddr := by
      obtain ⟨pe', hheap, -⟩ := hsupports.entry addr (by simp [oneMore])
      by_contra hge
      rw [hsound.fresh addr (by omega)] at hheap
      cases hheap
    refine hsupports.counts ?_ ?_
    · intro other hsome
      have hle := hneeded other hsome
      unfold oneMore
      by_cases hother : other = addr
      · subst hother
        simp only [Function.update_self]
        omega
      · simpa only [Function.update_of_ne hother] using hle
    · intro other hle
      have hge : opened.world.nextAddr ≤ other := hle
      rw [oneMore, Function.update_of_ne (by omega)]
      exact h.fresh other (by omega)

end Counts

/-- A release that returns has found the entry of its handle. -/
theorem dfsRelease_alive {env : Env} {w : World} {addr : ℕ} {path : CStr} {flags : BitVec 32}
    {replies : ReleaseReplies} {released : Released}
    (h : dfsRelease env w addr path flags replies = .done released) : (w.heap addr).isSome = true := by
  unfold dfsRelease at h
  split at h
  · cases h
  · rename_i hheap
    rw [hheap]
    rfl

/-- One request that can count keeps the handles counted. -/
theorem Session.step_counts {env : Env} {s s' : Session} {op : Op} (hsound : s.world.Sound env)
    (h : s.world.Counts s.holders) (hholds : op.Holds) (hstep : s.step env op = .done s') :
    s'.world.Counts s'.holders := by
  have hsound' := Session.step_sound hsound hstep
  have hsame : ∀ {w' : World}, s.world.Changed (fun pe pe' => pe'.refcount = pe.refcount) w' →
      w'.Counts s.holders := fun hchanged => h.changed hchanged
  cases op with
  | getattr path replies =>
    obtain ⟨looked, hcall, hdone⟩ := Exec.bind_eq_done.mp hstep
    obtain rfl := Exec.done.inj hdone
    obtain ⟨w₁, hadded, hchanged⟩ := dfsGetattr_changed refcount_lookups hcall
    exact (h.added hadded).changed hchanged
  | opendir path replies =>
    obtain rfl := Exec.done.inj hstep
    exact h.added (dfsOpendir_added env s.world path replies)
  | mkdir path replies =>
    obtain rfl := Exec.done.inj hstep
    exact hsame (.of_eq refcount_erasing rfl rfl rfl)
  | mknod path replies =>
    obtain rfl := Exec.done.inj hstep
    exact hsame (.of_eq refcount_erasing rfl rfl rfl)
  | create path mode flags replies =>
    obtain ⟨created, hcall, hdone⟩ := Exec.bind_eq_done.mp hstep
    obtain rfl := Exec.done.inj hdone
    obtain ⟨w₁, hadded, hchanged⟩ := dfsCreate_changed trivial_opening hsound hcall
    obtain ⟨hleast, hmore⟩ := dfsCreate_supports (h.supports hsound) hholds.1 (.inl hholds.2) hcall
    exact Session.opened_counts h (dfsCreate_sound hsound hcall) hadded hchanged hleast hmore
  | «open» path flags replies =>
    obtain ⟨opened, hcall, hdone⟩ := Exec.bind_eq_done.mp hstep
    obtain rfl := Exec.done.inj hdone
    obtain ⟨w₁, hadded, hchanged⟩ := dfsOpen_changed trivial_opening hsound hcall
    obtain ⟨hleast, hmore⟩ := dfsOpen_supports (h.supports hsound) hholds.1 hcall
    exact Session.opened_counts h (dfsOpen_sound hsound hcall) hadded hchanged hleast
      fun addr hfh hret => hmore addr hfh (.inl hret)
  | read i size offset replies =>
    simp only [Session.step] at hstep
    split at hstep
    · obtain rfl := Exec.done.inj hstep
      exact h
    · obtain ⟨_, -, hdone⟩ := Exec.bind_eq_done.mp hstep
      obtain rfl := Exec.done.inj hdone
      exact h
  | write i data offset replies =>
    simp only [Session.step] at hstep
    split at hstep
    · obtain rfl := Exec.done.inj hstep
      exact h
    · split at hstep
      · obtain rfl := Exec.done.inj hstep
        exact h
      · obtain ⟨⟨ret, w⟩, hcall, hdone⟩ := Exec.bind_eq_done.mp hstep
        obtain rfl := Exec.done.inj hdone
        exact hsame (dfsWrite_changed refcount_erasing hcall)
  | release i replies =>
    simp only [Session.step] at hstep
    split at hstep
    · obtain rfl := Exec.done.inj hstep
      exact h
    · rename_i handle hget
      obtain ⟨released, hcall, hdone⟩ := Exec.bind_eq_done.mp hstep
      obtain rfl := Exec.done.inj hdone
      obtain ⟨hother, hless⟩ := s.holders_eraseIdx released.world hget
      have hchanged := dfsRelease_changed trivial_opening.toToleratesCounting hcall
      generalize hneed : Session.holders ⟨released.world, s.handles.eraseIdx i⟩ = need at hother hless
      have halive := dfsRelease_alive hcall
      have hsupports : released.world.Supports (s.world.needed need) := by
        refine dfsRelease_supports (h.supports hsound) (fun other hne => ?_) ?_ hcall
        · simp only [World.needed, hother other hne]
        · simp only [World.needed, halive, if_true, hless]
      refine hsupports.counts (fun addr hsome => ?_) fun addr hle => ?_
      · obtain ⟨pe', hheap'⟩ := Option.isSome_iff_exists.mp hsome
        obtain ⟨pe, hheap, -⟩ := hchanged.heap addr pe' hheap'
        simp only [World.needed, hheap, Option.isSome_some, if_true]
        exact Nat.le_refl _
      · have hge : released.world.nextAddr ≤ addr := hle
        have hzero := h.fresh addr (by rw [← hchanged.nextAddr]; exact hge)
        by_cases haddr : addr = handle.addr
        · subst haddr
          omega
        · rw [hother addr haddr]
          exact hzero
  | unlink path replies =>
    obtain rfl := Exec.done.inj hstep
    exact hsame (dfsUnlink_changed refcount_erasing hsound path replies)
  | rmdir path replies =>
    obtain rfl := Exec.done.inj hstep
    exact hsame (dfsRmdir_changed refcount_erasing path replies)
  | rename depth ring old new replies =>
    obtain ⟨⟨ret, renamed⟩, hcall, hdone⟩ := Exec.bind_eq_done.mp hstep
    obtain rfl := Exec.done.inj hdone
    exact hsame (dfsRename_changed (s := ⟨s.world, ring⟩) refcount_erasing hsound hcall)
  | gc path replies =>
    obtain ⟨w, hcall, hdone⟩ := Exec.bind_eq_done.mp hstep
    obtain rfl := Exec.done.inj hdone
    exact hsame (gcCallback_changed refcount_erasing (fun _ _ => rfl) hsound hcall)

/-- In a run in which the semaphore can be posted and the mutex locked, the handles are counted. -/
theorem Session.Reached.counts {env : Env} {s : Session} (h : s.Reached env fun _ op => op.Holds) :
    s.world.Counts s.holders := by
  refine GuardedRuns.Reaches.invariant (fun s => s.world.Counts s.holders) ?_ ?_ h
  · intro s hs
    refine ⟨fun addr pe hheap => ?_, fun addr _ => ?_⟩
    · rw [hs.heap addr] at hheap
      cases hheap
    · simp [Session.holders, hs.handles]
  · intro s op s' hreached hs hholds hstep
    exact Session.step_counts (Session.Reached.sound hreached) hs hholds hstep

section Sweep

variable {env : Env} {w w' : World}

/-- What sweeps make of an entry: it stays as it is, or with its mutex held when giving that back failed;
or it is destroyed, and then it was unused, unlocked and had a descriptor. -/
inductive Swept (w' : World) (visits : List (CStr × GcReplies)) (path : CStr) (addr : ℕ) (pe : Pentry) : Prop
  | same : w'.table path = some addr → w'.heap addr = some pe → Swept w' visits path addr pe
  | locked : (∃ visit ∈ visits, visit.1 = path ∧ visit.2.unlock = false) → w'.table path = some addr →
      w'.heap addr = some { pe with locked := true } → Swept w' visits path addr pe
  | destroyed : w'.table path = none → w'.heap addr = none → pe.refcount = 0 → pe.locked = false → pe.fd ≠ -1 →
      Swept w' visits path addr pe

/-- One more visit allows for as much. -/
theorem Swept.visited {visits : List (CStr × GcReplies)} {path : CStr} {addr : ℕ} {pe : Pentry}
    (h : Swept w' visits path addr pe) (visit : CStr × GcReplies) : Swept w' (visit :: visits) path addr pe := by
  cases h with
  | same htable hheap => exact .same htable hheap
  | locked hfailed htable hheap =>
    obtain ⟨visit', hmem, hfailed⟩ := hfailed
    exact .locked ⟨visit', List.mem_cons_of_mem _ hmem, hfailed⟩ htable hheap
  | destroyed htable hheap hzero hfree hfd => exact .destroyed htable hheap hzero hfree hfd

/-- A visit leaves the entries of other paths alone. -/
theorem gcCallback_other {path other : CStr} {replies : GcReplies} {addr : ℕ} (hsound : w.Sound env)
    (hgc : gcCallback env w path replies = .done w') (hne : other ≠ path) (htable : w.table other = some addr) :
    w'.table other = some addr ∧ w'.heap addr = w.heap addr := by
  have hother : ∀ addr', w.table path = some addr' → addr ≠ addr' := by
    rintro addr' htable' rfl
    exact hne (hsound.table_inj other path addr htable htable')
  cases gcCallback_outcome hgc with
  | untouched => exact ⟨htable, rfl⟩
  | kept htable' => exact ⟨htable, World.put_heap_ne _ _ (hother _ htable')⟩
  | @collected addr' pe htable' hheap' =>
    simp only [World.collect, World.remove, htable', World.free, hheap']
    exact ⟨by rwa [Function.update_of_ne hne], Function.update_of_ne (hother addr' htable') ..⟩

/-- A visit leaves an entry as it is, keeps its mutex, or destroys it. -/
theorem gcCallback_swept {path : CStr} {replies : GcReplies} {addr : ℕ} {pe : Pentry}
    (hgc : gcCallback env w path replies = .done w') (htable : w.table path = some addr)
    (hheap : w.heap addr = some pe) : Swept w' [(path, replies)] path addr pe := by
  cases gcCallback_outcome hgc with
  | untouched => exact .same htable hheap
  | @kept addr' pe' htable' hheap' _ hfree =>
    obtain rfl := Option.some.inj (htable.symm.trans htable')
    obtain rfl := Option.some.inj (hheap.symm.trans hheap')
    cases hunlock : replies.unlock with
    | true =>
      refine .same htable (by rw [World.put_heap_self]; simp [← hfree])
    | false => exact .locked ⟨_, List.mem_singleton.mpr rfl, rfl, hunlock⟩ htable (by simp)
  | @collected addr' pe' htable' hheap' hzero hfree hfd =>
    obtain rfl := Option.some.inj (htable.symm.trans htable')
    obtain rfl := Option.some.inj (hheap.symm.trans hheap')
    refine .destroyed ?_ ?_ hzero hfree hfd
    · simp [World.collect, World.remove, htable', World.free, hheap']
    · simp [World.collect, World.remove, htable', World.free, hheap']

/-- A path without an entry does not get one, and an entry that is gone stays so. -/
theorem gcCallback_absent {path other : CStr} {replies : GcReplies} {addr : ℕ}
    (hgc : gcCallback env w path replies = .done w') (htable : w.table other = none) (hheap : w.heap addr = none) :
    w'.table other = none ∧ w'.heap addr = none := by
  cases gcCallback_outcome hgc with
  | untouched => exact ⟨htable, hheap⟩
  | kept _ hheap' =>
    refine ⟨htable, ?_⟩
    rw [World.put_heap_ne]
    · exact hheap
    · rintro rfl
      cases hheap.symm.trans hheap'
  | @collected addr' _ htable' hheap' =>
    have hne : addr ≠ addr' := by
      rintro rfl
      cases hheap.symm.trans hheap'
    simp only [World.collect, World.remove, htable', World.free, hheap']
    constructor
    · by_cases hother : other = path
      · rw [hother, Function.update_self]
      · rwa [Function.update_of_ne hother]
    · rwa [Function.update_of_ne hne]

/-- A sweep does not bring back an entry. -/
theorem gcSweep_absent {visits : List (CStr × GcReplies)} {other : CStr} {addr : ℕ}
    (hsweep : gcSweep env w visits = .done w') (htable : w.table other = none) (hheap : w.heap addr = none) :
    w'.table other = none ∧ w'.heap addr = none := by
  induction visits generalizing w with
  | nil =>
    obtain rfl := Exec.done.inj hsweep
    exact ⟨htable, hheap⟩
  | cons visit visits ih =>
    obtain ⟨w₁, hvisit, hrest⟩ := Exec.bind_eq_done.mp hsweep
    obtain ⟨htable₁, hheap₁⟩ := gcCallback_absent hvisit htable hheap
    exact ih hrest htable₁ hheap₁

/-- A locked entry is left alone by a sweep. -/
theorem gcSweep_locked {visits : List (CStr × GcReplies)} {path : CStr} {addr : ℕ} {pe : Pentry}
    (hsound : w.Sound env) (hsweep : gcSweep env w visits = .done w') (htable : w.table path = some addr)
    (hheap : w.heap addr = some pe) (hlocked : pe.locked = true) :
    w'.table path = some addr ∧ w'.heap addr = some pe := by
  induction visits generalizing w with
  | nil =>
    obtain rfl := Exec.done.inj hsweep
    exact ⟨htable, hheap⟩
  | cons visit visits ih =>
    obtain ⟨w₁, hvisit, hrest⟩ := Exec.bind_eq_done.mp hsweep
    have hsound₁ := gcCallback_sound hsound hvisit
    have hkept : w₁.table path = some addr ∧ w₁.heap addr = some pe := by
      by_cases hpath : path = visit.1
      · subst hpath
        cases gcCallback_outcome hvisit with
        | untouched => exact ⟨htable, hheap⟩
        | kept htable' hheap' _ hfree =>
          obtain rfl := Option.some.inj (htable.symm.trans htable')
          obtain rfl := Option.some.inj (hheap.symm.trans hheap')
          cases hlocked.symm.trans hfree
        | collected htable' hheap' _ hfree =>
          obtain rfl := Option.some.inj (htable.symm.trans htable')
          obtain rfl := Option.some.inj (hheap.symm.trans hheap')
          cases hlocked.symm.trans hfree
      · obtain ⟨htable₁, hheap₁⟩ := gcCallback_other hsound hvisit hpath htable
        exact ⟨htable₁, hheap₁.trans hheap⟩
    exact ih hsound₁ hrest hkept.1 hkept.2

/-- A sweep, in whatever order it visits the entries, leaves each of them as it is, keeps its mutex after a
failed unlock, or destroys it for good. -/
theorem gcSweep_swept {visits : List (CStr × GcReplies)} {path : CStr} {addr : ℕ} {pe : Pentry}
    (hsound : w.Sound env) (hsweep : gcSweep env w visits = .done w') (htable : w.table path = some addr)
    (hheap : w.heap addr = some pe) : Swept w' visits path addr pe := by
  induction visits generalizing w with
  | nil =>
    obtain rfl := Exec.done.inj hsweep
    exact .same htable hheap
  | cons visit visits ih =>
    obtain ⟨w₁, hvisit, hrest⟩ := Exec.bind_eq_done.mp hsweep
    have hsound₁ := gcCallback_sound hsound hvisit
    by_cases hpath : path = visit.1
    · subst hpath
      cases gcCallback_swept hvisit htable hheap with
      | same htable₁ hheap₁ => exact (ih hsound₁ hrest htable₁ hheap₁).visited visit
      | locked hfailed htable₁ hheap₁ =>
        obtain ⟨htable', hheap'⟩ := gcSweep_locked hsound₁ hrest htable₁ hheap₁ rfl
        refine .locked ?_ htable' hheap'
        obtain ⟨visit', hmem, hfailed⟩ := hfailed
        obtain rfl := List.mem_singleton.mp hmem
        exact ⟨_, List.mem_cons_self, hfailed⟩
      | destroyed htable₁ hheap₁ hzero hfree hfd =>
        obtain ⟨htable', hheap'⟩ := gcSweep_absent hrest htable₁ hheap₁
        exact .destroyed htable' hheap' hzero hfree hfd
    · obtain ⟨htable₁, hheap₁⟩ := gcCallback_other hsound hvisit hpath htable
      exact (ih hsound₁ hrest htable₁ (hheap₁.trans hheap)).visited visit

/-- A visit always ends. -/
theorem gcCallback_done (hpresent : w.Present) (path : CStr) (replies : GcReplies) :
    ∃ w', gcCallback env w path replies = .done w' := by
  unfold gcCallback
  cases htable : w.table path with
  | none => exact ⟨w, rfl⟩
  | some addr =>
    obtain ⟨pe, hheap⟩ := hpresent path addr htable
    simp only [hheap]
    split
    · exact ⟨w, rfl⟩
    · split
      · exact ⟨w, rfl⟩
      · exact ⟨_, rfl⟩

/-- A visit keeps an entry for every path. -/
theorem gcCallback_present {path : CStr} {replies : GcReplies} (hsound : w.Sound env) (hpresent : w.Present)
    (hgc : gcCallback env w path replies = .done w') : w'.Present :=
  @Session.step_present env ⟨w, []⟩ ⟨w', []⟩ (.gc path replies) hsound hpresent
    (Exec.bind_eq_done.mpr ⟨w', hgc, rfl⟩)

/-- A sweep always ends. -/
theorem gcSweep_done (hsound : w.Sound env) (hpresent : w.Present) (visits : List (CStr × GcReplies)) :
    ∃ w', gcSweep env w visits = .done w' := by
  induction visits generalizing w with
  | nil => exact ⟨w, rfl⟩
  | cons visit visits ih =>
    obtain ⟨w₁, hvisit⟩ := gcCallback_done hpresent visit.1 visit.2
    obtain ⟨w', hrest⟩ := ih (gcCallback_sound hsound hvisit) (gcCallback_present hsound hpresent hvisit)
    exact ⟨w', Exec.bind_eq_done.mpr ⟨w₁, hvisit, hrest⟩⟩

end Sweep

/-- In every run in which the semaphore can be posted and the mutex locked, the entries of the table count
their open handles, so that giving one back does not wait; and a sweep, whatever it visits, keeps the entries
that have an open handle, a held mutex or no descriptor, and changes nothing in those it keeps but the mutex
that it could not give back. -/
theorem reached_sweep_keeps {env : Env} {s : Session} (h : s.Reached env fun _ op => op.Holds) :
    (∀ path addr, s.world.table path = some addr → ∃ pe, s.world.heap addr = some pe ∧
      s.holders addr ≤ pe.refcount ∧ (0 < s.holders addr → ∀ semWait, pe.decRefcount semWait ≠ .blocked)) ∧
    ∀ visits, ∃ w', gcSweep env s.world visits = .done w' ∧
      ∀ path addr pe, s.world.table path = some addr → s.world.heap addr = some pe →
        Swept w' visits path addr pe ∧
        (0 < s.holders addr ∨ pe.locked = true ∨ pe.fd = -1 → w'.table path = some addr) := by
  have hsound := h.sound
  have hcounts := h.counts
  constructor
  · intro path addr htable
    obtain ⟨pe, hheap⟩ := h.present path addr htable
    have hle := hcounts.le addr pe hheap
    refine ⟨pe, hheap, hle, fun hopen semWait => ?_⟩
    cases semWait with
    | false => simp [Pentry.decRefcount]
    | true =>
      have hne : pe.refcount ≠ 0 := by omega
      simp [Pentry.decRefcount, hne]
  · intro visits
    obtain ⟨w', hsweep⟩ := gcSweep_done hsound h.present visits
    refine ⟨w', hsweep, fun path addr pe htable hheap => ?_⟩
    have hswept := gcSweep_swept hsound hsweep htable hheap
    refine ⟨hswept, fun hused => ?_⟩
    cases hswept with
    | same htable' => exact htable'
    | locked _ htable' => exact htable'
    | destroyed _ _ hzero hfree hfd =>
      have hle := hcounts.le addr pe hheap
      rcases hused with hopen | hlocked | hnone
      · omega
      · cases hlocked.symm.trans hfree
      · exact absurd hnone hfd

/-- A visit whose calls all succeed, some time after the file times. -/
def GcReplies.granted (now : ℤ) : GcReplies := ⟨true, some ⟨0, 0, 0⟩, now, true, true⟩

/-- An open file survives a sweep after a long time. -/
theorem reached_sweep_keeps_open :
    ∃ s : Session, (∃ addr, s.world.table "/f".toList = some addr ∧ 0 < s.holders addr) ∧
      ∃ w', gcSweep Env.plain s.world [("/f".toList, .granted 1000000)] = .done w' ∧
        (w'.table "/f".toList).isSome = true := by
  have hreached : ∃ s : Session, (∃ addr, s.world.table "/f".toList = some addr ∧ 0 < s.holders addr) ∧
      s.Reached Env.plain fun _ op => op.Holds := by
    refine ⟨_, ?_, GuardedRuns.Reaches.step (s := .start .empty (.file "/f".toList [65]))
      (i := .open "/f".toList oRdonly (.granted 3)) (.start (Session.start_initial ..)) ⟨rfl, rfl⟩ rfl⟩
    exact ⟨0, rfl, by decide⟩
  obtain ⟨s, ⟨addr, htable, hopen⟩, h⟩ := hreached
  obtain ⟨hcounts, hsweeps⟩ := reached_sweep_keeps h
  obtain ⟨pe, hheap, -⟩ := hcounts _ _ htable
  obtain ⟨w', hsweep, hkept⟩ := hsweeps [("/f".toList, .granted 1000000)]
  exact ⟨s, ⟨addr, htable, hopen⟩, w', hsweep, by rw [(hkept _ _ _ htable hheap).2 (.inl hopen)]; rfl⟩

/-- An entry that a lookup made, whose mutex the collector takes and cannot give back, stays locked. -/
theorem sweep_leaves_locked :
    ∃ s : Session, s.Reached Env.plain (fun _ op => op.Holds) ∧
      ∃ visits w', gcSweep Env.plain s.world visits = .done w' ∧
        ∃ path addr pe, s.world.table path = some addr ∧ s.world.heap addr = some pe ∧
          w'.table path = some addr ∧ w'.heap addr ≠ some pe := by
  refine ⟨_, GuardedRuns.Reaches.step (s := .start .empty ((∅ : Remote).insert "/d".toList ⟨.dir, [], none, none⟩))
    (i := .opendir "/d".toList ⟨fun _ => .success, true, true, true⟩)
    (.start (Session.start_initial ..)) trivial rfl,
    [("/d".toList, { GcReplies.granted 0 with unlock := false })], _, rfl, "/d".toList, 0, _, rfl, rfl, rfl, ?_⟩
  intro h
  exact absurd (congrArg Pentry.locked (Option.some.inj h)) (by decide)

end Dropletfs
