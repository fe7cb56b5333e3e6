import Dropletfs.Attributes
import Mathlib.Data.Set.Basic

/-!
# Lookups that fail

`dfs_getattr` puts an entry for the path into the table before it asks the store about the path,
and leaves it there when the store does not know the path. The collector passes over such an
entry, since it has no descriptor.
-/

namespace Dropletfs

/-- The keys of the table and the state of every entry but that of the path are the same. -/
structure World.Undisturbed (w : World) (path : CStr) (w' : World) : Prop where
  keys : {key | w'.table key ≠ none} = {key | w.table key ≠ none}
  others : ∀ key addr, w.table key = some addr → w.table path ≠ some addr →
    w'.table key = some addr ∧ w'.heap addr = w.heap addr

/-- A lookup, or a visit of the collector. -/
inductive Probe where
  | getattr (path : CStr) (replies : GetattrReplies)
  | gc (path : CStr) (replies : GcReplies)

/-- A step of a run, with the states before and after it. -/
structure Probed where
  before : World
  probe : Probe
  after : World

/-- Runs in which every lookup fails, the collector visiting entries in between. -/
inductive FailedLookups (env : Env) : World → List Probed → World → Prop
  | nil {w : World} : FailedLookups env w [] w
  | getattr {w w' : World} {path : CStr} {replies : GetattrReplies} {looked : Lookup} {probes : List Probed} :
      dfsGetattr env w path replies = .done looked → looked.ret ≠ 0 →
      FailedLookups env looked.world probes w' →
      FailedLookups env w (⟨w, .getattr path replies, looked.world⟩ :: probes) w'
  | gc {w w₁ w' : World} {path : CStr} {replies : GcReplies} {probes : List Probed} :
      gcCallback env w path replies = .done w₁ → FailedLookups env w₁ probes w' →
      FailedLookups env w (⟨w, .gc path replies, w₁⟩ :: probes) w'

/-- A failed lookup leaves the table as it was, and the collector leaves an entry without descriptor. -/
def Probed.Kept : Probed → Prop
  | ⟨w, .getattr path _, w'⟩ => w.Undisturbed path w'
  | ⟨w, .gc path _, w'⟩ => ∀ pe, w.entry path = some pe → pe.fd = -1 → w'.table path = w.table path

/-- A lookup finds its path in the table, or cannot allocate an entry or its key. -/
def Probed.AddsNothing : Probed → Prop
  | ⟨w, .getattr path replies, _⟩ => w.table path ≠ none ∨ replies.alloc = false ∨ replies.keyDup = false
  | ⟨_, .gc .., _⟩ => True

section Steps

variable {env : Env} {w w' : World} {path : CStr} {replies : GetattrReplies} {looked : Lookup}

/-- A lookup that can allocate an entry puts a new one into the table if there is none. -/
theorem dfsGetattr_adds (hroot : path ≠ "/".toList) (hnone : w.table path = none)
    (halloc : ¬ (replies.alloc = false ∨ replies.keyDup = false))
    (h : dfsGetattr env w path replies = .done looked) :
    ∃ pe : Pentry, pe.Fresh ∧ (w.insert path pe).2.Quiet looked.world := by
  unfold dfsGetattr at h
  simp only [if_neg hroot, hnone, if_neg halloc] at h
  exact ⟨_, ⟨rfl, rfl, rfl, rfl⟩, (getattrEntry_quiet (Function.update_self ..) h).1⟩

/-- At the root no lookup fails. -/
theorem dfsGetattr_failed_path (h : dfsGetattr env w path replies = .done looked) (hret : looked.ret ≠ 0) :
    path ≠ "/".toList := by
  rintro rfl
  rw [dfsGetattr, if_pos rfl] at h
  obtain rfl := Exec.done.inj h
  exact hret rfl

/-- A lookup that fails without adding an entry changes its own entry at most. -/
theorem dfsGetattr_others (h : dfsGetattr env w path replies = .done looked) (hret : looked.ret ≠ 0)
    (hadds : w.table path ≠ none ∨ replies.alloc = false ∨ replies.keyDup = false) :
    looked.world.table = w.table ∧ ∀ addr, w.table path ≠ some addr → looked.world.heap addr = w.heap addr := by
  cases dfsGetattr_outcome h with
  | root => exact absurd rfl hret
  | noEntry => exact ⟨rfl, fun _ _ => rfl⟩
  | @entry addr w₁ pe looked₁ _ hentry hheap hcall =>
    cases hentry with
    | made hnone halloc hkey =>
      rcases hadds with htable | hfails | hfails
      · exact absurd hnone htable
      · rw [halloc] at hfails
        cases hfails
      · rw [hkey] at hfails
        cases hfails
    | found htable =>
      have houtcome := getattrByPlaceholder_outcome hcall
      refine ⟨(World.touch_quiet ..).table.trans houtcome.table, fun other hother => ?_⟩
      have hne : other ≠ addr := fun heq => hother (heq ▸ htable)
      have htouched : (looked₁.world.touch addr replies.now).heap other = looked₁.world.heap other := by
        unfold World.touch World.modify
        split
        · rfl
        · exact World.put_heap_ne _ _ hne
      rw [htouched]
      cases houtcome with
      | kept => rfl
      | held => exact World.put_heap_ne _ _ hne
      | served => exact absurd rfl hret

/-- A failed lookup leaves the table as it was exactly when it adds no entry. -/
theorem dfsGetattr_undisturbed_iff (h : dfsGetattr env w path replies = .done looked) (hret : looked.ret ≠ 0) :
    w.Undisturbed path looked.world ↔
      w.table path ≠ none ∨ replies.alloc = false ∨ replies.keyDup = false := by
  constructor
  · intro hkept
    by_contra hadds
    simp only [not_or, not_not] at hadds
    obtain ⟨pe, -, hquiet⟩ := dfsGetattr_adds (dfsGetattr_failed_path h hret) hadds.1 (not_or.mpr hadds.2) h
    have hkey : path ∈ {key | looked.world.table key ≠ none} := by
      rw [Set.mem_ofPred_eq, hquiet.table]
      simp [World.insert]
    rw [hkept.keys] at hkey
    exact hkey hadds.1
  · intro hadds
    obtain ⟨htable, hheap⟩ := dfsGetattr_others h hret hadds
    exact ⟨by rw [htable], fun key addr hkey hother => ⟨by rw [htable, hkey], hheap addr hother⟩⟩

variable {replies : GcReplies}

/-- The collector takes keys away at most, and not that of an entry without descriptor. -/
theorem gcCallback_table (h : gcCallback env w path replies = .done w') :
    w'.table = w.table ∨
      w'.table = Function.update w.table path none ∧ ∀ pe, w.entry path = some pe → pe.fd ≠ -1 := by
  cases gcCallback_outcome h with
  | untouched => exact .inl rfl
  | kept => exact .inl rfl
  | @collected addr pe htable hheap _ _ hfd =>
    refine .inr ⟨?_, fun pe' hentry => ?_⟩
    · unfold World.collect World.remove
      simp only [htable]
      unfold World.free
      split <;> rfl
    · rw [World.entry, htable, Option.bind_some, hheap] at hentry
      exact Option.some.inj hentry ▸ hfd

/-- An entry without descriptor stays. -/
theorem gcCallback_kept (h : gcCallback env w path replies = .done w') :
    (⟨w, .gc path replies, w'⟩ : Probed).Kept := by
  intro pe hentry hfd
  rcases gcCallback_table h with htable | ⟨-, hother⟩
  · rw [htable]
  · exact absurd hfd (hother pe hentry)

/-- The collector adds no key. -/
theorem gcCallback_keys (h : gcCallback env w path replies = .done w') {key : CStr} (hkey : w'.table key ≠ none) :
    w.table key ≠ none := by
  rcases gcCallback_table h with htable | ⟨htable, -⟩
  · rwa [htable] at hkey
  · rw [htable] at hkey
    intro hnone
    by_cases hsame : key = path
    · rw [hsame, Function.update_self] at hkey
      exact hkey rfl
    · rw [Function.update_of_ne hsame] at hkey
      exact hkey hnone

end Steps

section Runs

variable {env : Env} {w w' : World} {probes : List Probed}

/-- Each step of a run keeps what it should exactly when it adds no entry. -/
theorem FailedLookups.kept_iff (hrun : FailedLookups env w probes w') :
    ∀ probed ∈ probes, probed.Kept ↔ probed.AddsNothing := by
  induction hrun with
  | nil => simp
  | getattr hgetattr hret _ ih =>
    rw [List.forall_mem_cons]
    exact ⟨dfsGetattr_undisturbed_iff hgetattr hret, ih⟩
  | gc hgc _ ih =>
    rw [List.forall_mem_cons]
    exact ⟨iff_of_true (gcCallback_kept hgc) trivial, ih⟩

/-- A run whose lookups add no entry ends with no more keys than it started with. -/
theorem FailedLookups.keys (hrun : FailedLookups env w probes w') (hadds : ∀ probed ∈ probes, probed.AddsNothing)
    {key : CStr} (hkey : w'.table key ≠ none) : w.table key ≠ none := by
  induction hrun with
  | nil => exact hkey
  | getattr hgetattr hret _ ih =>
    rw [List.forall_mem_cons] at hadds
    have hmid := ih hadds.2 hkey
    rwa [(dfsGetattr_others hgetattr hret hadds.1).1] at hmid
  | gc hgc _ ih =>
    rw [List.forall_mem_cons] at hadds
    exact gcCallback_keys hgc (ih hadds.2 hkey)

/-- The table has an entry for the path, which has no descriptor unless it is destroyed. -/
structure World.Undescribed (w : World) (path : CStr) (addr : ℕ) : Prop where
  table : w.table path = some addr
  lt : addr < w.nextAddr
  fd : ∀ pe, w.heap addr = some pe → pe.fd = -1

namespace World.Undescribed

variable {path : CStr} {addr : ℕ}

/-- A new entry has no descriptor. -/
theorem of_insert {pe : Pentry} (hfresh : pe.Fresh) : (w.insert path pe).2.Undescribed path w.nextAddr where
  table := Function.update_self ..
  lt := Nat.lt_succ_self _
  fd pe' hheap := by
    simp only [World.insert, Function.update_self, Option.some.injEq] at hheap
    exact hheap ▸ hfresh.fd

/-- Quiet changes open nothing. -/
theorem quiet (h : w.Undescribed path addr) (hquiet : w.Quiet w') : w'.Undescribed path addr where
  table := by rw [hquiet.table, h.table]
  lt := by rw [hquiet.nextAddr]; exact h.lt
  fd pe' hheap := by
    obtain ⟨pe, hbefore, hcore⟩ := hquiet.heap_after hheap
    have hfd : pe'.fd = pe.fd := congrArg Core.fd hcore
    rw [hfd, h.fd pe hbefore]

/-- Entries for other paths are elsewhere. -/
theorem grown {other : CStr} (h : w.Undescribed path addr) (hgrown : w.Grown other w') : w'.Undescribed path addr := by
  cases hgrown with
  | same => exact h
  | more hnone _ =>
    have hother : path ≠ other := by
      rintro rfl
      rw [h.table] at hnone
      cases hnone
    refine ⟨?_, Nat.lt_succ_of_lt h.lt, fun pe hheap => h.fd pe ?_⟩
    · simp only [World.insert, Function.update_of_ne hother, h.table]
    · simpa only [World.insert, Function.update_of_ne (Nat.ne_of_lt h.lt)] using hheap

/-- The collector passes over the entry. -/
theorem gc {other : CStr} {replies : GcReplies} (h : w.Undescribed path addr)
    (hgc : gcCallback env w other replies = .done w') : w'.Undescribed path addr := by
  cases gcCallback_outcome hgc with
  | untouched => exact h
  | @kept addr' pe htable hheap =>
    refine ⟨h.table, h.lt, fun pe' hheap' => ?_⟩
    by_cases hsame : addr = addr'
    · subst hsame
      rw [World.put_heap_self] at hheap'
      obtain rfl := Option.some.inj hheap'
      exact h.fd pe hheap
    · rw [World.put_heap_ne _ _ hsame] at hheap'
      exact h.fd pe' hheap'
  | @collected addr' pe htable hheap _ _ hfd =>
    have hother : path ≠ other := by
      rintro rfl
      obtain rfl := Option.some.inj (htable.symm.trans h.table)
      exact hfd (h.fd pe hheap)
    simp only [World.collect, World.remove, htable, World.free, hheap]
    refine ⟨(Function.update_of_ne hother _ _).trans h.table, h.lt, fun pe' hheap' => ?_⟩
    by_cases hsame : addr = addr'
    · have hgone : Function.update w.heap addr' none addr = none := by rw [hsame, Function.update_self]
      cases hgone.symm.trans hheap'
    · exact h.fd pe' ((Function.update_of_ne hsame _ _).symm.trans hheap')

/-- So it stays for the rest of a run. -/
theorem run (h : w.Undescribed path addr) (hrun : FailedLookups env w probes w') : w'.Undescribed path addr := by
  induction hrun with
  | nil => exact h
  | getattr hgetattr _ _ ih =>
    obtain ⟨-, w₁, hgrown, hquiet⟩ := dfsGetattr_grown hgetattr
    exact ih ((h.grown hgrown).quiet hquiet)
  | gc hgc _ ih => exact ih (h.gc hgc)

end World.Undescribed

/-- What a failed lookup adds to the table is there at the end of the run. -/
theorem FailedLookups.added_stays (hrun : FailedLookups env w probes w') {w₀ w₁ : World} {path : CStr}
    {replies : GetattrReplies} (hprobed : ⟨w₀, .getattr path replies, w₁⟩ ∈ probes)
    (hadds : ¬ (⟨w₀, .getattr path replies, w₁⟩ : Probed).AddsNothing) : w'.table path ≠ none := by
  induction hrun with
  | nil => cases hprobed
  | getattr hgetattr hret hrest ih =>
    rcases List.mem_cons.mp hprobed with heq | hlater
    · cases heq
      obtain ⟨hnone, halloc⟩ := not_or.mp hadds
      obtain ⟨pe, hfresh, hquiet⟩ :=
        dfsGetattr_adds (dfsGetattr_failed_path hgetattr hret) (not_not.mp hnone) halloc hgetattr
      rw [(((World.Undescribed.of_insert hfresh).quiet hquiet).run hrest).table]
      exact Option.some_ne_none _
    · exact ih hlater
  | gc _ _ ih =>
    rcases List.mem_cons.mp hprobed with heq | hlater
    · cases heq
    · exact ih hlater

end Runs

/-- In a run of failed lookups each leaves the table as it was, and the table does not grow, exactly when no
lookup adds an entry. The collector always leaves the entries without descriptor. -/
theorem failed_lookups_iff {env : Env} {w w' : World} {probes : List Probed} (hrun : FailedLookups env w probes w') :
    (∀ probed ∈ probes, probed.Kept) ∧ (∀ key, w'.table key ≠ none → w.table key ≠ none) ↔
      ∀ probed ∈ probes, probed.AddsNothing := by
  constructor
  · intro h probed hprobed
    exact (hrun.kept_iff probed hprobed).mp (h.1 probed hprobed)
  · intro hadds
    refine ⟨fun probed hprobed => (hrun.kept_iff probed hprobed).mpr (hadds probed hprobed), fun key hkey => ?_⟩
    exact hrun.keys hadds hkey

/-- The state after the first lookup of a path that the store does not have. -/
def soughtOnce : World :=
  match dfsGetattr .plain (.start .empty ∅) "/x".toList .granted with
  | .done looked => looked.world
  | _ => .start .empty ∅

/-- When the path is looked up again and the collector visits it, nothing changes any more. -/
theorem sought_again_kept : ∃ probes w', FailedLookups .plain soughtOnce probes w' ∧ probes.length = 2 ∧
    (∀ probed ∈ probes, probed.Kept) ∧ ∀ key, w'.table key ≠ none → soughtOnce.table key ≠ none := by
  have hrun : FailedLookups .plain soughtOnce _ _ :=
    @FailedLookups.getattr .plain _ _ "/x".toList .granted _ _ rfl (by decide)
      (@FailedLookups.gc .plain _ _ _ "/x".toList ⟨true, none, 0, true, true⟩ _ rfl .nil)
  refine ⟨_, _, hrun, rfl, (failed_lookups_iff hrun).mpr ?_⟩
  rw [List.forall_mem_cons, List.forall_mem_cons]
  exact ⟨.inl (by decide), trivial, by simp⟩

/-- A lookup of a path that does not exist fails and leaves an entry behind. -/
theorem missing_path_added :
    ∃ looked, dfsGetattr .plain (.start .empty ∅) "/x".toList .granted = .done looked ∧ looked.ret ≠ 0 ∧
      (World.start .empty ∅).table "/x".toList = none ∧ looked.world.table "/x".toList ≠ none :=
  ⟨_, rfl, by decide, rfl, by decide⟩

end Dropletfs
