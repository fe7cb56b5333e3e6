import Dropletfs.SmartCache

/-!
# Limits computed in `int`

Two limits are products that the program keeps in an `int`: the age from which an excluded
file is collected, and the estimated size of the table. Both products can leave the range of
the type, and what is compared then is the product less a multiple of `2 ^ 32`. The age is
added to the times of a file as `time_t`s, whose sums can leave their range as well.
-/

namespace Dropletfs

/-- The time at which the first of the three times of a file is a threshold ago, as a `time_t` holds it. -/
def Stat.deadline (st : Stat) (threshold : ℤ) : ℤ :=
  min (timeT (st.atime + threshold)) (min (timeT (st.mtime + threshold)) (timeT (st.ctime + threshold)))

/-- A file is too old from its deadline on. -/
theorem Stat.expired_iff (st : Stat) (threshold now : ℤ) :
    st.expired threshold now = true ↔ st.deadline threshold ≤ now := by
  unfold expired deadline
  rw [decide_eq_true_eq]
  omega

/-- The threshold of an excluded file, as an `int` holds it. -/
def Conf.tenfoldThreshold (conf : Conf) : ℤ := Int.bmod (conf.gcAgeThreshold * 10) (2 ^ 32)

/-- `gc_callback` leaves the entry of a path in the table, and its cache file alone. -/
def World.KeepsEntry (env : Env) (w : World) (path : CStr) (replies : GcReplies) : Prop :=
  ∃ w', gcCallback env w path replies = .done w' ∧ w'.table path = w.table path ∧ w'.fs = w.fs

/-- The entry that the table holds for a path is neither referenced nor locked. -/
structure World.Unused (w : World) (path : CStr) (addr : ℕ) (pe : Pentry) (replies : GcReplies) : Prop where
  table : w.table path = some addr
  heap : w.heap addr = some pe
  refcount : pe.refcount = 0
  locked : pe.locked = false
  trylock : replies.trylock = true

/-- Collecting an entry takes it out of the table. -/
theorem World.collect_table (w : World) (conf : Conf) {path : CStr} {addr : ℕ} (unlinkReply : Bool)
    (h : w.table path = some addr) : (w.collect conf path unlinkReply).table path = none := by
  unfold collect remove free
  simp only [h]
  split <;> exact Function.update_self ..

namespace World.Unused

variable {w : World} {path : CStr} {addr : ℕ} {pe : Pentry} {replies : GcReplies}

/-- The entry is kept exactly when it has no descriptor, or one to a file that is not too old. -/
theorem keeps_iff (h : w.Unused path addr pe replies) (env : Env) :
    w.KeepsEntry env path replies ↔
      pe.fd = -1 ∨ ∃ st, w.fs.fstat pe.fd replies.fstat = some st ∧
        replies.now < st.deadline (pe.gcThreshold env.conf) := by
  have hcall : gcCallback env w path replies = .done (gcExamine env w path addr pe replies) := by
    unfold gcCallback
    simp only [h.table, h.heap, h.refcount, h.locked, h.trylock, ne_eq, not_true_eq_false, if_false,
      Bool.false_eq_true, Bool.true_eq_false, or_self]
  have hgone : ∀ w', gcCallback env w path replies = .done w' →
      gcExamine env w path addr pe replies = w.collect env.conf path replies.unlinkCache →
      w'.table path ≠ w.table path := by
    intro w' hw' hcollected heq
    rw [hcall, hcollected] at hw'
    rw [← Exec.done.inj hw', w.collect_table env.conf _ h.table, h.table] at heq
    cases heq
  unfold gcExamine at hcall hgone
  simp only at hcall hgone
  by_cases hfd : pe.fd = -1
  · rw [if_pos hfd] at hcall
    exact ⟨fun _ => .inl hfd, fun _ => ⟨_, hcall, rfl, rfl⟩⟩
  · rw [if_neg hfd] at hcall hgone
    cases hstat : w.fs.fstat pe.fd replies.fstat with
    | none =>
      simp only [hstat, forall_const] at hgone
      constructor
      · rintro ⟨w', hw', htable, -⟩
        exact absurd htable (hgone w' hw')
      · rintro (hfd' | ⟨st, hst, -⟩)
        · exact absurd hfd' hfd
        · cases hst
    | some st =>
      simp only [hstat] at hcall hgone
      by_cases hexpired : st.expired (pe.gcThreshold env.conf) replies.now = true
      · rw [if_pos hexpired] at hgone
        have hold := (st.expired_iff _ _).mp hexpired
        constructor
        · rintro ⟨w', hw', htable, -⟩
          exact absurd htable (hgone w' hw' rfl)
        · rintro (hfd' | ⟨st', hst', hrecent⟩)
          · exact absurd hfd' hfd
          · obtain rfl := Option.some.inj hst'
            omega
      · rw [if_neg hexpired] at hcall
        have hrecent := mt (st.expired_iff _ _).mpr hexpired
        exact ⟨fun _ => .inr ⟨st, rfl, by omega⟩, fun _ => ⟨_, hcall, rfl, rfl⟩⟩

/-- The entry as it is when its path is excluded or not. -/
theorem withExclude (h : w.Unused path addr pe replies) (exclude : Bool) :
    (w.put addr { pe with exclude := exclude }).Unused path addr { pe with exclude := exclude } replies where
  table := h.table
  heap := World.put_heap_self ..
  refcount := h.refcount
  locked := h.locked
  trylock := h.trylock

end World.Unused

/-- An entry that is kept when its path is not excluded is kept when it is, exactly when its file is not
between the two deadlines: too old for the product that an `int` holds, and not for the plain threshold. -/
theorem excluded_kept_iff (env : Env) (w : World) (path : CStr) (addr : ℕ) (pe : Pentry) (replies : GcReplies)
    (h : w.Unused path addr pe replies) :
    ((w.put addr { pe with exclude := false }).KeepsEntry env path replies →
        (w.put addr { pe with exclude := true }).KeepsEntry env path replies) ↔
      ∀ st, pe.fd ≠ -1 → w.fs.fstat pe.fd replies.fstat = some st →
        ¬ (st.deadline env.conf.tenfoldThreshold ≤ replies.now ∧
          replies.now < st.deadline env.conf.gcAgeThreshold) := by
  rw [(h.withExclude false).keeps_iff env, (h.withExclude true).keeps_iff env]
  simp only [Pentry.gcThreshold, Bool.false_eq_true, if_false, if_true, World.put_fs]
  rw [← Conf.tenfoldThreshold]
  constructor
  · rintro himp st hfd hst ⟨hold, hrecent⟩
    rcases himp (.inr ⟨st, hst, by omega⟩) with hfd' | ⟨st', hst', hrecent'⟩
    · exact hfd hfd'
    · obtain rfl := Option.some.inj (hst.symm.trans hst')
      omega
  · rintro hbetween (hfd | ⟨st, hst, hrecent⟩)
    · exact .inl hfd
    · by_cases hfd : pe.fd = -1
      · exact .inl hfd
      · have hnot := hbetween st hfd hst
        exact .inr ⟨st, hst, by omega⟩

/-- A local file under the name of the cache file of `/f`, open on the descriptor 3. -/
def LocalFs.holdingFile : LocalFs :=
  (LocalFs.empty.create Env.plain.proc (cacheName Env.plain.conf "/f".toList) 0o600#32).bind 3 0 true

/-- The entry of `/f` with that descriptor. -/
def Pentry.holdingFile : Pentry := { pentryNew with fd := 3, path := some "/f".toList, flag := .clean }

/-- A table with that entry. -/
def World.holdingFile : World where
  __ := World.start .holdingFile ∅
  heap := Function.update (fun _ => none) 0 (some .holdingFile)
  table := Function.update (fun _ => none) "/f".toList (some 0)
  nextAddr := 1

/-- Every call succeeds, and the file was used a hundred seconds ago. -/
def GcReplies.recent : GcReplies := ⟨true, some ⟨1000000000, 1000000000, 1000000000⟩, 1000000100, true, true⟩

/-- Nobody uses that entry. -/
theorem World.holdingFile_unused : World.holdingFile.Unused "/f".toList 0 .holdingFile .recent :=
  ⟨rfl, rfl, rfl, rfl, rfl⟩

/-- Files are collected when they were not used for some nine years. -/
def Env.patient : Env := { Env.plain with conf := { Env.plain.conf with gcAgeThreshold := 300000000 } }

/-- With that setting a file used a hundred seconds ago is kept, and collected if it is excluded. -/
theorem excluded_collected :
    (0 ≤ Env.patient.conf.gcAgeThreshold ∧ Env.patient.conf.gcAgeThreshold < 2 ^ 31) ∧
      World.holdingFile.Unused "/f".toList 0 .holdingFile .recent ∧
      (World.holdingFile.put 0 { Pentry.holdingFile with exclude := false }).KeepsEntry .patient "/f".toList .recent ∧
      ¬ (World.holdingFile.put 0 { Pentry.holdingFile with exclude := true }).KeepsEntry .patient "/f".toList
        .recent := by
  have h := World.holdingFile_unused
  refine ⟨by decide, h, ?_, ?_⟩
  · rw [(h.withExclude false).keeps_iff]
    exact .inr ⟨_, rfl, by decide⟩
  · rw [(h.withExclude true).keeps_iff]
    rintro (hfd | ⟨st, hst, hrecent⟩)
    · cases hfd
    · obtain rfl := Option.some.inj hst
      exact absurd hrecent (by decide)

/-- With the default threshold the tenfold one is larger, and the file is kept, excluded or not. -/
theorem excluded_kept_default :
    (World.holdingFile.put 0 { Pentry.holdingFile with exclude := false }).KeepsEntry .plain "/f".toList .recent ∧
      (World.holdingFile.put 0 { Pentry.holdingFile with exclude := true }).KeepsEntry .plain "/f".toList .recent := by
  have hplain : (World.holdingFile.put 0 { Pentry.holdingFile with exclude := false }).KeepsEntry .plain "/f".toList
      .recent :=
    ((World.holdingFile_unused.withExclude false).keeps_iff .plain).mpr (.inr ⟨_, rfl, by decide⟩)
  refine ⟨hplain, (excluded_kept_iff .plain .holdingFile "/f".toList 0 .holdingFile .recent
    ⟨rfl, rfl, rfl, rfl, rfl⟩).mpr (fun st _ hst => ?_) hplain⟩
  obtain rfl := Option.some.inj hst
  decide

/-- A table with an entry for each of the paths `/0`, `/1` and so on. -/
def World.crowded (n : ℕ) : World where
  __ := World.start .empty ∅
  heap addr := if addr < n then some { pentryNew with path := some ('/' :: decimal addr), atime := some 0 } else none
  table path :=
    let i := leadingDigits path.tail
    if path = '/' :: decimal i ∧ i < n then some i else none
  nextAddr := n

end Dropletfs
