import Dropletfs.FieldReads
import Dropletfs.Listings

/-!
# Fields that were set

Three kinds of request make entries, and `pentry_new` sets neither the type, the time nor the
digest. Which entries got a type and a time is recorded from the requests: `dfs_opendir` sets
the type of an entry that it makes, a lookup answered from the store sets the type, any lookup
that gets to an entry sets its time, and so does a worker of the smart cache. An entry carries
a type, or a time, exactly when this is on record.
-/

namespace Dropletfs

/-- The entries, by address, that got a type, and those that got a time. -/
structure FieldRecord where
  typed : List ℕ
  timed : List ℕ

/-- Nothing is on record. -/
def FieldRecord.start : FieldRecord := ⟨[], []⟩

/-- The address of the entry of a path, or of the entry made next. -/
def World.addrOf (w : World) (path : CStr) : ℕ := (w.table path).getD w.nextAddr

/-- `dfs_getattr` finds an entry for the path, or can make one. -/
def GetattrReplies.ReachesEntry (replies : GetattrReplies) (w : World) (path : CStr) : Prop :=
  path ≠ "/".toList ∧ (w.table path = none → replies.alloc = true ∧ replies.keyDup = true)

instance (replies : GetattrReplies) (w : World) (path : CStr) : Decidable (replies.ReachesEntry w path) :=
  inferInstanceAs (Decidable (_ ∧ _))

instance (replies : GetattrReplies) (env : Env) (r : Remote) (path : CStr) :
    Decidable (replies.Describes env r path) :=
  inferInstanceAs (Decidable (_ ∧ _ ∧ _))

/-- What a request puts on record. -/
def Session.noteFields (env : Env) (s : Session) (record : FieldRecord) : Op → FieldRecord
  | .getattr path replies =>
    if replies.ReachesEntry s.world path then
      { typed :=
          if s.world.unsetAt path = true ∧ replies.Describes env s.world.remote path then
            s.world.addrOf path :: record.typed
          else record.typed
        timed := s.world.addrOf path :: record.timed }
    else record
  | .opendir path replies =>
    if dfsOpendirTimeout env.conf.maxRetry replies.opendir = .success ∧ s.world.table path = none ∧
        replies.alloc = true ∧ replies.keyDup = true then
      { record with typed := s.world.nextAddr :: record.typed }
    else record
  | _ => record

/-- What an activity puts on record. -/
def Caching.noteFields (env : Env) (c : Caching) (a : Activity) (record : FieldRecord) : FieldRecord :=
  match a with
  | .request op => c.session.noteFields env record op
  | .visit _ _ => record
  | .update i replies =>
    match c.pool[i]? with
    | none => record
    | some addr =>
      match updateMd env c.session.world addr replies with
      | .done refreshed => { record with timed := refreshed.timed ++ record.timed }
      | _ => record

/-- The program with its smart cache, and the record. -/
abbrev Recording := Caching × FieldRecord

/-- The states reached by any activities, from nothing on record. -/
def Recording.Reached (env : Env) (sc : ScConf) : Recording → Prop :=
  GuardedRuns.Reaches (GuardedRuns.recorded (Caching.step env sc) fun c a _ => c.noteFields env a)
    GuardedRuns.unguarded fun t => t.1.Initial ∧ t.2 = .start

/-- The program started on these local files and this store. -/
def Recording.start (fs : LocalFs) (remote : Remote) : Recording := (⟨.start fs remote, []⟩, .start)

/-- It starts with nothing on record. -/
theorem Recording.start_reached {env : Env} {sc : ScConf} (fs : LocalFs) (remote : Remote) :
    (Recording.start fs remote).Reached env sc :=
  .start ⟨⟨Session.start_initial fs remote, rfl⟩, rfl⟩

/-- The record has the entry among those whose field was set. No digest is on record. -/
def FieldRecord.Has (record : FieldRecord) (read : FieldRead) : Prop :=
  match read.field with
  | .filetype => read.addr ∈ record.typed
  | .atime => read.addr ∈ record.timed
  | .digest => False

/-- The entries with a mark are those in a list, which names no address that was not handed out. -/
structure World.MarkedAt (w : World) (mark : Pentry → Bool) (addrs : List ℕ) : Prop where
  mem_iff : ∀ addr pe, w.heap addr = some pe → (mark pe = true ↔ addr ∈ addrs)
  lt : ∀ addr ∈ addrs, addr < w.nextAddr

namespace World.MarkedAt

variable {env : Env} {mark : Pentry → Bool} {addrs : List ℕ} {w w' : World}

/-- Entries that have come from marked ones, or from others, are so themselves. -/
theorem changed {R : Pentry → Pentry → Prop} (h : w.MarkedAt mark addrs) (hchanged : w.Changed R w')
    (hR : ∀ pe pe', R pe pe' → mark pe' = mark pe) : w'.MarkedAt mark addrs where
  mem_iff := by
    intro addr pe' hheap'
    obtain ⟨pe, hheap, hsame⟩ := hchanged.heap addr pe' hheap'
    rw [hR pe pe' hsame]
    exact h.mem_iff addr pe hheap
  lt := by
    rw [hchanged.nextAddr]
    exact h.lt

/-- A new entry without the mark. -/
theorem insert {path : CStr} {pe : Pentry} (h : w.MarkedAt mark addrs) (hpe : mark pe = false) :
    (w.insert path pe).2.MarkedAt mark addrs where
  mem_iff := by
    intro addr pe' hheap
    simp only [World.insert, Function.update_apply] at hheap
    split at hheap
    · rename_i haddr
      rw [← Option.some.inj hheap, hpe, haddr]
      exact ⟨fun hmark => (by cases hmark), fun hmem => absurd (h.lt _ hmem) (Nat.lt_irrefl _)⟩
    · exact h.mem_iff addr pe' hheap
  lt addr hmem := Nat.lt_succ_of_lt (h.lt addr hmem)

/-- A new entry with the mark. -/
theorem insert_marked {path : CStr} {pe : Pentry} (h : w.MarkedAt mark addrs) (hpe : mark pe = true) :
    (w.insert path pe).2.MarkedAt mark (w.nextAddr :: addrs) where
  mem_iff := by
    intro addr pe' hheap
    simp only [World.insert, Function.update_apply] at hheap
    rw [List.mem_cons]
    split at hheap
    · rename_i haddr
      rw [← Option.some.inj hheap]
      exact ⟨fun _ => .inl haddr, fun _ => hpe⟩
    · rename_i haddr
      rw [h.mem_iff addr pe' hheap, or_iff_right haddr]
  lt addr hmem := by
    rcases List.mem_cons.mp hmem with rfl | hold
    · exact Nat.lt_succ_self _
    · exact Nat.lt_succ_of_lt (h.lt addr hold)

/-- Some entries that are there get the mark. -/
theorem more {marked : List ℕ} (h : w.MarkedAt mark addrs) (hsound : w.Sound env) (hnext : w'.nextAddr = w.nextAddr)
    (halive : ∀ addr ∈ marked, (w.heap addr).isSome = true)
    (hheap : ∀ addr, (w'.heap addr).map mark = (w.heap addr).map fun pe => mark pe || decide (addr ∈ marked)) :
    w'.MarkedAt mark (marked ++ addrs) where
  mem_iff := by
    intro addr pe' hheap'
    have hmark := hheap addr
    rw [hheap', Option.map_some] at hmark
    obtain ⟨pe, hbefore, heq⟩ := Option.map_eq_some_iff.mp hmark.symm
    rw [← heq, Bool.or_eq_true, decide_eq_true_iff, h.mem_iff addr pe hbefore, List.mem_append, or_comm]
  lt addr hmem := by
    rw [hnext]
    rcases List.mem_append.mp hmem with hnew | hold
    · by_contra hge
      have hsome := halive addr hnew
      rw [hsound.fresh addr (by omega)] at hsome
      cases hsome
    · exact h.lt addr hold

end World.MarkedAt

/-- Entries carry a type, and a time, exactly when this is on record. -/
structure FieldRecord.Holds (record : FieldRecord) (w : World) : Prop where
  typed : w.MarkedAt (fun pe => pe.filetype.isSome) record.typed
  timed : w.MarkedAt (fun pe => pe.atime.isSome) record.timed

section Requests

variable {env : Env} {record : FieldRecord} {w w' : World} {path : CStr}

/-- Changes that keep types and times. -/
theorem FieldRecord.Holds.changed (h : record.Holds w) (hchanged : w.Changed Pentry.SameFields w') :
    record.Holds w' where
  typed := h.typed.changed hchanged fun pe pe' hsame => by rw [hsame.1]
  timed := h.timed.changed hchanged fun pe pe' hsame => by rw [hsame.2]

/-- A new entry as `dfs_create`, `dfs_open` and `dfs_getattr` make it. -/
theorem FieldRecord.Holds.added {dup : Bool} (h : record.Holds w) (hadded : w.Added path (.made path dup none) w') :
    record.Holds w' := by
  cases hadded with
  | same => exact h
  | more => exact ⟨h.typed.insert rfl, h.timed.insert rfl⟩

/-- A lookup gets to the entry of its path, or changes nothing. -/
theorem dfsGetattr_reaches {replies : GetattrReplies} {looked : Lookup}
    (h : dfsGetattr env w path replies = .done looked) :
    (¬ replies.ReachesEntry w path ∧ looked.world = w) ∨
      (replies.ReachesEntry w path ∧ ∃ w₁ pe looked₁, LookupEntry w path replies (w.addrOf path) w₁ ∧
        w₁.heap (w.addrOf path) = some pe ∧
        getattrByPlaceholder env w₁ (w.addrOf path) pe path .single replies = .done looked₁ ∧
        looked.world = looked₁.world.touch (w.addrOf path) replies.now) := by
  unfold dfsGetattr at h
  unfold World.addrOf
  simp only at h
  split at h
  · rename_i hroot
    obtain rfl := Exec.done.inj h
    exact .inl ⟨fun hreaches => hreaches.1 hroot, rfl⟩
  · rename_i hroot
    split at h
    · rename_i addr htable
      split at h
      · cases h
      · rename_i pe hheap
        obtain ⟨looked₁, hcall, hdone⟩ := Exec.bind_eq_done.mp h
        obtain rfl := Exec.done.inj hdone
        have hreaches : replies.ReachesEntry w path := ⟨hroot, fun hnone => by cases hnone.symm.trans htable⟩
        rw [htable]
        exact .inr ⟨hreaches, w, pe, looked₁, .found htable, hheap, hcall, rfl⟩
    · rename_i hnone
      split at h
      · rename_i halloc
        obtain rfl := Exec.done.inj h
        refine .inl ⟨fun hreaches => ?_, rfl⟩
        obtain ⟨hnew, hkey⟩ := hreaches.2 hnone
        rcases halloc with hfails | hfails
        · cases hnew.symm.trans hfails
        · cases hkey.symm.trans hfails
      · rename_i halloc
        simp only [not_or, Bool.not_eq_false] at halloc
        obtain ⟨looked₁, hcall, hdone⟩ := Exec.bind_eq_done.mp h
        obtain rfl := Exec.done.inj hdone
        have hreaches : replies.ReachesEntry w path := ⟨hroot, fun _ => halloc⟩
        rw [hnone]
        exact .inr ⟨hreaches, _, _, looked₁, .made hnone halloc.1 halloc.2, Function.update_self ..,
          hcall, rfl⟩

/-- A lookup hands out no address, and keeps the times, before it sets the time of its entry. -/
theorem PlaceholderOutcome.times {addr : ℕ} {pe : Pentry} {replies : GetattrReplies} {looked : Lookup}
    (h : PlaceholderOutcome w addr pe path replies looked) (hheap : w.heap addr = some pe) :
    looked.world.nextAddr = w.nextAddr ∧
      ∀ other, (looked.world.heap other).map Pentry.atime = (w.heap other).map Pentry.atime := by
  have hput : ∀ pe' other, pe'.atime = pe.atime →
      ((w.put addr pe').heap other).map Pentry.atime = (w.heap other).map Pentry.atime := by
    intro pe' other hsame
    by_cases hother : other = addr
    · rw [hother, World.put_heap_self, hheap, Option.map_some, Option.map_some, hsame]
    · rw [World.put_heap_ne _ _ hother]
  cases h with
  | kept => exact ⟨rfl, fun _ => rfl⟩
  | held => exact ⟨rfl, fun other => hput _ other rfl⟩
  | served =>
    refine ⟨(World.fillDirent_quiet ..).nextAddr, fun other => ?_⟩
    rw [World.fillDirent_map _ _ _ _ _ fun _ _ => rfl]
    exact hput _ other rfl

/-- The entry of a lookup is in the table already or made for the path. -/
theorem LookupEntry.added {replies : GetattrReplies} {addr : ℕ} (h : LookupEntry w path replies addr w') :
    w.Added path (.made path replies.pathDup none) w' := by
  cases h with
  | found => exact .same
  | made hnone => exact .more hnone

/-- A new entry leaves the table sound. -/
theorem World.Added.sound {dup : Bool} {filetype : Option Filetype} (hsound : w.Sound env)
    (hadded : w.Added path (.made path dup filetype) w') : w'.Sound env := by
  cases hadded with
  | same => exact hsound
  | more => exact hsound.insert ⟨rfl, rfl, rfl, rfl⟩

/-- Setting the time of an entry that is there. -/
theorem World.touch_times (w : World) (addr other : ℕ) (now : ℤ) :
    ((w.touch addr now).heap other).map (fun pe => pe.atime.isSome) =
      (w.heap other).map fun pe => pe.atime.isSome || decide (other ∈ [addr]) := by
  simp only [List.mem_singleton]
  unfold World.touch World.modify
  split
  · rename_i hnone
    by_cases hother : other = addr
    · rw [hother, hnone]
      rfl
    · simp only [hother, decide_false, Bool.or_false]
  · rename_i pe hheap
    by_cases hother : other = addr
    · rw [hother, World.put_heap_self, hheap]
      simp only [Option.map_some, Option.isSome_some, decide_true, Bool.or_true]
    · rw [World.put_heap_ne _ _ hother]
      simp only [hother, decide_false, Bool.or_false]

/-- A lookup puts on record what it sets. -/
theorem getattr_holds {s : Session} {replies : GetattrReplies} {looked : Lookup} (hsound : s.world.Sound env)
    (h : record.Holds s.world) (hcall : dfsGetattr env s.world path replies = .done looked) :
    (s.noteFields env record (.getattr path replies)).Holds looked.world := by
  rcases dfsGetattr_reaches hcall with ⟨hnot, hworld⟩ | ⟨hreaches, w₁, pe, looked₁, hentry, hheap, hbranch, hworld⟩
  · rw [Session.noteFields, if_neg hnot, hworld]
    exact h
  · rw [Session.noteFields, if_pos hreaches, hworld]
    have hsound₁ := hentry.added.sound hsound
    have hholds₁ := h.added hentry.added
    obtain ⟨-, htypes⟩ := getattrByPlaceholder_filetypes hheap hbranch
    obtain ⟨hnext, htimes⟩ := (getattrByPlaceholder_outcome hbranch).times hheap
    have hquiet := looked₁.world.touch_quiet (s.world.addrOf path) replies.now
    have hserved : (pe.ondisk = .unset ∧ looked₁.ret = 0) ↔
        s.world.unsetAt path = true ∧ replies.Describes env s.world.remote path := by
      rw [hentry.unsetAt_iff hheap, ← hentry.remote]
      refine and_congr_right fun hunset => ?_
      rw [getattrByPlaceholder, hunset] at hbranch
      exact getattrUnset_ret hbranch
    generalize s.world.addrOf path = addr at *
    constructor
    · -- the type, which is set when the lookup is answered from the store
      have hlist : (if s.world.unsetAt path = true ∧ replies.Describes env s.world.remote path then addr :: record.typed
          else record.typed) = (if pe.ondisk = .unset ∧ looked₁.ret = 0 then [addr] else []) ++ record.typed := by
        simp only [hserved]
        split <;> rfl
      rw [hlist]
      refine hholds₁.typed.more hsound₁ (hquiet.nextAddr.trans hnext) ?_ fun other => ?_
      · intro other hmem
        split at hmem
        · rw [List.mem_singleton.mp hmem, hheap]
          rfl
        · cases hmem
      · rw [World.touch_map _ _ _ _ _ fun _ _ => rfl]
        have htype := congrArg (Option.map Option.isSome) (htypes other)
        rw [Option.map_map] at htype
        refine htype.trans ?_
        by_cases hset : pe.ondisk = .unset ∧ looked₁.ret = 0
        · by_cases hother : other = addr
          · rw [if_pos ⟨hother, hset⟩, if_pos hset, hother, hheap]
            simp only [Option.map_some, Option.isSome_some, List.mem_singleton, decide_true, Bool.or_true]
          · rw [if_neg fun hboth => hother hboth.1, if_pos hset, Option.map_map]
            simp only [List.mem_singleton, hother, decide_false, Bool.or_false]
            rfl
        · rw [if_neg fun hboth => hset hboth.2, if_neg hset, Option.map_map]
          simp only [List.not_mem_nil, decide_false, Bool.or_false]
          rfl
    · -- the time, which is set in any case
      change World.MarkedAt _ _ ([addr] ++ record.timed)
      refine hholds₁.timed.more hsound₁ (hquiet.nextAddr.trans hnext) ?_ fun other => ?_
      · intro other hmem
        rw [List.mem_singleton.mp hmem, hheap]
        rfl
      · rw [World.touch_times]
        have htime := congrArg (Option.map fun atime => atime.isSome || decide (other ∈ [addr])) (htimes other)
        rwa [Option.map_map, Option.map_map] at htime

/-- `dfs_opendir` puts on record the type of an entry that it makes. -/
theorem opendir_holds {s : Session} {replies : OpendirReplies} (h : record.Holds s.world) :
    (s.noteFields env record (.opendir path replies)).Holds (dfsOpendir env s.world path replies).2 := by
  simp only [Session.noteFields]
  unfold dfsOpendir
  simp only
  by_cases hstatus : dfsOpendirTimeout env.conf.maxRetry replies.opendir = .success
  · rw [if_neg (not_not.mpr hstatus)]
    cases htable : s.world.table path with
    | some addr =>
      rw [if_neg fun hmade => by cases hmade.2.1]
      exact h
    | none =>
      by_cases halloc : replies.alloc = true ∧ replies.keyDup = true
      · have hgranted : ¬ (replies.alloc = false ∨ replies.keyDup = false) := by
          rw [halloc.1, halloc.2]
          decide
        rw [if_pos ⟨hstatus, rfl, halloc⟩, if_neg hgranted]
        exact ⟨h.typed.insert_marked rfl, h.timed.insert rfl⟩
      · have hfails : replies.alloc = false ∨ replies.keyDup = false := by
          cases hnew : replies.alloc <;> cases hkey : replies.keyDup <;> simp_all
        rw [if_neg fun hmade => halloc hmade.2.2, if_pos hfails]
        exact h
  · rw [if_pos hstatus, if_neg fun hmade => hstatus hmade.1]
    exact h

/-- One request keeps the record. -/
theorem Session.step_holds {s s' : Session} {op : Op} (hsound : s.world.Sound env) (h : record.Holds s.world)
    (hstep : s.step env op = .done s') : (s.noteFields env record op).Holds s'.world := by
  have hopening := sameFields_opening
  cases op with
  | getattr path replies =>
    obtain ⟨looked, hcall, hdone⟩ := Exec.bind_eq_done.mp hstep
    obtain rfl := Exec.done.inj hdone
    exact getattr_holds hsound h hcall
  | opendir path replies =>
    obtain rfl := Exec.done.inj hstep
    exact opendir_holds h
  | create path mode flags replies =>
    obtain ⟨created, hcall, hdone⟩ := Exec.bind_eq_done.mp hstep
    obtain rfl := Exec.done.inj hdone
    obtain ⟨w₁, hadded, hchanged⟩ := dfsCreate_changed hopening hsound hcall
    exact (h.added hadded).changed hchanged
  | «open» path flags replies =>
    obtain ⟨opened, hcall, hdone⟩ := Exec.bind_eq_done.mp hstep
    obtain rfl := Exec.done.inj hdone
    obtain ⟨w₁, hadded, hchanged⟩ := dfsOpen_changed hopening hsound hcall
    exact (h.added hadded).changed hchanged
  | mkdir | mknod | read | write | release | unlink | rmdir | rename | gc =>
    exact h.changed (Session.step_reduced hopening.toToleratesCounting hsound rfl hstep)

end Requests

/-- The table is sound, its entries are consistent, and what is on record holds of them. -/
structure Recording.Kept (env : Env) (t : Recording) : Prop where
  sound : t.1.session.world.Sound env
  consistent : ∀ addr pe, t.1.session.world.heap addr = some pe → pe.Consistent
  holds : t.2.Holds t.1.session.world

section Activities

variable {env : Env} {sc : ScConf} {t t' : Recording} {a : Activity}

/-- A worker keeps the record. -/
theorem Recording.Kept.update {refreshed : Refreshed} {pool : List ℕ} (h : t.Kept env)
    (hrefreshes : t.1.session.world.Refreshes refreshed) :
    Recording.Kept env (⟨{ t.1.session with world := refreshed.world }, pool⟩,
      { t.2 with timed := refreshed.timed ++ t.2.timed }) where
  sound := h.sound.quiet hrefreshes.quiet
  consistent := by
    intro addr pe' hheap'
    have hsame := hrefreshes.map_eq (fun pe => (pe.fd, pe.ondisk)) (fun _ => rfl) addr
    rw [hheap', Option.map_some] at hsame
    obtain ⟨pe, hheap, heq⟩ := Option.map_eq_some_iff.mp hsame.symm
    obtain ⟨hfd, hondisk⟩ := Prod.mk.inj heq
    have hpe := h.consistent addr pe hheap
    refine ⟨?_, ?_⟩
    · rw [Pentry.Usable, ← hfd]
      exact hpe.usable
    · rw [← hfd, ← hondisk]
      exact hpe.ondisk
  holds := by
    have hnext := hrefreshes.quiet.nextAddr
    constructor
    · change World.MarkedAt _ _ ([] ++ t.2.typed)
      refine h.holds.typed.more h.sound hnext (fun addr hmem => by cases hmem) fun addr => ?_
      rw [hrefreshes.map_eq (fun pe => pe.filetype.isSome) fun _ => rfl]
      simp only [List.not_mem_nil, decide_false, Bool.or_false]
    · exact h.holds.timed.more h.sound hnext hrefreshes.alive hrefreshes.atime

/-- One activity keeps the record. -/
theorem Caching.step_kept (h : t.Kept env) (hstep : t.1.step env sc a = .done t'.1)
    (hnote : t'.2 = t.1.noteFields env a t.2) : t'.Kept env := by
  obtain ⟨c, record⟩ := t
  obtain ⟨c', record'⟩ := t'
  simp only at hstep hnote
  subst hnote
  cases a with
  | request op =>
    obtain ⟨s, hcall, hdone⟩ := Exec.bind_eq_done.mp hstep
    obtain rfl := Exec.done.inj hdone
    exact ⟨Session.step_sound h.sound hcall, Session.step_consistent h.sound h.consistent hcall,
      Session.step_holds h.sound h.holds hcall⟩
  | visit path replies =>
    simp only [Caching.step] at hstep
    split at hstep
    · cases hstep
    · split at hstep
      · obtain rfl := Exec.done.inj hstep
        exact h
      · split at hstep
        · cases hstep
        · obtain rfl := Exec.done.inj hstep
          exact ⟨h.sound, h.consistent, h.holds⟩
  | update i replies =>
    simp only [Caching.step] at hstep
    simp only [Caching.noteFields]
    cases hpool : c.pool[i]? with
    | none =>
      rw [hpool] at hstep
      obtain rfl := Exec.done.inj hstep
      exact h
    | some addr =>
      rw [hpool] at hstep
      obtain ⟨refreshed, hcall, hdone⟩ := Exec.bind_eq_done.mp hstep
      obtain rfl := Exec.done.inj hdone
      simp only [hcall]
      exact h.update (updateMd_refreshes hcall)

/-- In every run, the record is kept. -/
theorem Recording.Reached.kept (h : t.Reached env sc) : t.Kept env := by
  refine GuardedRuns.Reaches.invariant (Recording.Kept env) ?_ ?_ h
  · rintro ⟨c, record⟩ ⟨⟨hinitial, -⟩, hstart⟩
    simp only at hinitial hstart
    subst hstart
    have hreached : c.session.Reached env GuardedRuns.unguarded := .start hinitial
    have hnone : ∀ addr pe, c.session.world.heap addr ≠ some pe := by
      intro addr pe hheap
      rw [hinitial.heap] at hheap
      cases hheap
    have hmarked : ∀ mark, c.session.world.MarkedAt mark [] := fun mark =>
      ⟨fun addr pe hheap => absurd hheap (hnone addr pe), fun addr hmem => absurd hmem List.not_mem_nil⟩
    exact ⟨hreached.sound, hreached.consistent, hmarked _, hmarked _⟩
  · intro t a t' _ hkept _ hstep
    obtain ⟨hnext, hnote⟩ := GuardedRuns.recorded_eq_done.mp hstep
    exact Caching.step_kept hkept hnext hnote

/-- A field that is read is no digest, and was set exactly when this is on record. -/
theorem Recording.Kept.written_iff {read : FieldRead} (h : t.Kept env) (hread : read ∈ t.1.fieldReads env sc a) :
    read.field ≠ .digest ∧ (read.Written ↔ t.2.Has read) := by
  cases a with
  | request op =>
    obtain ⟨hfield, pe, hheap, hsame⟩ := Session.fieldReads_before h.sound h.consistent hread
    unfold FieldRead.Written FieldRecord.Has
    rw [hfield, hsame]
    exact ⟨by decide, h.holds.typed.mem_iff read.addr pe hheap⟩
  | visit path replies =>
    simp only [Caching.fieldReads] at hread
    split at hread
    · cases hread
    · obtain ⟨addr, -, hfound⟩ := Option.bind_eq_some_iff.mp (Option.mem_toList.mp hread)
      obtain ⟨pe, hheap, rfl⟩ := Option.map_eq_some_iff.mp hfound
      exact ⟨Field.noConfusion, h.holds.timed.mem_iff addr pe hheap⟩
  | update i replies => cases hread

/-- `pentry_new` sets none of the three fields. Digests are never read. At any point of any run, the fields that
an activity reads were set if and only if this is on record for all of them. -/
theorem reads_written_iff (h : t.Reached env sc) (a : Activity) :
    (pentryNew.filetype = none ∧ pentryNew.atime = none ∧ pentryNew.digest = none) ∧
      (∀ read ∈ t.1.fieldReads env sc a, read.field ≠ .digest) ∧
      ((∀ read ∈ t.1.fieldReads env sc a, read.Written) ↔ ∀ read ∈ t.1.fieldReads env sc a, t.2.Has read) :=
  ⟨⟨rfl, rfl, rfl⟩, fun _ hread => (h.kept.written_iff hread).1,
    forall₂_congr fun _ hread => (h.kept.written_iff hread).2⟩

end Activities

/-- A store with a file in a directory. -/
def Remote.fileInDirectory : Remote :=
  ((∅ : Remote).insert "/d".toList ⟨.dir, [], none, none⟩).insert "/d/f".toList ⟨.reg, [65], none, none⟩

/-- A file is unlinked in an open directory, whose type is read. -/
def unlinkInDirectory : Activity := .request (.unlink "/d/f".toList ⟨fun _ => .granted, true, .reg⟩)

/-- `dfs_opendir` has set the type that is read when a file of the directory is unlinked. -/
theorem opened_directory_read :
    ∃ t : Recording, (t.1.fieldReads Env.plain .eager unlinkInDirectory).map FieldRead.field = [.filetype] ∧
      ∀ read ∈ t.1.fieldReads Env.plain .eager unlinkInDirectory, read.Written := by
  have hreached : ∃ t : Recording, t.Reached Env.plain .eager ∧ t.2.typed = [1, 0] ∧
      ∃ pe, t.1.fieldReads Env.plain .eager unlinkInDirectory = [⟨.filetype, 0, pe⟩] :=
    ⟨_, .step (i := .request (.getattr "/d/f".toList .granted))
      (.step (i := .request (.opendir "/d".toList .granted)) (Recording.start_reached .empty .fileInDirectory) trivial
        rfl) trivial rfl, rfl, _, rfl⟩
  obtain ⟨t, h, htyped, pe, hreads⟩ := hreached
  refine ⟨t, by rw [hreads]; rfl, (reads_written_iff h unlinkInDirectory).2.2.mpr fun read hread => ?_⟩
  rw [hreads] at hread
  rw [List.mem_singleton.mp hread, FieldRecord.Has, htyped]
  exact List.mem_cons_of_mem 1 List.mem_cons_self

/-- A lookup that fails makes an entry for the directory without a type, which is read when a file of the
directory is unlinked. `dfs_opendir` makes one without a time, which the next sweep reads. -/
theorem unset_fields_read :
    (∃ t : Recording, t.Reached Env.plain .eager ∧
      ∃ read ∈ t.1.fieldReads Env.plain .eager unlinkInDirectory, read.field = .filetype ∧ ¬ read.Written) ∧
    ∃ t : Recording, t.Reached Env.plain .eager ∧
      ∃ read ∈ t.1.fieldReads Env.plain .eager (.visit "/d".toList ⟨0, 0⟩), read.field = .atime ∧ ¬ read.Written := by
  constructor
  · exact ⟨_, .step (i := .request (.getattr "/d/f".toList .granted))
      (.step (i := .request (.getattr "/d".toList { GetattrReplies.granted with namei := fun _ => .failure }))
        (Recording.start_reached .empty .fileInDirectory) trivial rfl) trivial rfl,
      _, List.mem_cons_self, rfl, Bool.false_ne_true⟩
  · exact ⟨_, .step (i := .request (.opendir "/d".toList .granted))
      (Recording.start_reached .empty .fileInDirectory) trivial rfl, _, List.mem_cons_self, rfl, Bool.false_ne_true⟩

end Dropletfs
