import Dropletfs.CString
import Mathlib.Logic.Function.Basic

/-!
# The profile of the program's functions

Compiled for profiling, every function calls a hook when it is entered and another when it
returns. The hooks write a line to the profiling log and keep, for each function whose name
starts with `dfs_`, the number of its calls and the sum of their durations. The time of an
enter is kept in one variable of the thread, so a call that enters others is measured from the
last of these. But the hooks are static: the functions of other files call those of the C
library, which do nothing, and `profile.c` itself has no function whose name starts with `dfs_`.
-/

namespace Dropletfs

/-- `struct timeval`. -/
structure Timeval where
  sec : ℤ
  usec : ℤ
  deriving DecidableEq, Repr

/-- A reading of the clock in microseconds. -/
def Timeval.micros (tv : Timeval) : ℤ := tv.sec * 1000000 + tv.usec

/-- `time_diff`: a difference of unsigned 64-bit numbers, divided and converted to `int`. -/
def timeDiff (start stop : Timeval) : ℤ :=
  let start64 := BitVec.ofInt 64 start.micros
  let end64 := BitVec.ofInt 64 stop.micros
  (BitVec.ofNat 32 ((end64 - start64).toNat / 1000)).toInt

/-- Whole milliseconds from one reading to a later one. -/
def Timeval.millisTo (start stop : Timeval) : ℤ := (stop.micros - start.micros) / 1000

/-- The second reading is not before the first, and less than `2 ^ 31` milliseconds after it. -/
def Timeval.Before (start stop : Timeval) : Prop :=
  start.micros ≤ stop.micros ∧ stop.micros - start.micros < 2 ^ 31 * 1000

instance : DecidableRel Timeval.Before := fun _ _ => inferInstanceAs (Decidable (_ ∧ _))

/-- Between such readings `time_diff` is the number of whole milliseconds. -/
theorem timeDiff_eq {start stop : Timeval} (h : start.Before stop) : timeDiff start stop = start.millisTo stop := by
  obtain ⟨hle, hlt⟩ := h
  have hdiff : (BitVec.ofInt 64 stop.micros - BitVec.ofInt 64 start.micros).toNat =
      (stop.micros - start.micros).toNat := by
    rw [BitVec.toNat_sub, BitVec.toNat_ofInt, BitVec.toNat_ofInt]
    omega
  have hmillis : start.millisTo stop = (((stop.micros - start.micros).toNat / 1000 : ℕ) : ℤ) := by
    unfold Timeval.millisTo
    omega
  unfold timeDiff
  simp only
  rw [hdiff, hmillis, BitVec.toInt_eq_toNat_of_lt, BitVec.toNat_ofNat]
  · omega
  · rw [BitVec.toNat_ofNat]
    omega

/-- `struct sentry`. -/
structure Sentry where
  nCalls : BitVec 32
  sumDuration : BitVec 32

/-- The table of `sentry` entries, by the names of their functions. -/
abbrev Symbols := CStr → Option Sentry

namespace Symbols

/-- The insertion of a function that the table does not have yet. -/
def register (symbols : Symbols) (name : CStr) : Symbols :=
  match symbols name with
  | none => Function.update symbols name (some ⟨0, 0⟩)
  | some _ => symbols

/-- One more call of a function, if the table has it. -/
def count (symbols : Symbols) (name : CStr) (tdiff : ℤ) : Symbols :=
  match symbols name with
  | none => symbols
  | some se => Function.update symbols name (some ⟨se.nCalls + 1, se.sumDuration + BitVec.ofInt 32 tdiff⟩)

/-- The sum of durations kept for a function. -/
def sumOf (symbols : Symbols) (name : CStr) : BitVec 32 := ((symbols name).map Sentry.sumDuration).getD 0

variable {symbols : Symbols} {name : CStr}

/-- An insertion adds to no sum. -/
theorem register_sumOf (symbols : Symbols) (name other : CStr) :
    (symbols.register name).sumOf other = symbols.sumOf other := by
  unfold register
  split
  · rename_i hnone
    by_cases heq : other = name
    · rw [heq, sumOf, sumOf, hnone, Function.update_self]
      rfl
    · rw [sumOf, sumOf, Function.update_of_ne heq]
  · rfl

/-- A function is in the table after its insertion, and so is what was there. -/
theorem register_isSome {other : CStr} (h : name = other ∨ (symbols other).isSome = true) :
    ((symbols.register name) other).isSome = true := by
  cases hsymbol : symbols name with
  | none =>
    simp only [register, hsymbol]
    by_cases heq : other = name
    · rw [heq, Function.update_self]
      rfl
    · rw [Function.update_of_ne heq]
      exact h.resolve_left (Ne.symm heq)
  | some se =>
    simp only [register, hsymbol]
    rcases h with rfl | hsome
    · rw [hsymbol]
      rfl
    · exact hsome

/-- A call is added to the sum of its own function. -/
theorem count_sumOf (h : (symbols name).isSome = true) (tdiff : ℤ) (other : CStr) :
    (symbols.count name tdiff).sumOf other =
      symbols.sumOf other + if name = other then BitVec.ofInt 32 tdiff else 0 := by
  obtain ⟨se, hse⟩ := Option.isSome_iff_exists.mp h
  unfold count
  simp only [hse]
  by_cases heq : name = other
  · subst heq
    rw [sumOf, sumOf, Function.update_self, hse, if_pos rfl]
    rfl
  · rw [sumOf, sumOf, Function.update_of_ne (Ne.symm heq), if_neg heq]
    exact (BitVec.add_zero _).symm

/-- Counting takes nothing out of the table. -/
theorem count_isSome {other : CStr} (h : (symbols other).isSome = true) (tdiff : ℤ) :
    ((symbols.count name tdiff) other).isSome = true := by
  cases hsymbol : symbols name with
  | none =>
    simp only [count, hsymbol]
    exact h
  | some se =>
    simp only [count, hsymbol]
    by_cases heq : other = name
    · rw [heq, Function.update_self]
      rfl
    · rwa [Function.update_of_ne heq]

end Symbols

/-- A line of the profiling log. -/
inductive ProfileLine where
  | entered (now : Timeval) (depth : ℤ) (name : CStr)
  | exited (now : Timeval) (depth : ℤ) (name : CStr) (tdiff : ℤ)

/-- The variables of `profile.c`, as one thread sees them, and `conf->profiling`. The log is there once
`log_started` is set, and it is set once the log is there. -/
structure Profile where
  profiling : Bool
  fpLog : Option (List ProfileLine)
  depth : ℤ
  tvEnter : Timeval
  symbols : Symbols

/-- The functions of `profile.c` that are compiled to call the hooks. -/
def profileFunctions : List CStr :=
  ["sentry_new", "sentry_free", "profile_init", "cb_hash_report", "profile_fini"].map String.toList

/-- A function of the program: the file it is compiled from, and the symbol that `dladdr` finds for it, if any. -/
structure Func where
  file : CStr
  sname : Option CStr
  own : file = "profile.c".toList → ∀ name ∈ sname, name ∈ profileFunctions

/-- The hooks are static: only the functions of their own file call them. -/
def Func.hooked (fn : Func) : Bool := fn.file = "profile.c".toList

/-- An event on a thread: the function that is entered or left, and the clock. -/
inductive HookEvent where
  | enter (fn : Func) (now : Timeval)
  | exit (fn : Func) (now : Timeval)

/-- The clock at an event. -/
def HookEvent.now : HookEvent → Timeval
  | .enter _ now => now
  | .exit _ now => now

/-- The function of an event. -/
def HookEvent.fn : HookEvent → Func
  | .enter fn _ => fn
  | .exit fn _ => fn

/-- The name of a function that the hooks do not pass over. -/
def profiledName (sname : Option CStr) : Option CStr := sname.filter (strncasecmpEq "dfs_".toList)

namespace Profile

/-- `__cyg_profile_func_enter`. -/
def funcEnter (p : Profile) (sname : Option CStr) (now : Timeval) : Profile :=
  match p.fpLog with
  | none => p
  | some lines =>
    if p.profiling = false then p
    else
      match profiledName sname with
      | none => p
      | some name =>
        { p with
          tvEnter := now
          symbols := p.symbols.register name
          fpLog := some (lines ++ [.entered now p.depth name])
          depth := p.depth + 1 }

/-- `__cyg_profile_func_exit`. -/
def funcExit (p : Profile) (sname : Option CStr) (now : Timeval) : Profile :=
  match p.fpLog with
  | none => p
  | some lines =>
    if p.profiling = false then p
    else
      match profiledName sname with
      | none => p
      | some name =>
        let tdiff := timeDiff p.tvEnter now
        { p with
          depth := p.depth - 1
          fpLog := some (lines ++ [.exited now (p.depth - 1) name tdiff])
          symbols := p.symbols.count name tdiff }

/-- The hook of an event. -/
def hook (p : Profile) : HookEvent → Profile
  | .enter fn now => p.funcEnter fn.sname now
  | .exit fn now => p.funcExit fn.sname now

/-- The hooks of a sequence of events. -/
def run (p : Profile) (events : List HookEvent) : Profile := events.foldl hook p

/-- The sequence of events in the program, of which those of the functions that call the hooks reach them. -/
def runProgram (p : Profile) (events : List HookEvent) : Profile := p.run (events.filter fun event => event.fn.hooked)

/-- The durations reported in the log, with the functions they are reported for. -/
def reports (p : Profile) : List (CStr × ℤ) :=
  (p.fpLog.getD []).filterMap fun
    | .entered .. => none
    | .exited _ _ name tdiff => some (name, tdiff)

/-- Profiling is on, and the log is open. -/
structure Logging (p : Profile) : Prop where
  profiling : p.profiling = true
  started : p.fpLog.isSome = true

end Profile

/-- The calls made one after another on a thread, each with the calls made inside it. -/
inductive Nesting where
  | nil
  | call (fn : Func) (enter exit : Timeval) (inner rest : Nesting)

/-- A call of a function that is not passed over, with the last enter before its exit. -/
structure TimedCall where
  fn : Func
  name : CStr
  enter : Timeval
  exit : Timeval
  latest : Timeval

/-- The time between its own enter and its own exit. -/
def TimedCall.duration (call : TimedCall) : ℤ := call.enter.millisTo call.exit

/-- The time between the last enter before its exit and its exit. -/
def TimedCall.sinceLatest (call : TimedCall) : ℤ := call.latest.millisTo call.exit

namespace Nesting

/-- The events of nested calls, in order. -/
def events : Nesting → List HookEvent
  | nil => []
  | call fn enter exit inner rest => .enter fn enter :: (inner.events ++ .exit fn exit :: rest.events)

/-- The time of the last enter that is not passed over. -/
def latest : Nesting → Option Timeval
  | nil => none
  | call fn enter _ inner rest =>
    rest.latest.or (inner.latest.or ((profiledName fn.sname).map fun _ => enter))

/-- The calls that are not passed over, in the order of their exits. -/
def timed : Nesting → List TimedCall
  | nil => []
  | call fn enter exit inner rest =>
    inner.timed ++ ((profiledName fn.sname).map fun name => ⟨fn, name, enter, exit, inner.latest.getD enter⟩).toList ++
      rest.timed

/-- Some calls and then others. -/
def append : Nesting → Nesting → Nesting
  | nil, more => more
  | call fn enter exit inner rest, more => call fn enter exit inner (rest.append more)

/-- The calls of some functions only, with those made inside the calls of others in their place. -/
def restrict (keep : Func → Bool) : Nesting → Nesting
  | nil => nil
  | call fn enter exit inner rest =>
    if keep fn then call fn enter exit (inner.restrict keep) (rest.restrict keep)
    else (inner.restrict keep).append (rest.restrict keep)

/-- The readings of the clock never go back, and stay within `2 ^ 31` milliseconds. -/
def Ticking (nesting : Nesting) : Prop := (nesting.events.map HookEvent.now).Pairwise Timeval.Before

instance (nesting : Nesting) : Decidable nesting.Ticking := inferInstanceAs (Decidable (List.Pairwise ..))

end Nesting

namespace Profile

/-- The hooks pass over a function. -/
theorem hook_passed_over (p : Profile) (h : p.Logging) {event : HookEvent}
    (hname : profiledName event.fn.sname = none) : p.hook event = p := by
  obtain ⟨lines, hlines⟩ := Option.isSome_iff_exists.mp h.started
  cases event <;>
    simp only [hook, funcEnter, funcExit, hlines, h.profiling, Bool.true_eq_false, if_false] <;>
    simp only [HookEvent.fn] at hname <;> rw [hname]

/-- An enter keeps its time, has its function in the table, and reports nothing. -/
theorem hook_enter (p : Profile) (h : p.Logging) {fn : Func} {name : CStr}
    (hname : profiledName fn.sname = some name) (now : Timeval) :
    (p.hook (.enter fn now)).Logging ∧ (p.hook (.enter fn now)).tvEnter = now ∧
      (p.hook (.enter fn now)).symbols = p.symbols.register name ∧
      (p.hook (.enter fn now)).reports = p.reports := by
  obtain ⟨lines, hlines⟩ := Option.isSome_iff_exists.mp h.started
  have hhook : p.hook (.enter fn now) =
      { p with
        tvEnter := now
        symbols := p.symbols.register name
        fpLog := some (lines ++ [.entered now p.depth name])
        depth := p.depth + 1 } := by
    simp only [hook, funcEnter, hlines, h.profiling, Bool.true_eq_false, if_false, hname]
  rw [hhook]
  refine ⟨⟨h.profiling, rfl⟩, rfl, rfl, ?_⟩
  simp only [reports, hlines, Option.getD_some, List.filterMap_append, List.filterMap_cons, List.filterMap_nil,
    List.append_nil]

/-- An exit reports the time since the enter that is kept, and counts it. -/
theorem hook_exit (p : Profile) (h : p.Logging) {fn : Func} {name : CStr}
    (hname : profiledName fn.sname = some name) (now : Timeval) :
    (p.hook (.exit fn now)).Logging ∧ (p.hook (.exit fn now)).tvEnter = p.tvEnter ∧
      (p.hook (.exit fn now)).symbols = p.symbols.count name (timeDiff p.tvEnter now) ∧
      (p.hook (.exit fn now)).reports = p.reports ++ [(name, timeDiff p.tvEnter now)] := by
  obtain ⟨lines, hlines⟩ := Option.isSome_iff_exists.mp h.started
  have hhook : p.hook (.exit fn now) =
      { p with
        depth := p.depth - 1
        fpLog := some (lines ++ [.exited now (p.depth - 1) name (timeDiff p.tvEnter now)])
        symbols := p.symbols.count name (timeDiff p.tvEnter now) } := by
    simp only [hook, funcExit, hlines, h.profiling, Bool.true_eq_false, if_false, hname]
  rw [hhook]
  refine ⟨⟨h.profiling, rfl⟩, rfl, rfl, ?_⟩
  simp only [reports, hlines, Option.getD_some, List.filterMap_append, List.filterMap_cons, List.filterMap_nil]

end Profile

/-- What a call is reported with: the time since the last enter. -/
def TimedCall.reported (call : TimedCall) : CStr × ℤ := (call.name, timeDiff call.latest call.exit)

/-- What the calls add to the sum of a function. -/
def addedTo (name : CStr) (durations : List (CStr × ℤ)) : BitVec 32 :=
  (durations.map fun entry => if entry.1 = name then BitVec.ofInt 32 entry.2 else 0).sum

/-- Durations reported one after another add up. -/
theorem addedTo_append (name : CStr) (durations more : List (CStr × ℤ)) :
    addedTo name (durations ++ more) = addedTo name durations + addedTo name more := by
  simp only [addedTo, List.map_append, List.sum_append]

/-- A single duration counts for its own function. -/
theorem addedTo_singleton (name other : CStr) (duration : ℤ) :
    addedTo other [(name, duration)] = if name = other then BitVec.ofInt 32 duration else 0 :=
  BitVec.add_zero _

/-- What nested calls leave in the profile. -/
structure Profile.Profiled (p p' : Profile) (nesting : Nesting) : Prop where
  logging : p'.Logging
  tvEnter : p'.tvEnter = nesting.latest.getD p.tvEnter
  reports : p'.reports = p.reports ++ nesting.timed.map TimedCall.reported
  sums : ∀ name, p'.symbols.sumOf name = p.symbols.sumOf name + addedTo name (nesting.timed.map TimedCall.reported)
  symbols : ∀ name, (p.symbols name).isSome = true → (p'.symbols name).isSome = true

/-- The hooks of nested calls measure each call from the last enter before its exit. -/
theorem Profile.run_profiled (nesting : Nesting) {p : Profile} (h : p.Logging) :
    p.Profiled (p.run nesting.events) nesting := by
  induction nesting generalizing p with
  | nil => exact ⟨h, rfl, (List.append_nil _).symm, fun _ => (BitVec.add_zero _).symm, fun _ hsome => hsome⟩
  | call fn enter exit inner rest ihinner ihrest =>
    have hrun : p.run (Nesting.call fn enter exit inner rest).events =
        (((p.hook (.enter fn enter)).run inner.events).hook (.exit fn exit)).run rest.events := by
      simp only [run, Nesting.events, List.foldl_cons, List.foldl_append]
    rw [hrun]
    cases hname : profiledName fn.sname with
    | none =>
      have hinner := ihinner h
      have hrest := ihrest hinner.logging
      have henter : p.hook (.enter fn enter) = p := p.hook_passed_over h hname
      have hexit : (p.run inner.events).hook (.exit fn exit) = p.run inner.events :=
        Profile.hook_passed_over _ hinner.logging hname
      rw [henter, hexit]
      refine ⟨hrest.logging, ?_, ?_, fun name => ?_, fun name hsome => ?_⟩
      · rw [hrest.tvEnter, hinner.tvEnter, Nesting.latest, hname]
        cases rest.latest <;> cases inner.latest <;> rfl
      · rw [hrest.reports, hinner.reports, Nesting.timed, hname]
        simp only [Option.map_none, Option.toList_none, List.append_nil, List.map_append, List.append_assoc]
      · rw [hrest.sums, hinner.sums, Nesting.timed, hname]
        simp only [Option.map_none, Option.toList_none, List.append_nil, List.map_append, addedTo_append,
          BitVec.add_assoc]
      · exact hrest.symbols name (hinner.symbols name hsome)
    | some name =>
      obtain ⟨hentered, htime, hregister, hsilent⟩ := p.hook_enter h hname enter
      have hinner := ihinner hentered
      obtain ⟨hexited, hkept, hcount, hreport⟩ := Profile.hook_exit _ hinner.logging hname exit
      have hrest := ihrest hexited
      have hknown : ((p.symbols.register name) name).isSome = true := Symbols.register_isSome (.inl rfl)
      refine ⟨hrest.logging, ?_, ?_, fun other => ?_, fun other hsome => ?_⟩
      · rw [hrest.tvEnter, hkept, hinner.tvEnter, htime, Nesting.latest, hname]
        cases rest.latest <;> cases inner.latest <;> rfl
      · rw [hrest.reports, hreport, hinner.reports, hsilent, hinner.tvEnter, htime, Nesting.timed, hname]
        simp only [Option.map_some, Option.toList_some, List.map_append, List.map_cons, List.map_nil,
          List.append_assoc, TimedCall.reported]
      · rw [hrest.sums, hcount, Symbols.count_sumOf (hinner.symbols name (hregister ▸ hknown)), hinner.sums, hregister,
          Symbols.register_sumOf, hinner.tvEnter, htime, Nesting.timed, hname]
        simp only [Option.map_some, Option.toList_some, List.map_append, List.map_cons, List.map_nil,
          addedTo_append, addedTo_singleton, TimedCall.reported, BitVec.add_assoc]
      · apply hrest.symbols
        rw [hcount]
        apply Symbols.count_isSome
        apply hinner.symbols
        rw [hregister]
        exact Symbols.register_isSome (.inr hsome)

/-- The last enter is one of the events. -/
theorem Nesting.latest_mem (nesting : Nesting) {now : Timeval} (h : nesting.latest = some now) :
    now ∈ nesting.events.map HookEvent.now := by
  induction nesting with
  | nil => cases h
  | call fn enter exit inner rest ihinner ihrest =>
    simp only [events, List.map_cons, List.map_append, List.mem_cons, List.mem_append, HookEvent.now]
    rw [latest, Option.or_eq_some_iff, Option.or_eq_some_iff] at h
    rcases h with hrest | ⟨-, hinner | ⟨-, hown⟩⟩
    · exact .inr (.inr (.inr (ihrest hrest)))
    · exact .inr (.inl (ihinner hinner))
    · obtain ⟨_, -, rfl⟩ := Option.map_eq_some_iff.mp hown
      exact .inl rfl

/-- The last enter before an exit, and its own enter, are before it. -/
theorem Nesting.Ticking.before {nesting : Nesting} (h : nesting.Ticking) :
    ∀ call ∈ nesting.timed, call.latest.Before call.exit ∧ call.enter.Before call.exit := by
  induction nesting with
  | nil =>
    intro call hmem
    cases hmem
  | call fn enter exit inner rest ihinner ihrest =>
    unfold Ticking at h ihinner ihrest
    simp only [events, List.map_cons, List.map_append, List.pairwise_cons, List.pairwise_append, List.mem_append,
      List.mem_cons, HookEvent.now] at h
    obtain ⟨hfirst, hinner, ⟨hexit, hrest⟩, hacross⟩ := h
    intro call hmem
    simp only [timed, List.mem_append, Option.mem_toList, Option.map_eq_some_iff] at hmem
    rcases hmem with (hmem | ⟨name, -, rfl⟩) | hmem
    · exact ihinner hinner call hmem
    · have hown : enter.Before exit := hfirst exit (.inr (.inl rfl))
      refine ⟨?_, hown⟩
      cases hlatest : inner.latest with
      | none => exact hown
      | some now => exact hacross now (inner.latest_mem hlatest) exit (.inl rfl)
    · exact ihrest hrest call hmem

/-- What a call is reported with when the clock is well behaved. -/
theorem Nesting.Ticking.reported {nesting : Nesting} (h : nesting.Ticking) {call : TimedCall}
    (hmem : call ∈ nesting.timed) : call.reported = (call.name, call.sinceLatest) :=
  congrArg (Prod.mk call.name) (timeDiff_eq (h.before call hmem).1)

/-- What a call should be reported with: the time since its own enter. -/
def TimedCall.own (call : TimedCall) : CStr × ℤ := (call.name, call.duration)

/-- Every call is reported with its own duration, which is what is added to the sum of its function. -/
def Profile.Attributes (p p' : Profile) (nesting : Nesting) : Prop :=
  p'.reports = p.reports ++ nesting.timed.map TimedCall.own ∧
    ∀ name, p'.symbols.sumOf name = p.symbols.sumOf name + addedTo name (nesting.timed.map TimedCall.own)

section Restricted

variable {keep : Func → Bool}

/-- The events of some calls and then others. -/
theorem Nesting.append_events (nesting more : Nesting) :
    (nesting.append more).events = nesting.events ++ more.events := by
  induction nesting with
  | nil => rfl
  | call fn enter exit inner rest _ ihrest =>
    simp only [append, events, ihrest, List.cons_append, List.append_assoc]

/-- The last enter is one of those that follow, if there is one. -/
theorem Nesting.append_latest (nesting more : Nesting) :
    (nesting.append more).latest = more.latest.or nesting.latest := by
  induction nesting with
  | nil => exact (Option.or_none ..).symm
  | call fn enter exit inner rest _ ihrest => rw [append, latest, latest, ihrest, Option.or_assoc]

/-- The calls that are not passed over. -/
theorem Nesting.append_timed (nesting more : Nesting) : (nesting.append more).timed = nesting.timed ++ more.timed := by
  induction nesting with
  | nil => rfl
  | call fn enter exit inner rest _ ihrest => simp only [append, timed, ihrest, List.append_assoc]

/-- The events of the calls of some functions only. -/
theorem Nesting.restrict_events (nesting : Nesting) :
    (nesting.restrict keep).events = nesting.events.filter fun event => keep event.fn := by
  induction nesting with
  | nil => rfl
  | call fn enter exit inner rest ihinner ihrest =>
    cases hkeep : keep fn <;>
      simp [restrict, events, append_events, ihinner, ihrest, hkeep, HookEvent.fn]

/-- As many calls are not passed over as are calls of these functions. -/
theorem Nesting.restrict_timed_length (nesting : Nesting) :
    (nesting.restrict keep).timed.length = nesting.timed.countP fun call => keep call.fn := by
  induction nesting with
  | nil => rfl
  | call fn enter exit inner rest ihinner ihrest =>
    cases hkeep : keep fn <;> cases hname : profiledName fn.sname <;>
      simp [restrict, timed, append_timed, ihinner, ihrest, hkeep, hname]

/-- When all calls that are not passed over are of these functions, nothing that counts is left out. -/
theorem Nesting.restrict_timed (nesting : Nesting) (hkeep : ∀ call ∈ nesting.timed, keep call.fn = true) :
    (nesting.restrict keep).timed = nesting.timed ∧ (nesting.restrict keep).latest = nesting.latest := by
  induction nesting with
  | nil => exact ⟨rfl, rfl⟩
  | call fn enter exit inner rest ihinner ihrest =>
    simp only [timed, List.mem_append, Option.mem_toList] at hkeep
    obtain ⟨hinner, hinnerLatest⟩ := ihinner fun call hmem => hkeep call (.inl (.inl hmem))
    obtain ⟨hrest, hrestLatest⟩ := ihrest fun call hmem => hkeep call (.inr hmem)
    cases hname : profiledName fn.sname with
    | none =>
      cases hfn : keep fn <;>
        simp [restrict, timed, latest, append_timed, append_latest, hfn, hname, hinner, hrest, hinnerLatest,
          hrestLatest]
    | some name =>
      have hfn : keep fn = true := by
        refine hkeep ⟨fn, name, enter, exit, inner.latest.getD enter⟩ (.inl (.inr ?_))
        rw [hname]
        rfl
      simp [restrict, timed, latest, hfn, hname, hinner, hrest, hinnerLatest, hrestLatest]

end Restricted

/-- When the events of some functions reach the hooks, all durations are attributed exactly when every call is of such
a function and the last enter before its exit is as many milliseconds before it as its own enter. -/
theorem Profile.attributes_iff (keep : Func → Bool) (p : Profile) (nesting : Nesting) (hlogging : p.Logging)
    (hticking : nesting.Ticking) :
    p.Attributes (p.run (nesting.events.filter fun event => keep event.fn)) nesting ↔
      ∀ call ∈ nesting.timed, keep call.fn = true ∧ call.sinceLatest = call.duration := by
  rw [← Nesting.restrict_events]
  have hrun := p.run_profiled (nesting.restrict keep) hlogging
  have hcall : ∀ call ∈ nesting.timed, (call.reported = call.own ↔ call.sinceLatest = call.duration) := by
    intro call hmem
    rw [hticking.reported hmem, TimedCall.own, Prod.mk.injEq]
    exact and_iff_right rfl
  constructor
  · rintro ⟨hreports, -⟩
    rw [hrun.reports, List.append_cancel_left_eq] at hreports
    have hkeep : ∀ call ∈ nesting.timed, keep call.fn = true := by
      rw [← List.countP_eq_length, ← Nesting.restrict_timed_length]
      simpa only [List.length_map] using congrArg List.length hreports
    rw [(nesting.restrict_timed hkeep).1] at hreports
    exact fun call hmem => ⟨hkeep call hmem, (hcall call hmem).mp (List.map_inj_left.mp hreports call hmem)⟩
  · intro hall
    have hsame : (nesting.restrict keep).timed.map TimedCall.reported = nesting.timed.map TimedCall.own := by
      rw [(nesting.restrict_timed fun call hmem => (hall call hmem).1).1]
      exact List.map_inj_left.mpr fun call hmem => (hcall call hmem).mpr (hall call hmem).2
    exact ⟨by rw [hrun.reports, hsame], fun name => by rw [hrun.sums, hsame]⟩

/-- A call that is not passed over is one of a `dfs_` function. -/
theorem Nesting.timed_name (nesting : Nesting) :
    ∀ call ∈ nesting.timed, profiledName call.fn.sname = some call.name := by
  induction nesting with
  | nil =>
    intro call hmem
    cases hmem
  | call fn enter exit inner rest ihinner ihrest =>
    intro call hmem
    simp only [timed, List.mem_append, Option.mem_toList, Option.map_eq_some_iff] at hmem
    rcases hmem with (hmem | ⟨name, hname, rfl⟩) | hmem
    · exact ihinner call hmem
    · exact hname
    · exact ihrest call hmem

/-- No `dfs_` function calls the hooks, as `profile.c` has none. -/
theorem Func.hooked_eq_false {fn : Func} {name : CStr} (h : profiledName fn.sname = some name) : fn.hooked = false := by
  obtain ⟨hsname, hdfs⟩ := Option.filter_eq_some_iff.mp h
  have hnone : ∀ own ∈ profileFunctions, strncasecmpEq "dfs_".toList own = false := by decide
  refine decide_eq_false fun hfile => ?_
  rw [hnone name (fn.own hfile name hsname)] at hdfs
  cases hdfs

/-- In the program all durations are attributed exactly when no `dfs_` function is called. -/
theorem durations_own_iff (p : Profile) (nesting : Nesting) (hlogging : p.Logging) (hticking : nesting.Ticking) :
    p.Attributes (p.runProgram nesting.events) nesting ↔ nesting.timed = [] := by
  unfold Profile.runProgram
  rw [Profile.attributes_iff Func.hooked p nesting hlogging hticking, List.eq_nil_iff_forall_not_mem]
  refine forall_congr' fun call => ⟨fun h hmem => ?_, fun h hmem => absurd hmem h⟩
  have hhooked := (h hmem).1
  rw [Func.hooked_eq_false (nesting.timed_name call hmem)] at hhooked
  cases hhooked

/-- Profiling just started. -/
def Profile.fresh : Profile := ⟨true, some [], 1, ⟨0, 0⟩, fun _ => none⟩

/-- `dfs_open`. -/
def Func.dfsOpen : Func := ⟨"open.c".toList, some "dfs_open".toList, by decide⟩

/-- `dfs_open` takes a tenth of a second, and enters no other function. -/
def Nesting.opening : Nesting := .call .dfsOpen ⟨0, 900000⟩ ⟨1, 0⟩ .nil .nil

/-- It is not reported. -/
theorem opening_unreported :
    Profile.fresh.Logging ∧ Nesting.opening.Ticking ∧ (Profile.fresh.runProgram Nesting.opening.events).reports = [] ∧
      ¬ Profile.fresh.Attributes (Profile.fresh.runProgram Nesting.opening.events) .opening := by
  have hreports : (Profile.fresh.runProgram Nesting.opening.events).reports = [] := rfl
  refine ⟨⟨rfl, rfl⟩, by decide, hreports, fun hattributes => ?_⟩
  have hown := hattributes.1
  rw [hreports] at hown
  exact absurd hown (by decide)

/-- A sequence with that call in it is not attributed. -/
theorem opening_own :
    Profile.fresh.Attributes (Profile.fresh.runProgram Nesting.opening.events) .opening ↔ Nesting.opening.timed = [] :=
  durations_own_iff .fresh .opening ⟨rfl, rfl⟩ (by decide)

/-- `dfs_create` takes a second, and enters `dfs_open` a tenth of a second before its end. If their events reached the
hooks, it would be reported with a tenth of a second. -/
example : (Profile.fresh.run (Nesting.call ⟨"create.c".toList, some "dfs_create".toList, by decide⟩ ⟨0, 0⟩ ⟨1, 0⟩
    .opening .nil).events).reports = [("dfs_open".toList, 100), ("dfs_create".toList, 100)] := by decide

end Dropletfs
