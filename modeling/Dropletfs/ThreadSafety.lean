import Dropletfs.ThreadMoves

/-!
# Entries that several threads share

The collector drops an entry whose count it has read as zero and whose mutex it has locked. When it does so in time,
before anyone has counted the entry and while nobody is between looking it up and counting it, no party ever uses an
entry that was destroyed: the count of an entry is the number of the parties that have counted it, and its mutex is
held by at most one.
-/

namespace Dropletfs

namespace Threads

open Overtaking (OpenAt GetattrAt)

section System

variable {ι : Type} [Fintype ι] [DecidableEq ι] {env : Env} {path : ι → CStr} {flags : ι → BitVec 32} {s s' : State ι}

/-- What the parties have of the entries. -/
def leases (flags : ι → BitVec 32) (s : State ι) (i : ι) : Leases.Lease ℕ := lease (flags i) (s.at_ i)

/-- The semaphores are in order, a handle for reading can be examined when it is released, no entry is inserted over
another, and the collector removes an entry in time: its count is still zero, and nobody else has looked it up without
having counted or locked it, be it to open it, to read its attributes or to visit it. -/
def Timely (path : ι → CStr) (flags : ι → BitVec 32) (s : State ι) : ι × Input → Prop
  | (i, .opening _ replies) => Opens (path i) s.world (s.at_ i) replies
  | (i, .release replies) => Releases (flags i) s.world (s.at_ i) replies
  | (i, .getattr _ _) => s.at_ i = .adding → s.world.table (path i) = none
  | (i, .gc _) => ∀ addr, s.at_ i = .removing addr →
    (∀ pe, s.world.heap addr = some pe → pe.refcount = 0) ∧ Leases.Attended (leases flags s) i addr
  | _ => True

/-- The entries are in order, and where the parties are says what they have of them. -/
structure Orderly (path : ι → CStr) (flags : ι → BitVec 32) (s : State ι) : Prop where
  tallied : Leases.Tallied s.world.cells (leases flags s)
  tabled : s.world.Tabled
  under : ∀ i, Under (path i) (flags i) s.world (s.at_ i)
  fits : ∀ i, (s.at_ i).Fits (flags i) s.world

omit [DecidableEq ι] in
/-- At the start there are no entries. -/
theorem Starts.orderly (h : Starts s) : Orderly path flags s := by
  have hnothing : ∀ i, lease (flags i) (s.at_ i) = ⟨none, none, none⟩ ∧ (s.at_ i).Fits (flags i) s.world := by
    intro i
    rcases h.at_ i with hat | hat | hat
    · rw [hat]
      exact ⟨rfl, trivial⟩
    · rw [hat]
      exact ⟨rfl, trivial⟩
    · rw [hat]
      exact ⟨rfl, trivial⟩
  have hcells : ∀ k, s.world.cells k = none := fun k => World.cells_eq_none.mpr (h.heap k)
  refine ⟨⟨fun i k hhas => ?_, fun k c hcell => ?_, fun k c hcell => ?_, fun i j k hi => ?_⟩,
    ⟨fun addr _ => h.heap addr, fun path addr htable => ?_, fun path other addr htable => ?_,
      fun addr pe hheap => ?_⟩, fun i addr huses => ?_, fun i => (hnothing i).2⟩
  · rw [leases, (hnothing i).1] at hhas
    rcases hhas with hk | hk | hk <;> cases hk
  · rw [hcells k] at hcell
    cases hcell
  · rw [hcells k] at hcell
    cases hcell
  · rw [leases, (hnothing i).1] at hi
    cases hi
  · rw [h.table path] at htable
    cases htable
  · rw [h.table path] at htable
    cases htable
  · rw [h.heap addr] at hheap
    cases hheap
  · rw [(hnothing i).1] at huses
    cases huses

omit [DecidableEq ι] in
/-- A step of a party is one of its moves. -/
theorem partyStep_moves {i : ι} {input : Input} {next : At} {w' : World} (h : Orderly path flags s)
    (htimely : Timely path flags s (i, input))
    (hstep : partyStep env (path i) (flags i) s.world (s.at_ i) input = .done (next, w')) :
    Moves (fun addr => (∀ pe, s.world.heap addr = some pe → pe.refcount = 0) ∧ Leases.Attended (leases flags s) i addr)
      (path i) (flags i) s.world (s.at_ i) w' next := by
  cases input with
  | opening status replies => exact openStep_moves h.tabled (h.under i) (h.fits i) htimely hstep
  | release replies => exact releaseStep_moves h.tabled (h.under i) (h.fits i) htimely hstep
  | getattr status replies => exact getattrStep_moves h.tabled (h.under i) (h.fits i) htimely hstep
  | gc replies =>
    refine gcStep_moves h.tabled (h.under i) (fun addr pe howns hheap => ?_) htimely hstep
    exact (h.tallied.locked addr pe.cell (World.cells_of_heap hheap)).mpr ⟨i, howns⟩
  | read => exact useStep_moves h.tabled (h.under i) (h.fits i) hstep
  | write => exact useStep_moves h.tabled (h.under i) (h.fits i) hstep

/-- A step in time leaves everything in order. -/
theorem Orderly.preserved {event : ι × Input} (h : Orderly path flags s) (htimely : Timely path flags s event)
    (hstep : step env path flags s event = .done s') : Orderly path flags s' := by
  obtain ⟨i, input⟩ := event
  obtain ⟨⟨next, w'⟩, hparty, hdone⟩ := Exec.bind_eq_done.mp hstep
  obtain rfl := Exec.done.inj hdone
  have hmoves := partyStep_moves h htimely hparty
  have hleases : leases flags ⟨w', Function.update s.at_ i next⟩ =
      Function.update (leases flags s) i (lease (flags i) next) := by
    funext j
    unfold leases
    by_cases hj : j = i
    · subst hj
      simp only [Function.update_self]
    · simp only [Function.update_of_ne hj]
  have htallied : Leases.Tallied w'.cells (Function.update (leases flags s) i (lease (flags i) next)) := by
    refine h.tallied.move hmoves.cells fun addr hallowed => ⟨fun c hcell => ?_, hallowed.2⟩
    obtain ⟨pe, hheap, rfl⟩ := Option.map_eq_some_iff.mp hcell
    exact hallowed.1 pe hheap
  refine ⟨hleases ▸ htallied, h.tabled.turned hmoves.turned, fun j => ?_, fun j => ?_⟩
  · by_cases hj : j = i
    · subst hj
      simp only [Function.update_self]
      exact hmoves.under
    · simp only [Function.update_of_ne hj]
      intro addr huses
      have htable := h.under j addr huses
      have hlive : w'.cells addr ≠ none := htallied.live j addr (.inl (by rw [Function.update_of_ne hj]; exact huses))
      have hturned := hmoves.turned
      cases hturned with
      | kept hkept =>
        rw [hkept.table]
        exact htable
      | grown hnone =>
        have hpath : path j ≠ path i := fun heq => by
          rw [heq, hnone] at htable
          cases htable
        exact (Function.update_of_ne hpath ..).trans htable
      | @gone other hother =>
        obtain ⟨gone, hgone⟩ := Option.ne_none_iff_exists'.mp (h.tabled.listed _ _ hother)
        have hpath : path j ≠ path i := fun heq => by
          rw [heq, hother] at htable
          obtain rfl := Option.some.inj htable
          rw [World.remove_cells hother hgone, Function.update_self] at hlive
          exact hlive rfl
        rw [(World.remove_left hother hgone).1, Function.update_of_ne hpath]
        exact htable
  · by_cases hj : j = i
    · subst hj
      simp only [Function.update_self]
      exact hmoves.fits
    · simp only [Function.update_of_ne hj]
      exact (h.fits j).turned h.tabled (h.under j) hmoves.turned

/-- The states that the parties come to by steps in time. -/
def Reached (env : Env) (path : ι → CStr) (flags : ι → BitVec 32) : State ι → Prop :=
  GuardedRuns.Reaches (step env path flags) (Timely path flags) Starts

/-- All of them are in order. -/
theorem Reached.orderly (h : Reached env path flags s) : Orderly path flags s :=
  GuardedRuns.Reaches.invariant (Orderly path flags) (fun _ => Starts.orderly)
    (fun _ _ _ _ horderly htimely hstep => horderly.preserved htimely hstep) h

end System

section Progress

variable {env : Env} {path : CStr} {flags : BitVec 32} {w : World} {at_ : At} {addr : ℕ} {pe : Pentry}

/-- An access to an entry that is there returns when its use does. -/
theorem access_returns {α : Type} {use : Pentry → Exec α} (hheap : w.heap addr = some pe)
    (h : ∃ a, use pe = .done a) : ∃ a, access w addr use = .done a := by
  obtain ⟨a, ha⟩ := h
  exact ⟨a, access_eq_done.mpr ⟨pe, hheap, ha⟩⟩

/-- Without a download, providing a descriptor returns. -/
theorem openEntry_returns {mode : StateMode} (replies : OpenReplies) (h : ¬ (mode ≠ .creat ∧ pe.fd < 0)) :
    ∃ opened, openEntry env w addr pe path mode replies = .done opened := by
  have hexisting : ∀ flags, mode ≠ .creat →
      openExisting env w.fs w.remote pe path flags replies = .done (0, w.fs, pe) :=
    fun flags hmode => if_neg fun hfd => h ⟨hmode, hfd⟩
  obtain ⟨⟨ret, fs, pe'⟩, hmode⟩ : ∃ a, openByMode env w.fs w.remote pe path mode replies = .done a := by
    cases mode with
    | creat => exact ⟨_, rfl⟩
    | rdonly => exact ⟨_, hexisting _ (by decide)⟩
    | wronly => exact ⟨_, Exec.bind_eq_done.mpr ⟨_, hexisting _ (by decide), rfl⟩⟩
    | rdwr => exact ⟨_, Exec.bind_eq_done.mpr ⟨_, hexisting _ (by decide), rfl⟩⟩
  simp only [openEntry, hmode, Exec.done_bind]
  split
  · exact ⟨_, rfl⟩
  · exact ⟨_, rfl⟩

/-- A step of a download returns, at the latest with an error of the service. -/
theorem fetch_returns {before : OpenAt} (hheap : w.heap addr = some pe) (hentry : before.entry = some addr) :
    ∃ a, Overtaking.openStep env path flags w before .success
      { OpenReplies.granted 0 with
        copy := { CopyReplies.granted 0 with
          openread := { (CopyReplies.granted 0).openread with status := .failure } } } = .done a := by
  cases before with
  | start => cases hentry
  | returned => cases hentry
  | namei other left =>
    simp only [Overtaking.openStep]
    split <;> exact ⟨_, rfl⟩
  | headAll other left =>
    obtain rfl := Option.some.inj hentry
    simp only [Overtaking.openStep, Overtaking.headedOpen, hheap]
    split
    · exact ⟨_, rfl⟩
    · split <;> exact ⟨_, rfl⟩
  | openread other fd metadata =>
    obtain rfl := Option.some.inj hentry
    simp only [Overtaking.openStep, hheap]
    have hfails : ∀ encryption, (dplOpenread env.cipher w.remote path encryption w.fs fd metadata
        { (CopyReplies.granted 0).openread with status := .failure }).1 ≠ .success := by
      intro encryption
      unfold dplOpenread
      cases w.remote.lookup path with
      | none => simp [Status.onExisting]
      | some obj => simp
    unfold finishCopy
    simp only [if_pos (hfails _)]
    exact ⟨_, rfl⟩

/-- A party that has locked the mutex of an entry can go on, unless it is over. -/
theorem owner_steps (htabled : w.Tabled) (hunder : Under path flags w at_) (hfits : at_.Fits flags w)
    (howns : (lease flags at_).owns = some addr)
    (hcounted : ∀ other pe, (lease flags at_).counted = some other → w.heap other = some pe → pe.refcount ≠ 0) :
    (∃ ret counted, at_ = .finished ret counted (some addr)) ∨
      ∃ input t, partyStep env path flags w at_ input = .done t := by
  have hentry : ∀ other, (lease flags at_).uses = some other → ∃ pe, w.heap other = some pe := fun other huses =>
    Option.ne_none_iff_exists'.mp (htabled.listed _ _ (hunder other huses))
  cases at_ with
  | providing other =>
    obtain ⟨pe, hheap⟩ := hentry other rfl
    refine .inr ⟨.opening .success (.granted 0), access_returns hheap ?_⟩
    split
    · exact ⟨_, rfl⟩
    · rename_i hlocal
      obtain ⟨opened, hopened⟩ := @openEntry_returns env path w _ _ _ (.granted 0) hlocal
      exact ⟨_, Exec.bind_eq_done.mpr ⟨opened, hopened, rfl⟩⟩
  | fetching other before =>
    obtain ⟨pe, hheap⟩ := hentry other rfl
    obtain ⟨a, hfetch⟩ := @fetch_returns env path flags _ _ _ _ hheap hfits
    exact .inr ⟨.opening .success _, _, Exec.bind_eq_done.mpr ⟨a, hfetch, rfl⟩⟩
  | holding other =>
    obtain ⟨pe, hheap⟩ := hentry other rfl
    refine .inr ⟨.release (.granted 0), access_returns hheap ?_⟩
    split
    · exact ⟨_, rfl⟩
    · split <;> exact ⟨_, rfl⟩
  | uncounting other fd st =>
    obtain ⟨pe, hheap⟩ := hentry other rfl
    exact .inr ⟨.release (.granted 0), access_returns hheap
      ⟨_, Exec.bind_eq_done.mpr ⟨_, if_neg (hcounted other pe rfl hheap), rfl⟩⟩⟩
  | sending other fd st =>
    obtain ⟨pe, hheap⟩ := hentry other rfl
    refine .inr ⟨.release { ReleaseReplies.granted 0 with fopenSource := none }, access_returns hheap ?_⟩
    split
    · exact ⟨_, rfl⟩
    · -- no stream is opened, so none is compressed
      obtain ⟨packed, hpack⟩ : ∃ packed, pack env w.fs (cacheName env.conf path) ⟨fd, st.size.toNat,
          fillMetadataFromStat Dict.new st⟩ { ReleaseReplies.granted 0 with fopenSource := none } = .done packed := by
        unfold pack
        split
        · exact ⟨_, rfl⟩
        · exact ⟨_, rfl⟩
      cases houtgoing : packed.outgoing with
      | none => exact ⟨_, Exec.bind_eq_done.mpr ⟨packed, hpack, by rw [houtgoing]; rfl⟩⟩
      | some outgoing => exact ⟨_, Exec.bind_eq_done.mpr ⟨packed, hpack, by rw [houtgoing]; rfl⟩⟩
  | openwriting other up => exact .inr ⟨.release (.granted 0), _, rfl⟩
  | transferring other up block sent =>
    exact .inr ⟨.release { ReleaseReplies.granted 0 with read := fun _ => none }, _, rfl⟩
  | closing other up sent ret => exact .inr ⟨.release (.granted 0), _, rfl⟩
  | cleaning other counted ret =>
    obtain ⟨pe, hheap⟩ := hentry other rfl
    exact .inr ⟨.release (.granted 0), access_returns hheap ⟨_, rfl⟩⟩
  | examining other =>
    obtain ⟨pe, hheap⟩ := hentry other rfl
    refine .inr ⟨.gc ⟨true, none, 0, true, true⟩, access_returns hheap ?_⟩
    split
    · exact ⟨_, rfl⟩
    · split
      · exact ⟨_, rfl⟩
      · split <;> exact ⟨_, rfl⟩
  | dropping other => exact .inr ⟨.gc ⟨true, none, 0, true, true⟩, _, rfl⟩
  | removing other => exact .inr ⟨.gc ⟨true, none, 0, true, true⟩, _, rfl⟩
  | unlocking other =>
    obtain ⟨pe, hheap⟩ := hentry other rfl
    exact .inr ⟨.gc ⟨true, none, 0, true, true⟩, access_returns hheap ⟨_, rfl⟩⟩
  | finished ret counted locked =>
    obtain rfl : locked = some addr := howns
    exact .inl ⟨ret, counted, rfl⟩
  | _ => cases howns

end Progress

section Results

variable {ι : Type} [Fintype ι] [DecidableEq ι] {env : Env} {path : ι → CStr} {flags : ι → BitVec 32} {s s' : State ι}

/-- Two files are opened for writing: the first has locked the mutex, and the second waits for it. -/
theorem two_writers : ∃ (s : State (Fin 2)) (pe : Pentry),
    Reached Env.plain (fun _ => "/f".toList) (fun _ => oRdwr) s ∧ s.at_ 0 = .providing 0 ∧ s.at_ 1 = .locking 0 ∧
      s.world.heap 0 = some pe ∧ pe.refcount = 2 ∧ pe.locked = true :=
  ⟨_, _, .step (i := (1, .opening .success (.granted 3))) (.step (i := (1, .opening .success (.granted 3)))
    (.step (i := (0, .opening .success (.granted 3))) (.step (i := (0, .opening .success (.granted 3)))
      (.step (i := (0, .opening .success (.granted 3))) (.step (i := (0, .opening .success (.granted 3)))
        (s := ⟨.start .empty ∅, fun _ => .looking⟩)
        (.start ⟨fun _ => rfl, fun _ => rfl, fun _ => .inl rfl⟩) ⟨rfl, rfl, fun _ => rfl⟩ rfl)
      ⟨rfl, rfl, fun _ => rfl⟩ rfl) ⟨rfl, rfl, fun h => (by cases h)⟩ rfl) ⟨rfl, rfl, fun h => (by cases h)⟩ rfl)
    ⟨rfl, rfl, fun h => (by cases h)⟩ rfl) ⟨rfl, rfl, fun h => (by cases h)⟩ rfl, rfl, rfl, rfl, rfl, rfl⟩

/-- An entry that a party has a pointer to is there, and it is the one the table has for the path of the party. The
descriptor of a file that is held can be used. -/
theorem pointers_live (h : Reached env path flags s) (i : ι) :
    (∀ addr, (leases flags s i).uses = some addr → s.world.table (path i) = some addr ∧ s.world.heap addr ≠ none) ∧
      ∀ addr pe, s.at_ i = .holding addr → s.world.heap addr = some pe → 0 ≤ pe.fd := by
  have horderly := h.orderly
  refine ⟨fun addr huses => ?_, fun addr pe hat hheap => ?_⟩
  · have htable := horderly.under i addr huses
    exact ⟨htable, horderly.tabled.listed _ _ htable⟩
  · have hfits := horderly.fits i
    rw [hat] at hfits
    exact hfits pe hheap

/-- The second of them uses the entry that the first has made. -/
theorem pointers_live_waiting : ∃ (s : State (Fin 2)) (addr : ℕ),
    Reached Env.plain (fun _ => "/f".toList) (fun _ => oRdwr) s ∧ s.at_ 1 = .locking addr ∧
      s.world.table "/f".toList = some addr ∧ s.world.heap addr ≠ none := by
  obtain ⟨s, pe, hreached, -, hsecond, -⟩ := two_writers
  exact ⟨s, 0, hreached, hsecond, (pointers_live hreached 1).1 0 (by rw [leases, hsecond]; rfl)⟩

/-- An entry counts exactly the parties that have counted it and not given that back. Its mutex is locked exactly when
one party has locked it, and never by two. -/
theorem counts_exact (h : Reached env path flags s) {addr : ℕ} {pe : Pentry} (hheap : s.world.heap addr = some pe) :
    pe.refcount = (Leases.counters (leases flags s) addr).card ∧
      (pe.locked = true ↔ ∃! i, (leases flags s i).owns = some addr) := by
  have htallied := h.orderly.tallied
  have hcell := World.cells_of_heap hheap
  refine ⟨htallied.count addr pe.cell hcell, (htallied.locked addr pe.cell hcell).trans ⟨?_, ?_⟩⟩
  · rintro ⟨i, hi⟩
    exact ⟨i, hi, fun j hj => htallied.single j i addr hj hi⟩
  · rintro ⟨i, hi, -⟩
    exact ⟨i, hi⟩

/-- Both are counted, and one of them has locked the mutex. -/
theorem counts_exact_waiting : ∃ s : State (Fin 2),
    Reached Env.plain (fun _ => "/f".toList) (fun _ => oRdwr) s ∧
      (Leases.counters (leases (fun _ => oRdwr) s) 0).card = 2 ∧
      ∃! i, (leases (fun _ => oRdwr) s i).owns = some 0 := by
  obtain ⟨s, pe, hreached, -, -, hheap, hcount, hlocked⟩ := two_writers
  obtain ⟨hexact, howner⟩ := counts_exact hreached hheap
  exact ⟨s, hreached, hexact.symm.trans hcount, howner.mp hlocked⟩

/-- A party waits for the mutex of its entry only while another one has locked it; that one can go on, or is over and
has left it locked. -/
theorem waits_for_owner (h : Reached env path flags s) {i : ι} {addr : ℕ} {pe : Pentry}
    (hat : s.at_ i = .locking addr) (hheap : s.world.heap addr = some pe) (hlocked : pe.locked = true) :
    ∃ j, j ≠ i ∧ (leases flags s j).owns = some addr ∧
      ((∃ ret counted, s.at_ j = .finished ret counted (some addr)) ∨
        ∃ input s', step env path flags s (j, input) = .done s') := by
  have horderly := h.orderly
  obtain ⟨j, howns⟩ := (horderly.tallied.locked addr pe.cell (World.cells_of_heap hheap)).mp hlocked
  have hne : j ≠ i := by
    rintro rfl
    rw [leases, hat] at howns
    cases howns
  refine ⟨j, hne, howns, ?_⟩
  have hcounted : ∀ other pe, (leases flags s j).counted = some other → s.world.heap other = some pe →
      pe.refcount ≠ 0 := by
    intro other pe hj hheap
    rw [show pe.refcount = _ from horderly.tallied.count other pe.cell (World.cells_of_heap hheap)]
    exact Finset.card_ne_zero.mpr ⟨j, Finset.mem_filter.mpr ⟨Finset.mem_univ j, hj⟩⟩
  rcases owner_steps horderly.tabled (horderly.under j) (horderly.fits j) howns hcounted with
    hover | ⟨input, ⟨next, w'⟩, hparty⟩
  · exact .inl hover
  · exact .inr ⟨input, _, Exec.bind_eq_done.mpr ⟨_, hparty, rfl⟩⟩

/-- The second of them waits for the first. -/
theorem waits_for_owner_second : ∃ (s : State (Fin 2)) (j : Fin 2),
    Reached Env.plain (fun _ => "/f".toList) (fun _ => oRdwr) s ∧ s.at_ 1 = .locking 0 ∧ j ≠ 1 ∧
      (leases (fun _ => oRdwr) s j).owns = some 0 := by
  obtain ⟨s, pe, hreached, -, hsecond, hheap, -, hlocked⟩ := two_writers
  obtain ⟨j, hne, howns, -⟩ := waits_for_owner hreached hsecond hheap hlocked
  exact ⟨s, j, hreached, hsecond, hne, howns⟩

end Results

end Threads

end Dropletfs
