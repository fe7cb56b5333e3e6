import Dropletfs.EntryFrame
import Dropletfs.Library.Leases
import Dropletfs.Overtaking
import Dropletfs.Threads

/-!
# What a thread does to an entry it shares

The count and the mutex of an entry are a cell, and where a party is decides what it has of it. Every step of
`dfs_open`, `dfs_read`, `dfs_write`, `dfs_release`, `dfs_getattr` and `gc_callback` is a move on these cells, and leaves
the table one that leads to entries.
-/

namespace Dropletfs

/-- The count and the mutex of an entry. -/
def Pentry.cell (pe : Pentry) : Leases.Cell := ⟨pe.refcount, pe.locked⟩

/-- The descriptor is usable if it was, and there if it was there. -/
structure Pentry.Follows (pe pe' : Pentry) : Prop where
  usable : pe.Usable → pe'.Usable
  fd : 0 ≤ pe.fd → 0 ≤ pe'.fd

namespace World

/-- The counts and the mutexes of the entries. -/
def cells (w : World) (addr : ℕ) : Option Leases.Cell := (w.heap addr).map Pentry.cell

/-- The table leads to entries, each of its keys to one of its own, and unused addresses have none. -/
structure Tabled (w : World) : Prop where
  fresh : ∀ addr, w.nextAddr ≤ addr → w.heap addr = none
  listed : ∀ path addr, w.table path = some addr → w.heap addr ≠ none
  inj : ∀ path other addr, w.table path = some addr → w.table other = some addr → path = other
  usable : ∀ addr pe, w.heap addr = some pe → pe.Usable

/-- The table has stayed, and the entries have kept their descriptors. -/
structure Kept (w w' : World) : Prop where
  table : w'.table = w.table
  nextAddr : w'.nextAddr = w.nextAddr
  heap : ∀ addr, Option.Rel Pentry.Follows (w.heap addr) (w'.heap addr)

/-- One entry has been stored, and the table has stayed. -/
structure Stores (w : World) (addr : ℕ) (pe : Pentry) (w' : World) : Prop where
  table : w'.table = w.table
  nextAddr : w'.nextAddr = w.nextAddr
  heap : w'.heap = Function.update w.heap addr (some pe)

/-- What one party does to the table. -/
inductive Turned (w : World) (path : CStr) : World → Prop
  | kept {w' : World} : w.Kept w' → Turned w path w'
  | grown {pe : Pentry} : w.table path = none → pe.Fresh → Turned w path (w.insert path pe).2
  | gone {addr : ℕ} : w.table path = some addr → Turned w path (w.remove path)

section Frame

variable {w w' w₁ : World} {addr : ℕ} {pe pe' : Pentry} {path : CStr}

/-- An entry follows itself. -/
theorem follows_refl (pe : Pentry) : pe.Follows pe := ⟨id, id⟩

/-- An entry with the same descriptor follows. -/
theorem follows_of_fd (h : pe'.fd = pe.fd) : pe.Follows pe' :=
  ⟨fun husable => by rwa [Pentry.Usable, h], fun hfd => by rwa [h]⟩

/-- The entries have not changed. -/
theorem Kept.of_heap (htable : w'.table = w.table) (hnext : w'.nextAddr = w.nextAddr) (hheap : w'.heap = w.heap) :
    w.Kept w' where
  table := htable
  nextAddr := hnext
  heap addr := by
    rw [hheap]
    cases w.heap addr with
    | none => exact .none
    | some pe => exact .some (follows_refl pe)

/-- Storing an entry. -/
theorem Stores.put (w : World) (addr : ℕ) (pe : Pentry) : w.Stores addr pe (w.put addr pe) := ⟨rfl, rfl, rfl⟩

/-- The entry stored follows the one before. -/
theorem Stores.kept (h : w.Stores addr pe' w') (hheap : w.heap addr = some pe) (hfollows : pe.Follows pe') :
    w.Kept w' where
  table := h.table
  nextAddr := h.nextAddr
  heap other := by
    rw [h.heap]
    by_cases hother : other = addr
    · subst hother
      rw [hheap, Function.update_self]
      exact .some hfollows
    · rw [Function.update_of_ne hother]
      cases w.heap other with
      | none => exact .none
      | some pe => exact .some (follows_refl pe)

/-- Storing an entry changes its cell. -/
theorem Stores.cells (h : w.Stores addr pe w') : w'.cells = Function.update w.cells addr (some pe.cell) := by
  funext other
  unfold World.cells
  rw [h.heap]
  by_cases hother : other = addr
  · subst hother
    rw [Function.update_self, Function.update_self, Option.map_some]
  · rw [Function.update_of_ne hother, Function.update_of_ne hother]

/-- Nothing of the core has changed. -/
theorem Quiet.kept (h : w.Quiet w') : w.Kept w' where
  table := h.table
  nextAddr := h.nextAddr
  heap addr := by
    cases hheap : w.heap addr with
    | none =>
      rw [h.heap_none hheap]
      exact .none
    | some pe =>
      obtain ⟨pe', hheap', hcore⟩ := h.heap_before hheap
      rw [hheap']
      exact .some (follows_of_fd (congrArg Core.fd hcore))

/-- Nor do the counts and the mutexes then. -/
theorem Quiet.cells (h : w.Quiet w') : w'.cells = w.cells := by
  funext addr
  unfold World.cells
  cases hheap : w.heap addr with
  | none => rw [h.heap_none hheap]
  | some pe =>
    obtain ⟨pe', hheap', hcore⟩ := h.heap_before hheap
    rw [hheap', Option.map_some, Option.map_some, Pentry.cell, Pentry.cell]
    exact congrArg some (Leases.Cell.mk.injEq .. ▸ ⟨congrArg Core.refcount hcore, congrArg Core.locked hcore⟩)

/-- The cell of an entry. -/
theorem cells_of_heap (h : w.heap addr = some pe) : w.cells addr = some pe.cell := by rw [cells, h, Option.map_some]

/-- Where there is no entry there is no cell. -/
theorem cells_eq_none : w.cells addr = none ↔ w.heap addr = none := Option.map_eq_none_iff

/-- Storing an entry whose cell is the same changes none. -/
theorem Stores.cells_same (h : w.Stores addr pe' w') (hheap : w.heap addr = some pe) (hcell : pe'.cell = pe.cell) :
    w'.cells = w.cells := by
  rw [h.cells, hcell, ← cells_of_heap hheap, Function.update_eq_self]

/-- A new entry has a new cell. -/
theorem insert_cells (hfresh : pe.Fresh) (path : CStr) :
    (w.insert path pe).2.cells = Function.update w.cells w.nextAddr (some ⟨0, false⟩) := by
  funext other
  unfold cells
  by_cases hother : other = w.nextAddr
  · subst hother
    rw [Function.update_self]
    simp only [insert, Function.update_self, Option.map_some, Pentry.cell, hfresh.refcount, hfresh.locked]
  · rw [Function.update_of_ne hother]
    simp only [insert, Function.update_of_ne hother]

/-- An entry that is removed has its cell no longer. -/
theorem remove_cells (htable : w.table path = some addr) (hheap : w.heap addr = some pe) :
    (w.remove path).cells = Function.update w.cells addr none := by
  funext other
  unfold cells remove free
  simp only [htable, hheap]
  by_cases hother : other = addr
  · subst hother
    simp only [Function.update_self, Option.map_none]
  · simp only [Function.update_of_ne hother]

/-- What is left in the table and the heap after a removal. -/
theorem remove_left (htable : w.table path = some addr) (hheap : w.heap addr = some pe) :
    (w.remove path).table = Function.update w.table path none ∧
      (w.remove path).heap = Function.update w.heap addr none ∧ (w.remove path).nextAddr = w.nextAddr := by
  simp only [remove, free, htable, hheap, and_self]

/-- Whatever a party does to the table, it stays one. -/
theorem Tabled.turned (h : w.Tabled) (hturned : w.Turned path w') : w'.Tabled := by
  cases hturned with
  | kept hkept =>
    have hrel := hkept.heap
    refine ⟨fun addr haddr => ?_, fun path addr htable => ?_, fun path other addr hpath hother => ?_,
      fun addr pe' hheap' => ?_⟩
    · have hnone := hrel addr
      rw [h.fresh addr (hkept.nextAddr ▸ haddr)] at hnone
      cases hnone' : w'.heap addr with
      | none => rfl
      | some pe =>
        rw [hnone'] at hnone
        cases hnone
    · rw [hkept.table] at htable
      obtain ⟨pe, hheap⟩ := Option.ne_none_iff_exists'.mp (h.listed path addr htable)
      have hsome := hrel addr
      rw [hheap] at hsome
      intro hnone
      rw [hnone] at hsome
      cases hsome
    · rw [hkept.table] at hpath hother
      exact h.inj path other addr hpath hother
    · have hsome := hrel addr
      rw [hheap'] at hsome
      cases hheap : w.heap addr with
      | none =>
        rw [hheap] at hsome
        cases hsome
      | some pe =>
        rw [hheap] at hsome
        cases hsome with
        | some hfollows => exact hfollows.usable (h.usable addr pe hheap)
  | @grown pe hnone hfresh =>
    have hlt : ∀ {key addr}, w.table key = some addr → addr ≠ w.nextAddr := by
      intro key addr htable heq
      exact h.listed key addr htable (h.fresh addr heq.ge)
    refine ⟨fun addr haddr => ?_, fun key addr htable => ?_, fun key other addr hkey hother => ?_,
      fun addr pe' hheap' => ?_⟩
    · simp only [insert] at haddr ⊢
      rw [Function.update_of_ne (by omega)]
      exact h.fresh addr (by omega)
    · simp only [insert, Function.update_apply] at htable ⊢
      split at htable
      · obtain rfl := Option.some.inj htable
        rw [if_pos rfl]
        exact Option.some_ne_none pe
      · rw [if_neg (hlt htable)]
        exact h.listed key addr htable
    · simp only [insert, Function.update_apply] at hkey hother
      split at hkey
      · rename_i hpath
        split at hother
        · rename_i hpath'
          exact hpath.trans hpath'.symm
        · exact absurd (Option.some.inj hkey).symm (hlt hother)
      · split at hother
        · exact absurd (Option.some.inj hother).symm (hlt hkey)
        · exact h.inj key other addr hkey hother
    · simp only [insert, Function.update_apply] at hheap'
      split at hheap'
      · obtain rfl := Option.some.inj hheap'
        exact .inl hfresh.fd
      · exact h.usable addr pe' hheap'
  | @gone addr htable =>
    obtain ⟨pe, hheap⟩ := Option.ne_none_iff_exists'.mp (h.listed path addr htable)
    obtain ⟨htable', hheap', hnext⟩ := remove_left htable hheap
    have hbefore : ∀ {key other}, (w.remove path).table key = some other → key ≠ path ∧ w.table key = some other := by
      intro key other hkey
      rw [htable'] at hkey
      by_cases hpath : key = path
      · subst hpath
        rw [Function.update_self] at hkey
        cases hkey
      · rw [Function.update_of_ne hpath] at hkey
        exact ⟨hpath, hkey⟩
    refine ⟨fun other hother => ?_, fun key other hkey => ?_, fun key key' other hkey hkey' => ?_,
      fun other pe' hother => ?_⟩
    · rw [hheap', Function.update_apply, h.fresh other (hnext ▸ hother), ite_self]
    · obtain ⟨hne, hkey⟩ := hbefore hkey
      have hother : other ≠ addr := fun heq => hne (h.inj key path addr (heq ▸ hkey) htable)
      rw [hheap', Function.update_of_ne hother]
      exact h.listed key other hkey
    · exact h.inj key key' other (hbefore hkey).2 (hbefore hkey').2
    · rw [hheap', Function.update_apply] at hother
      split at hother
      · cases hother
      · exact h.usable other pe' hother

end Frame

end World

namespace Threads

open Overtaking (OpenAt GetattrAt)

/-- What a party has of an entry: the one it has a pointer to, the one that counts it, and the one whose mutex it has
locked. -/
def lease (flags : BitVec 32) : At → Leases.Lease ℕ
  | .looking | .populating | .seeking | .adding | .visiting => ⟨none, none, none⟩
  | .counting addr | .describing addr | .reading addr | .checked addr => ⟨some addr, none, none⟩
  | .asking at_ => ⟨at_.entry, none, none⟩
  | .locking addr | .refused addr => ⟨some addr, some addr, none⟩
  | .providing addr | .fetching addr _ | .holding addr | .uncounting addr _ _ =>
    ⟨some addr, some addr, heldLock flags addr⟩
  | .sending addr _ _ | .openwriting addr _ | .transferring addr _ _ _ | .closing addr _ _ _ =>
    ⟨some addr, none, heldLock flags addr⟩
  | .cleaning addr counted _ => ⟨some addr, if counted then some addr else none, heldLock flags addr⟩
  | .examining addr | .dropping addr | .removing addr | .unlocking addr => ⟨some addr, none, some addr⟩
  | .finished _ counted locked => ⟨none, counted, locked⟩

/-- What holds wherever a party is. -/
def At.Fits (flags : BitVec 32) (w : World) : At → Prop
  | .locking _ | .refused _ | .sending _ _ _ | .openwriting _ _ | .transferring _ _ _ _ | .closing _ _ _ _
  | .cleaning _ _ _ => getModeFromFlags flags ≠ .rdonly
  | .fetching addr at_ => at_.entry = some addr
  | .holding addr => ∀ pe, w.heap addr = some pe → 0 ≤ pe.fd
  | .asking at_ => at_.entry ≠ none
  | _ => True

/-- A party is about the entry of its path. -/
def Under (path : CStr) (flags : BitVec 32) (w : World) (at_ : At) : Prop :=
  ∀ addr, (lease flags at_).uses = some addr → w.table path = some addr

/-- What a step of a party does: to the cells, to the table, and where it then is. -/
structure Moves (allowed : ℕ → Prop) (path : CStr) (flags : BitVec 32) (w : World) (at_ : At) (w' : World) (next : At) :
    Prop where
  cells : Leases.Move allowed w.cells (lease flags at_) w'.cells (lease flags next)
  turned : w.Turned path w'
  under : Under path flags w' next
  fits : next.Fits flags w'

section Moves

variable {allowed : ℕ → Prop} {env : Env} {path : CStr} {flags : BitVec 32} {w w' : World} {at_ next : At}

/-- The cells stay, and so does what the party has of them, but for the entry it has a pointer to. -/
theorem Moves.stay (htabled : w.Tabled) (hcells : w'.cells = w.cells) (hkept : w.Kept w')
    (hcounted : (lease flags next).counted = (lease flags at_).counted)
    (howns : (lease flags next).owns = (lease flags at_).owns) (hunder : Under path flags w next)
    (hfits : next.Fits flags w') : Moves allowed path flags w at_ w' next where
  cells := by
    have hlease : lease flags next =
        ⟨(lease flags next).uses, (lease flags at_).counted, (lease flags at_).owns⟩ := by rw [← hcounted, ← howns]
    rw [hlease, hcells]
    exact .stay fun addr huses hnone => htabled.listed path addr (hunder addr huses) (World.cells_eq_none.mp hnone)
  turned := .kept hkept
  under addr huses := by
    rw [hkept.table]
    exact hunder addr huses
  fits := hfits

/-- An access is one to an entry that is there. -/
theorem access_eq_done {α : Type} {addr : ℕ} {use : Pentry → Exec α} {a : α} :
    access w addr use = .done a ↔ ∃ pe, w.heap addr = some pe ∧ use pe = .done a := by
  unfold access
  cases w.heap addr with
  | none => simp
  | some pe => simp

/-- Counting an entry down. -/
theorem decRefcount_cell {pe pe' : Pentry} {reply : Bool} (hreply : reply = true)
    (h : pe.decRefcount reply = .done pe') :
    pe'.fd = pe.fd ∧ pe'.cell = ⟨pe.cell.count - 1, pe.cell.locked⟩ := by
  obtain ⟨rfl, -⟩ := Pentry.decRefcount_eq h
  subst hreply
  exact ⟨rfl, rfl⟩

/-- A handle that may write has locked the mutex. -/
theorem heldLock_of_writes (addr : ℕ) (h : getModeFromFlags flags ≠ .rdonly) : heldLock flags addr = some addr :=
  if_neg h

/-- One that was opened in the mode for reading has not. -/
theorem heldLock_of_rdonly (addr : ℕ) (h : getModeFromFlags flags = .rdonly) : heldLock flags addr = none := if_pos h

/-- An entry has been provided with a descriptor, or not: what it counts and its mutex have stayed. -/
structure Provided (w : World) (addr : ℕ) (pe : Pentry) (w' : World) (ret : ℤ) : Prop where
  stored : ∃ pe', w.Stores addr pe' w' ∧ pe'.cell = pe.cell ∧ pe.Follows pe' ∧ (ret = 0 → 0 ≤ pe'.fd)

/-- Without a download. -/
theorem openEntry_provides {addr : ℕ} {pe : Pentry} {mode : StateMode} {replies : OpenReplies} {opened : Opened}
    (husable : pe.Usable) (h : openEntry env w addr pe path mode replies = .done opened) :
    Provided w addr pe opened.world opened.ret := by
  obtain ⟨⟨ret, fs, pe'⟩, hmode, hdone⟩ := Exec.bind_eq_done.mp h
  have houtcome := openByMode_outcome husable hmode
  simp only [pure] at hdone
  split at hdone
  · rename_i hret
    obtain rfl := Exec.done.inj hdone
    subst hret
    cases houtcome with
    | failed => exact ⟨_, ⟨rfl, rfl, rfl⟩, rfl, World.follows_of_fd rfl, fun hret => by cases hret⟩
  · rename_i hret
    obtain rfl := Exec.done.inj hdone
    have hnew : ∀ {fd : ℕ} {pe' : Pentry}, pe'.fd = fd → pe.Follows pe' :=
      fun hfd => ⟨fun _ => .inr (by omega), fun _ => by omega⟩
    cases houtcome with
    | failed => exact absurd rfl hret
    | kept _ hfd => exact ⟨_, ⟨rfl, rfl, rfl⟩, rfl, World.follows_of_fd rfl, fun _ => hfd⟩
    | fetched => exact ⟨_, ⟨rfl, rfl, rfl⟩, rfl, hnew rfl, fun _ => Int.natCast_nonneg _⟩
    | created => exact ⟨_, ⟨rfl, rfl, rfl⟩, rfl, hnew rfl, fun _ => Int.natCast_nonneg _⟩

/-- Until the download, metadata and digest of the entry change. -/
theorem prepareCopy_entry {fs fs' : LocalFs} {pe pe' : Pentry} {headers : Option Obj} {copy : CopyReplies}
    {prepared : Prepared} (h : prepareCopy env fs pe path headers copy = (prepared, fs', pe')) :
    ∃ metadata digest, pe' = { pe with metadata := metadata, digest := digest } := by
  unfold prepareCopy at h
  split at h
  · obtain ⟨-, -, rfl⟩ := h
    exact ⟨_, _, rfl⟩
  · split at h
    · obtain ⟨-, -, rfl⟩ := h
      exact ⟨_, _, rfl⟩
    · obtain ⟨metadata, hmetadata⟩ := pe.setMetadata_eq (getMetadataFromHeaders copy.extract headers) copy.setMetadata
      simp only [hmetadata] at h
      split at h
      · obtain ⟨-, -, rfl⟩ := h
        exact ⟨_, _, rfl⟩
      · obtain ⟨digest, hdigest⟩ := compareDigests_eq { pe with metadata := metadata } headers copy.junkDigest
        rw [hdigest] at h
        split at h
        · obtain ⟨-, -, rfl⟩ := h
          exact ⟨_, _, rfl⟩
        · split at h
          · obtain ⟨-, -, rfl⟩ := h
            exact ⟨_, _, rfl⟩
          · obtain ⟨-, -, rfl⟩ := h
            exact ⟨_, _, rfl⟩

/-- A step of a download waits for the next call, or provides the entry with a descriptor or fails. -/
theorem fetch_provides {addr : ℕ} {pe : Pentry} {before after : OpenAt} {status : Status} {replies : OpenReplies}
    (hheap : w.heap addr = some pe) (husable : pe.Usable) (hentry : before.entry = some addr)
    (h : Overtaking.openStep env path flags w before status replies = .done (after, w')) :
    (after.entry = some addr ∧ Provided w addr pe w' (-1)) ∨
      ∃ ret, after = .returned ret ∧ Provided w addr pe w' ret := by
  have hsame : ∀ {ret : ℤ}, ret ≠ 0 → Provided w addr pe w ret := fun hret =>
    ⟨pe, ⟨rfl, rfl, by rw [← hheap, Function.update_eq_self]⟩, rfl, World.follows_refl pe, fun h => absurd h hret⟩
  have hcopied : ∀ {fs pe' fd}, pe'.cell = pe.cell → pe'.fd = pe.fd → fd = -1 ∨ 0 ≤ fd →
      Overtaking.copied { w with fs := fs } addr pe' (getModeFromFlags flags) fd = (after, w') →
      ∃ ret, after = .returned ret ∧ Provided w addr pe w' ret := by
    intro fs pe' fd hcell hfd hvalue hcopied
    unfold Overtaking.copied at hcopied
    split at hcopied
    · obtain ⟨rfl, rfl⟩ := hcopied
      exact ⟨-1, rfl, pe', ⟨rfl, rfl, rfl⟩, hcell, World.follows_of_fd hfd, fun hret => by cases hret⟩
    · rename_i hne
      obtain ⟨rfl, rfl⟩ := hcopied
      have hnonneg := hvalue.resolve_left hne
      exact ⟨0, rfl, _, ⟨rfl, rfl, rfl⟩, hcell, ⟨fun _ => .inr hnonneg, fun _ => hnonneg⟩, fun _ => hnonneg⟩
  cases before with
  | start => cases hentry
  | returned => cases hentry
  | namei other left =>
    obtain rfl := Option.some.inj hentry
    simp only [Overtaking.openStep] at h
    split at h
    · obtain ⟨rfl, rfl⟩ := Prod.mk.inj (Exec.done.inj h)
      exact .inl ⟨rfl, hsame (by decide)⟩
    · unfold Overtaking.namedOpen at h
      split at h
      · obtain ⟨rfl, rfl⟩ := Prod.mk.inj (Exec.done.inj h)
        exact .inr ⟨-1, rfl, hsame (by decide)⟩
      · obtain ⟨rfl, rfl⟩ := Prod.mk.inj (Exec.done.inj h)
        exact .inl ⟨rfl, hsame (by decide)⟩
  | headAll other left =>
    obtain rfl := Option.some.inj hentry
    simp only [Overtaking.openStep, Overtaking.headedOpen, hheap] at h
    split at h
    · obtain ⟨rfl, rfl⟩ := Prod.mk.inj (Exec.done.inj h)
      exact .inl ⟨rfl, hsame (by decide)⟩
    · split at h
      · rename_i fd fs pe' hprepared
        have hfd := (Overtaking.prepareCopy_entry hprepared).2 fd rfl
        obtain ⟨metadata, digest, rfl⟩ := prepareCopy_entry hprepared
        refine .inr (hcopied (by rfl) (by rfl) ?_ (Exec.done.inj h))
        rcases hfd with hnone | rfl
        · exact .inl hnone
        · exact husable
      · rename_i fd metadata fs pe' hprepared
        obtain ⟨metadata', digest, rfl⟩ := prepareCopy_entry hprepared
        obtain ⟨rfl, rfl⟩ := Prod.mk.inj (Exec.done.inj h)
        exact .inl ⟨rfl, _, ⟨rfl, rfl, rfl⟩, rfl, World.follows_of_fd rfl, fun hret => by cases hret⟩
  | openread other fd metadata =>
    obtain rfl := Option.some.inj hentry
    simp only [Overtaking.openStep, hheap] at h
    obtain ⟨⟨fd', fs, pe'⟩, hfinish, hdone⟩ := Exec.bind_eq_done.mp h
    obtain ⟨rfl, hfd⟩ := Overtaking.finishCopy_entry hfinish
    exact .inr (hcopied rfl rfl hfd (Exec.done.inj hdone))

/-- The semaphore and the key of a new entry are in order while `dfs_open` goes on. -/
structure Opens (path : CStr) (w : World) (at_ : At) (replies : OpenReplies) : Prop where
  semPost : replies.semPost = true
  semWait : replies.semWait = true
  absent : at_ = .populating → w.table path = none

/-- `dfs_open` returns. -/
theorem openReturned_moves {addr : ℕ} {pe : Pentry} {ret : ℤ} (htabled : w.Tabled) (hheap : w.heap addr = some pe)
    (hlease : lease flags at_ = ⟨some addr, some addr, heldLock flags addr⟩) (hunder : Under path flags w at_)
    (h : Provided w addr pe w' ret) : Moves allowed path flags w at_ w' (openReturned flags addr ret) := by
  obtain ⟨pe', hstored, hcell, hfollows, hfd⟩ := h.stored
  have hkept := hstored.kept hheap hfollows
  unfold openReturned
  split
  · rename_i hret
    refine .stay htabled (hstored.cells_same hheap hcell) hkept (by rw [hlease]; rfl) (by rw [hlease]; rfl) ?_ ?_
    · intro other hother
      exact hunder other (by rw [hlease]; exact hother)
    · intro qe hqe
      rw [hstored.heap, Function.update_self] at hqe
      obtain rfl := Option.some.inj hqe
      exact hfd hret
  · exact .stay htabled (hstored.cells_same hheap hcell) hkept (by rw [hlease]; rfl) (by rw [hlease]; rfl)
      (fun _ huses => by cases huses) trivial

/-- A step of `dfs_open`. -/
theorem openStep_moves {status : Status} {replies : OpenReplies} (htabled : w.Tabled) (hunder : Under path flags w at_)
    (hfits : at_.Fits flags w) (hopens : Opens path w at_ replies)
    (h : openStep env path flags w status replies at_ = .done (next, w')) : Moves allowed path flags w at_ w' next := by
  have hstay : ∀ {a : At}, (lease flags a).counted = (lease flags at_).counted →
      (lease flags a).owns = (lease flags at_).owns → Under path flags w a → a.Fits flags w →
      Moves allowed path flags w at_ w a := fun hcounted howns hunder hfits =>
    .stay htabled rfl (.of_heap rfl rfl rfl) hcounted howns hunder hfits
  cases at_ with
  | looking =>
    simp only [openStep] at h
    split at h
    · rename_i addr htable
      obtain ⟨rfl, rfl⟩ := Prod.mk.inj (Exec.done.inj h)
      refine hstay rfl rfl ?_ trivial
      rintro other huses
      rw [← Option.some.inj huses]
      exact htable
    · obtain ⟨rfl, rfl⟩ := Prod.mk.inj (Exec.done.inj h)
      exact hstay rfl rfl (fun _ huses => by cases huses) trivial
  | populating =>
    have hnone := hopens.absent rfl
    simp only [openStep] at h
    split at h
    · obtain ⟨rfl, rfl⟩ := Prod.mk.inj (Exec.done.inj h)
      exact hstay rfl rfl (fun _ huses => by cases huses) trivial
    · rw [hashInsert_of_none _ hnone] at h
      obtain ⟨rfl, rfl⟩ := Prod.mk.inj (Exec.done.inj h)
      refine ⟨?_, .grown hnone ⟨rfl, rfl, rfl, rfl⟩, ?_, trivial⟩
      · rw [World.insert_cells ⟨rfl, rfl, rfl, rfl⟩]
        exact .add (World.cells_eq_none.mpr (htabled.fresh _ le_rfl))
      · rintro addr huses
        obtain rfl := Option.some.inj huses
        exact Function.update_self ..
  | counting addr =>
    obtain ⟨pe, hheap, hdone⟩ := access_eq_done.mp h
    obtain ⟨rfl, rfl⟩ := Prod.mk.inj (Exec.done.inj hdone)
    have hstored := World.Stores.put w addr (pe.incRefcount replies.semPost)
    have hinc : pe.incRefcount replies.semPost = { pe with refcount := pe.refcount + 1 } := by
      rw [Pentry.incRefcount, hopens.semPost, if_pos rfl]
    have hlease : lease flags (if getModeFromFlags flags = .rdonly then .providing addr else .locking addr) =
        ⟨some addr, some addr, none⟩ := by
      split
      · rename_i hmode
        simp only [lease, heldLock_of_rdonly addr hmode]
      · rfl
    refine ⟨?_, .kept (hstored.kept hheap (World.follows_of_fd (by rw [hinc]))), ?_, ?_⟩
    · rw [hlease, hstored.cells, hinc]
      exact .count (World.cells_of_heap hheap) rfl
    · intro other huses
      rw [hlease] at huses
      exact hunder other huses
    · split
      · trivial
      · rename_i hmode
        exact hmode
  | locking addr =>
    obtain ⟨pe, hheap, hdone⟩ := access_eq_done.mp h
    split at hdone
    · obtain ⟨rfl, rfl⟩ := Prod.mk.inj (Exec.done.inj hdone)
      exact hstay rfl rfl hunder hfits
    · split at hdone
      · cases hdone
      · rename_i hfree
        obtain ⟨rfl, rfl⟩ := Prod.mk.inj (Exec.done.inj hdone)
        have hstored := World.Stores.put w addr { pe with locked := true }
        refine ⟨?_, .kept (hstored.kept hheap (World.follows_of_fd rfl)),
          fun other huses => hunder other huses, trivial⟩
        rw [hstored.cells]
        simp only [lease, heldLock_of_writes addr hfits]
        exact .lock (World.cells_of_heap hheap) (Bool.not_eq_true _ ▸ hfree) rfl
  | refused addr =>
    obtain ⟨pe, hheap, hdone⟩ := access_eq_done.mp h
    obtain ⟨pe', hwait, hdone⟩ := Exec.bind_eq_done.mp hdone
    obtain ⟨rfl, rfl⟩ := Prod.mk.inj (Exec.done.inj hdone)
    obtain ⟨hfd, hcell⟩ := decRefcount_cell hopens.semWait hwait
    have hstored := World.Stores.put w addr pe'
    refine ⟨?_, .kept (hstored.kept hheap (World.follows_of_fd hfd)), fun _ huses => (by cases huses), trivial⟩
    rw [hstored.cells, hcell]
    exact .uncount (World.cells_of_heap hheap) rfl (.inl rfl)
  | providing addr =>
    obtain ⟨pe, hheap, hdone⟩ := access_eq_done.mp h
    split at hdone
    · obtain ⟨rfl, rfl⟩ := Prod.mk.inj (Exec.done.inj hdone)
      exact hstay rfl rfl hunder rfl
    · obtain ⟨opened, hentry, hdone⟩ := Exec.bind_eq_done.mp hdone
      obtain ⟨rfl, rfl⟩ := Prod.mk.inj (Exec.done.inj hdone)
      exact openReturned_moves htabled hheap rfl hunder (openEntry_provides (htabled.usable addr pe hheap) hentry)
  | fetching addr before =>
    obtain ⟨⟨after, w₁⟩, hfetch, hdone⟩ := Exec.bind_eq_done.mp h
    obtain ⟨rfl, rfl⟩ := Prod.mk.inj (Exec.done.inj hdone)
    obtain ⟨pe, hheap⟩ := Option.ne_none_iff_exists'.mp (htabled.listed path addr (hunder addr rfl))
    rcases fetch_provides hheap (htabled.usable addr pe hheap) hfits hfetch with
      ⟨hentry, pe', hstored, hcell, hfollows, -⟩ | ⟨ret, rfl, hprovided⟩
    · have hfetching : fetched flags addr after = .fetching addr after := by
        cases after with
        | returned => cases hentry
        | _ => rfl
      rw [hfetching]
      exact .stay htabled (hstored.cells_same hheap hcell) (hstored.kept hheap hfollows) rfl rfl hunder hentry
    · exact openReturned_moves htabled hheap rfl hunder hprovided
  | _ => cases h

/-- The semaphore is in order while `dfs_release` goes on, and the descriptor of a handle for reading can be
examined. -/
structure Releases (flags : BitVec 32) (w : World) (at_ : At) (replies : ReleaseReplies) : Prop where
  semWait : replies.semWait = true
  fstat : getModeFromFlags flags = .rdonly → ∀ addr pe, at_ = .holding addr → w.heap addr = some pe →
    w.fs.fstat pe.fd replies.fstat ≠ none

/-- A handle whose flags are not read-only was not opened in the mode for reading. -/
theorem mode_ne_rdonly (h : ¬ isRdonly flags = true) : getModeFromFlags flags ≠ .rdonly := by
  unfold getModeFromFlags
  unfold isRdonly at h
  split
  · exact fun heq => by cases heq
  · split
    · exact fun heq => by cases heq
    · split
      · exact fun heq => by cases heq
      · split
        · exact fun heq => by cases heq
        · exact fun heq => by cases heq

/-- Marking an entry clean. -/
theorem markClean_cell (pe : Pentry) (unlock : Bool) :
    (pe.markClean unlock).fd = pe.fd ∧
      (pe.markClean unlock).cell = ⟨pe.cell.count, if unlock then false else pe.cell.locked⟩ := ⟨rfl, rfl⟩

/-- A step of an upload leaves the table and the entries alone, and the party stays at its upload or is done with it. -/
structure Uploads (flags : BitVec 32) (addr : ℕ) (w w' : World) (next : At) : Prop where
  table : w'.table = w.table
  nextAddr : w'.nextAddr = w.nextAddr
  heap : w'.heap = w.heap
  lease : lease flags next = ⟨some addr, none, heldLock flags addr⟩
  fits : getModeFromFlags flags ≠ .rdonly → next.Fits flags w'

/-- The choice of what to send is such a step. -/
theorem startUpload_uploads {addr fd : ℕ} {st : Stat} {replies : ReleaseReplies}
    (h : startUpload env path w addr fd st replies = .done (next, w')) : Uploads flags addr w w' next := by
  unfold startUpload at h
  split at h
  · cases h
  · obtain ⟨packed, -, hdone⟩ := Exec.bind_eq_done.mp h
    simp only [pure] at hdone
    split at hdone
    · obtain ⟨rfl, rfl⟩ := Prod.mk.inj (Exec.done.inj hdone)
      exact ⟨rfl, rfl, rfl, rfl, id⟩
    · obtain ⟨rfl, rfl⟩ := Prod.mk.inj (Exec.done.inj hdone)
      exact ⟨rfl, rfl, rfl, rfl, id⟩

/-- So is every step from one remote call to the next. -/
theorem uploadStep_uploads {addr : ℕ} {replies : ReleaseReplies} (huses : (lease flags at_).uses = some addr)
    (h : uploadStep env path w replies at_ = .done (next, w')) : Uploads flags addr w w' next := by
  cases at_ with
  | openwriting other up =>
    obtain rfl := Option.some.inj huses
    have hdone := Exec.done.inj h
    split at hdone
    · obtain ⟨rfl, rfl⟩ := Prod.mk.inj hdone
      exact ⟨rfl, rfl, rfl, rfl, id⟩
    · obtain ⟨rfl, rfl⟩ := Prod.mk.inj hdone
      exact ⟨rfl, rfl, rfl, rfl, id⟩
  | transferring other up block sent =>
    obtain rfl := Option.some.inj huses
    simp only [uploadStep] at h
    split at h
    · obtain ⟨rfl, rfl⟩ := Prod.mk.inj (Exec.done.inj h)
      exact ⟨rfl, rfl, rfl, rfl, id⟩
    · split at h
      · obtain ⟨rfl, rfl⟩ := Prod.mk.inj (Exec.done.inj h)
        exact ⟨rfl, rfl, rfl, rfl, id⟩
      · split at h
        · obtain ⟨rfl, rfl⟩ := Prod.mk.inj (Exec.done.inj h)
          exact ⟨rfl, rfl, rfl, rfl, id⟩
        · obtain ⟨rfl, rfl⟩ := Prod.mk.inj (Exec.done.inj h)
          exact ⟨rfl, rfl, rfl, rfl, id⟩
  | closing other up sent ret =>
    obtain rfl := Option.some.inj huses
    obtain ⟨rfl, rfl⟩ := Prod.mk.inj (Exec.done.inj h)
    cases replies.close.applied with
    | true => exact ⟨rfl, rfl, rfl, rfl, id⟩
    | false => exact ⟨rfl, rfl, rfl, rfl, id⟩
  | _ => cases h

/-- A step of `dfs_release`. -/
theorem releaseStep_moves {replies : ReleaseReplies} (htabled : w.Tabled) (hunder : Under path flags w at_)
    (hfits : at_.Fits flags w) (hreleases : Releases flags w at_ replies)
    (h : releaseStep env path flags w replies at_ = .done (next, w')) : Moves allowed path flags w at_ w' next := by
  have hstay : ∀ {a : At} {w' : World}, w'.table = w.table → w'.nextAddr = w.nextAddr → w'.heap = w.heap →
      lease flags a = lease flags at_ → a.Fits flags w' → Moves allowed path flags w at_ w' a := by
    intro a w' htable hnext hheap hlease hfits
    refine .stay htabled ?_ (.of_heap htable hnext hheap) (by rw [hlease]) (by rw [hlease]) ?_ hfits
    · unfold World.cells
      rw [hheap]
    · intro addr huses
      exact hunder addr (hlease ▸ huses)
  have huploads : ∀ {addr : ℕ} {a : At} {w' : World}, Uploads flags addr w w' a →
      lease flags at_ = ⟨some addr, none, heldLock flags addr⟩ → getModeFromFlags flags ≠ .rdonly →
      Moves allowed path flags w at_ w' a := fun hup hlease hmode =>
    hstay hup.table hup.nextAddr hup.heap (hup.lease.trans hlease.symm) (hup.fits hmode)
  have hcalls : ∀ {addr : ℕ}, uploadStep env path w replies at_ = .done (next, w') →
      lease flags at_ = ⟨some addr, none, heldLock flags addr⟩ → getModeFromFlags flags ≠ .rdonly →
      Moves allowed path flags w at_ w' next := fun hcall hlease hmode =>
    huploads (uploadStep_uploads (congrArg Leases.Lease.uses hlease) hcall) hlease hmode
  cases at_ with
  | holding addr =>
    obtain ⟨pe, hheap, hdone⟩ := access_eq_done.mp h
    have hfd : ¬ pe.fd < 0 := not_lt.mpr (hfits pe hheap)
    rw [if_neg hfd] at hdone
    split at hdone
    · rename_i hfstat
      obtain ⟨rfl, rfl⟩ := Prod.mk.inj (Exec.done.inj hdone)
      exact hstay rfl rfl rfl rfl fun hmode => hreleases.fstat hmode addr pe rfl hheap hfstat
    · obtain ⟨rfl, rfl⟩ := Prod.mk.inj (Exec.done.inj hdone)
      exact hstay rfl rfl rfl rfl trivial
  | uncounting addr fd st =>
    obtain ⟨pe, hheap, hdone⟩ := access_eq_done.mp h
    obtain ⟨pe', hwait, hdone⟩ := Exec.bind_eq_done.mp hdone
    obtain ⟨rfl, rfl⟩ := Prod.mk.inj (Exec.done.inj hdone)
    obtain ⟨hfd, hcell⟩ := decRefcount_cell hreleases.semWait hwait
    have hstored := World.Stores.put w addr pe'
    have hcells : ∀ uses : Option ℕ, uses = none ∨ uses = some addr → Leases.Move allowed w.cells
        (lease flags (.uncounting addr fd st)) (w.put addr pe').cells ⟨uses, none, heldLock flags addr⟩ := by
      intro uses huses
      rw [hstored.cells, hcell]
      exact .uncount (World.cells_of_heap hheap) rfl huses
    have hturned : w.Turned path (w.put addr pe') := .kept (hstored.kept hheap (World.follows_of_fd hfd))
    split
    · exact ⟨hcells none (.inl rfl), hturned, fun _ huses => (by cases huses), trivial⟩
    · rename_i hwrites
      exact ⟨hcells (some addr) (.inr rfl), hturned, fun other huses => hunder other huses, mode_ne_rdonly hwrites⟩
  | sending addr fd st =>
    obtain ⟨pe, hheap, hdone⟩ := access_eq_done.mp h
    split at hdone
    · obtain ⟨rfl, rfl⟩ := Prod.mk.inj (Exec.done.inj hdone)
      exact hstay rfl rfl rfl rfl hfits
    · exact huploads (startUpload_uploads hdone) rfl hfits
  | openwriting addr up => exact hcalls h rfl hfits
  | transferring addr up block sent => exact hcalls h rfl hfits
  | closing addr up sent ret => exact hcalls h rfl hfits
  | cleaning addr counted ret =>
    obtain ⟨pe, hheap, hdone⟩ := access_eq_done.mp h
    obtain ⟨rfl, rfl⟩ := Prod.mk.inj (Exec.done.inj hdone)
    obtain ⟨hfd, hcell⟩ := markClean_cell pe replies.unlock
    have hstored := World.Stores.put w addr (pe.markClean replies.unlock)
    have hkept := hstored.kept hheap (World.follows_of_fd hfd)
    have howns : heldLock flags addr = some addr := heldLock_of_writes addr hfits
    cases hunlock : replies.unlock with
    | true =>
      rw [hunlock] at hcell hstored hkept
      refine ⟨?_, .kept hkept, fun _ huses => (by cases huses), trivial⟩
      rw [hstored.cells, hcell]
      simp only [lease, howns, if_true]
      exact .unlock (World.cells_of_heap hheap) rfl
    | false =>
      rw [hunlock] at hcell hstored hkept
      refine .stay htabled (hstored.cells_same hheap hcell) hkept rfl ?_ (fun _ huses => by cases huses) trivial
      simp only [lease, howns, Bool.false_eq_true, if_false]
  | _ => cases h

/-- A step of `dfs_read` or `dfs_write`. -/
theorem useStep_moves {input : Input} (htabled : w.Tabled) (hunder : Under path flags w at_) (hfits : at_.Fits flags w)
    (h : useStep flags w input at_ = .done (next, w')) : Moves allowed path flags w at_ w' next := by
  unfold useStep at h
  split at h
  · obtain ⟨-, -, hdone⟩ := Exec.bind_eq_done.mp h
    obtain ⟨rfl, rfl⟩ := Prod.mk.inj (Exec.done.inj hdone)
    exact .stay htabled rfl (.of_heap rfl rfl rfl) rfl rfl hunder hfits
  · split at h
    · cases h
    · obtain ⟨⟨ret, w₁⟩, hwrite, hdone⟩ := Exec.bind_eq_done.mp h
      obtain ⟨rfl, rfl⟩ := Prod.mk.inj (Exec.done.inj hdone)
      obtain ⟨fs, rfl⟩ := dfsWrite_frame hwrite
      exact .stay htabled rfl (.of_heap rfl rfl rfl) rfl rfl hunder hfits
  · cases h

/-- A quiet step, after which the party is about the entry of its path or about none. -/
theorem Moves.quiet (htabled : w.Tabled) (hquiet : w.Quiet w')
    (hcounted : (lease flags next).counted = (lease flags at_).counted)
    (howns : (lease flags next).owns = (lease flags at_).owns) (hunder : Under path flags w next)
    (hfits : next.Fits flags w') : Moves allowed path flags w at_ w' next :=
  .stay htabled hquiet.cells hquiet.kept hcounted howns hunder hfits

/-- Settling the attributes is quiet. -/
theorem getattrSettled_quiet {addr : ℕ} {pe pe' : Pentry} {st : Stat} {replies : GetattrReplies}
    (hheap : w.heap addr = some pe) (hcore : pe'.core = pe.core) :
    w.Quiet (getattrSettled w addr pe' path st replies).world :=
  (World.Quiet.put hheap ((pe'.setFiletypeFromStat_core st).trans hcore)).trans (World.fillDirent_quiet _ _ _)

/-- Storing the attributes that were fetched is quiet. -/
theorem getattrFetched_quiet {addr : ℕ} {pe : Pentry} {type : Ftype} {status : Status} {metadata : Option Dict}
    {replies : GetattrReplies} {looked : Lookup} (hheap : w.heap addr = some pe)
    (h : getattrFetched env w addr pe path type status metadata replies = .done looked) : w.Quiet looked.world := by
  unfold getattrFetched at h
  split at h
  · obtain rfl := Exec.done.inj h
    exact .refl w
  · simp only at h
    split at h
    · obtain rfl := Exec.done.inj h
      exact getattrSettled_quiet hheap rfl
    · rename_i dict
      obtain ⟨metadata, hmetadata⟩ := pe.setMetadata_eq dict replies.setMetadata
      rw [hmetadata] at h
      split at h
      · obtain rfl := Exec.done.inj h
        exact .refl w
      · split at h
        · cases h
        · split at h
          · obtain rfl := Exec.done.inj h
            exact .put hheap rfl
          · obtain rfl := Exec.done.inj h
            exact getattrSettled_quiet hheap rfl

/-- A step of a `dfs_getattr` under way is quiet, and it goes on about the same entry or returns. -/
theorem ask_quiet {addr : ℕ} {before after : GetattrAt} {status : Status} {replies : GetattrReplies}
    (hentry : before.entry = some addr)
    (h : Overtaking.getattrStep env path w before status replies = .done (after, w')) :
    w.Quiet w' ∧ (after.entry = some addr ∨ ∃ ret, after = .returned ret) := by
  cases before with
  | start => cases hentry
  | returned => cases hentry
  | namei other left =>
    obtain rfl := Option.some.inj hentry
    simp only [Overtaking.getattrStep] at h
    split at h
    · obtain ⟨rfl, rfl⟩ := Prod.mk.inj (Exec.done.inj h)
      exact ⟨.refl w, .inl rfl⟩
    · unfold Overtaking.namedGetattr at h
      split at h
      · obtain ⟨rfl, rfl⟩ := Prod.mk.inj (Exec.done.inj h)
        exact ⟨.refl w, .inl rfl⟩
      · obtain ⟨rfl, rfl⟩ := Prod.mk.inj (Exec.done.inj h)
        exact ⟨World.touch_quiet _ _ _, .inr ⟨_, rfl⟩⟩
  | getattr other type left =>
    obtain rfl := Option.some.inj hentry
    simp only [Overtaking.getattrStep, Overtaking.fetchedGetattr] at h
    split at h
    · obtain ⟨rfl, rfl⟩ := Prod.mk.inj (Exec.done.inj h)
      exact ⟨.refl w, .inl rfl⟩
    · split at h
      · cases h
      · rename_i pe hheap
        obtain ⟨looked, hfetched, hdone⟩ := Exec.bind_eq_done.mp h
        obtain ⟨rfl, rfl⟩ := Prod.mk.inj (Exec.done.inj hdone)
        exact ⟨(getattrFetched_quiet hheap hfetched).trans (World.touch_quiet _ _ _), .inr ⟨_, rfl⟩⟩

/-- A step of `dfs_getattr`. -/
theorem getattrStep_moves {status : Status} {replies : GetattrReplies} (htabled : w.Tabled)
    (hunder : Under path flags w at_) (hfits : at_.Fits flags w) (habsent : at_ = .adding → w.table path = none)
    (h : getattrStep env path w status replies at_ = .done (next, w')) : Moves allowed path flags w at_ w' next := by
  have hover : ∀ {ret : ℤ}, Under path flags w (.finished ret none none) := fun _ huses => by cases huses
  cases at_ with
  | seeking =>
    simp only [getattrStep] at h
    split at h
    · obtain ⟨rfl, rfl⟩ := Prod.mk.inj (Exec.done.inj h)
      exact .quiet htabled (.refl w) rfl rfl hover trivial
    · split at h
      · rename_i addr htable
        obtain ⟨rfl, rfl⟩ := Prod.mk.inj (Exec.done.inj h)
        refine .quiet htabled (.refl w) rfl rfl ?_ trivial
        rintro other huses
        rw [← Option.some.inj huses]
        exact htable
      · obtain ⟨rfl, rfl⟩ := Prod.mk.inj (Exec.done.inj h)
        exact .quiet htabled (.refl w) rfl rfl (fun _ huses => by cases huses) trivial
  | adding =>
    have hnone := habsent rfl
    simp only [getattrStep] at h
    split at h
    · obtain ⟨rfl, rfl⟩ := Prod.mk.inj (Exec.done.inj h)
      exact .quiet htabled (.refl w) rfl rfl hover trivial
    · rw [hashInsert_of_none _ hnone] at h
      obtain ⟨rfl, rfl⟩ := Prod.mk.inj (Exec.done.inj h)
      refine ⟨?_, .grown hnone ⟨rfl, rfl, rfl, rfl⟩, ?_, trivial⟩
      · rw [World.insert_cells ⟨rfl, rfl, rfl, rfl⟩]
        exact .add (World.cells_eq_none.mpr (htabled.fresh _ le_rfl))
      · rintro addr huses
        obtain rfl := Option.some.inj huses
        exact Function.update_self ..
  | describing addr =>
    obtain ⟨pe, hheap, hdone⟩ := access_eq_done.mp h
    split at hdone
    · obtain ⟨rfl, rfl⟩ := Prod.mk.inj (Exec.done.inj hdone)
      exact .quiet htabled (.refl w) rfl rfl hunder (Option.some_ne_none addr)
    · obtain ⟨looked, hlook, hdone⟩ := Exec.bind_eq_done.mp hdone
      obtain ⟨rfl, rfl⟩ := Prod.mk.inj (Exec.done.inj hdone)
      have hentry : getattrEntry env w addr pe path replies =
          .done { looked with world := looked.world.touch addr replies.now } :=
        Exec.bind_eq_done.mpr ⟨looked, hlook, rfl⟩
      exact .quiet htabled (getattrEntry_quiet hheap hentry).1 rfl rfl hover trivial
  | asking before =>
    obtain ⟨⟨after, w₁⟩, hask, hdone⟩ := Exec.bind_eq_done.mp h
    obtain ⟨rfl, rfl⟩ := Prod.mk.inj (Exec.done.inj hdone)
    obtain ⟨addr, hentry⟩ := Option.ne_none_iff_exists'.mp hfits
    obtain ⟨hquiet, hafter⟩ := ask_quiet hentry hask
    rcases hafter with hafter | ⟨ret, rfl⟩
    · have hasking : asked after = .asking after := by
        cases after with
        | returned => cases hafter
        | _ => rfl
      rw [hasking]
      refine .quiet htabled hquiet rfl rfl (fun other huses => hunder other ?_) (by rw [At.Fits, hafter]; simp)
      exact hentry.trans (hafter.symm.trans huses)
    · exact .quiet htabled hquiet rfl rfl hover trivial
  | _ => cases h

/-- A step of `gc_callback`. -/
theorem gcStep_moves {replies : GcReplies} (htabled : w.Tabled) (hunder : Under path flags w at_)
    (hlocked : ∀ addr pe, (lease flags at_).owns = some addr → w.heap addr = some pe → pe.locked = true)
    (hallowed : ∀ addr, at_ = .removing addr → allowed addr)
    (h : gcStep env path w replies at_ = .done (next, w')) : Moves allowed path flags w at_ w' next := by
  have hstay : ∀ {a : At} {w' : World}, w'.table = w.table → w'.nextAddr = w.nextAddr → w'.heap = w.heap →
      (lease flags a).counted = (lease flags at_).counted → (lease flags a).owns = (lease flags at_).owns →
      Under path flags w a → a.Fits flags w' → Moves allowed path flags w at_ w' a := by
    intro a w' htable hnext hheap hcounted howns hunder hfits
    refine .stay htabled ?_ (.of_heap htable hnext hheap) hcounted howns hunder hfits
    unfold World.cells
    rw [hheap]
  have hover : ∀ {ret : ℤ} {counted locked : Option ℕ}, Under path flags w (.finished ret counted locked) :=
    fun _ huses => by cases huses
  cases at_ with
  | visiting =>
    simp only [gcStep] at h
    split at h
    · obtain ⟨rfl, rfl⟩ := Prod.mk.inj (Exec.done.inj h)
      exact hstay rfl rfl rfl rfl rfl hover trivial
    · rename_i addr htable
      obtain ⟨rfl, rfl⟩ := Prod.mk.inj (Exec.done.inj h)
      refine hstay rfl rfl rfl rfl rfl ?_ trivial
      rintro other huses
      rw [← Option.some.inj huses]
      exact htable
  | reading addr =>
    obtain ⟨pe, hheap, hdone⟩ := access_eq_done.mp h
    obtain ⟨rfl, rfl⟩ := Prod.mk.inj (Exec.done.inj hdone)
    split
    · exact hstay rfl rfl rfl rfl rfl hover trivial
    · exact hstay rfl rfl rfl rfl rfl hunder trivial
  | checked addr =>
    obtain ⟨pe, hheap, hdone⟩ := access_eq_done.mp h
    split at hdone
    · obtain ⟨rfl, rfl⟩ := Prod.mk.inj (Exec.done.inj hdone)
      exact hstay rfl rfl rfl rfl rfl hover trivial
    · rename_i hbusy
      obtain ⟨rfl, rfl⟩ := Prod.mk.inj (Exec.done.inj hdone)
      have hstored := World.Stores.put w addr { pe with locked := true }
      refine ⟨?_, .kept (hstored.kept hheap (World.follows_of_fd rfl)), fun other huses => hunder other huses, trivial⟩
      rw [hstored.cells]
      exact .lock (World.cells_of_heap hheap) (Bool.not_eq_true _ ▸ fun hlocked => hbusy (.inl hlocked)) rfl
  | examining addr =>
    obtain ⟨pe, hheap, hdone⟩ := access_eq_done.mp h
    split at hdone
    · obtain ⟨rfl, rfl⟩ := Prod.mk.inj (Exec.done.inj hdone)
      exact hstay rfl rfl rfl rfl rfl hunder trivial
    · split at hdone
      · obtain ⟨rfl, rfl⟩ := Prod.mk.inj (Exec.done.inj hdone)
        exact hstay rfl rfl rfl rfl rfl hunder trivial
      · split at hdone
        · obtain ⟨rfl, rfl⟩ := Prod.mk.inj (Exec.done.inj hdone)
          exact hstay rfl rfl rfl rfl rfl hunder trivial
        · obtain ⟨rfl, rfl⟩ := Prod.mk.inj (Exec.done.inj hdone)
          exact hstay rfl rfl rfl rfl rfl hunder trivial
  | dropping addr =>
    obtain ⟨rfl, rfl⟩ := Prod.mk.inj (Exec.done.inj h)
    exact hstay rfl rfl rfl rfl rfl hunder trivial
  | removing addr =>
    obtain ⟨rfl, rfl⟩ := Prod.mk.inj (Exec.done.inj h)
    have htable := hunder addr rfl
    obtain ⟨pe, hheap⟩ := Option.ne_none_iff_exists'.mp (htabled.listed path addr htable)
    refine ⟨?_, .gone htable, fun _ huses => (by cases huses), trivial⟩
    rw [World.remove_cells htable hheap]
    exact .drop rfl rfl (hallowed addr rfl)
  | unlocking addr =>
    obtain ⟨pe, hheap, hdone⟩ := access_eq_done.mp h
    obtain ⟨rfl, rfl⟩ := Prod.mk.inj (Exec.done.inj hdone)
    have hstored := World.Stores.put w addr { pe with locked := if replies.unlock then false else true }
    have hkept := hstored.kept hheap (World.follows_of_fd rfl)
    cases hunlock : replies.unlock with
    | true =>
      rw [hunlock] at hstored hkept
      refine ⟨?_, .kept hkept, fun _ huses => (by cases huses), trivial⟩
      rw [if_pos rfl] at hstored
      simp only [if_true]
      rw [hstored.cells]
      exact .unlock (World.cells_of_heap hheap) rfl
    | false =>
      rw [hunlock] at hstored hkept
      refine .stay htabled (hstored.cells_same hheap ?_) hkept rfl rfl hover trivial
      rw [Pentry.cell, Pentry.cell, hlocked addr pe rfl hheap]
      rfl
  | _ => cases h

/-- What holds where a party is goes on to hold when another one does something to the table. -/
theorem At.Fits.turned {other : CStr} (hfits : at_.Fits flags w) (htabled : w.Tabled) (hunder : Under path flags w at_)
    (hturned : w.Turned other w') : at_.Fits flags w' := by
  cases at_ with
  | holding addr =>
    intro pe' hheap'
    obtain ⟨pe, hheap⟩ := Option.ne_none_iff_exists'.mp (htabled.listed path addr (hunder addr rfl))
    have hfd := hfits pe hheap
    cases hturned with
    | kept hkept =>
      have hrel := hkept.heap addr
      rw [hheap, hheap'] at hrel
      cases hrel with
      | some hfollows => exact hfollows.fd hfd
    | grown =>
      simp only [World.insert, Function.update_apply] at hheap'
      split at hheap'
      · rename_i heq
        rw [htabled.fresh addr heq.ge] at hheap
        cases hheap
      · rw [hheap] at hheap'
        exact Option.some.inj hheap' ▸ hfd
    | gone htable =>
      obtain ⟨gone, hgone⟩ := Option.ne_none_iff_exists'.mp (htabled.listed other _ htable)
      rw [(World.remove_left htable hgone).2.1, Function.update_apply] at hheap'
      split at hheap'
      · cases hheap'
      · rw [hheap] at hheap'
        exact Option.some.inj hheap' ▸ hfd
  | _ => exact hfits

end Moves

end Threads

end Dropletfs
