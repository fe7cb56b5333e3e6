import Dropletfs.Evolution
import Dropletfs.WriteBack

/-!
# The states of an entry

An entry is local exactly when it has a descriptor. Opening sets both, a failed open sets
neither, and a lookup only ever marks as remote an entry that was not looked up before, which
has no descriptor. So a download never meets a local entry, and a lookup or a transfer through
a handle never meets a local entry without a descriptor.
-/

namespace Dropletfs

/-- The placeholder and the descriptor of an entry agree. -/
structure Pentry.Consistent (pe : Pentry) : Prop where
  usable : pe.Usable
  ondisk : pe.ondisk = .localFile ↔ 0 ≤ pe.fd

/-- An entry of the table under a path. -/
structure Pentry.Settled (pe : Pentry) (path : CStr) : Prop where
  path : pe.path = some path
  consistent : pe.Consistent

/-- A later state of an entry has the same path, still has a descriptor if it had one, and is consistent
if it was. -/
structure Pentry.Evolves (pe pe' : Pentry) : Prop where
  path : pe'.path = pe.path
  fd : 0 ≤ pe.fd → 0 ≤ pe'.fd
  consistent : pe.Consistent → pe'.Consistent

/-- Every path of the table has an entry, which is settled. -/
def World.Settled (w : World) : Prop :=
  ∀ path addr, w.table path = some addr → ∃ pe, w.heap addr = some pe ∧ pe.Settled path

/-- The copies of paths that a request makes succeed. -/
def Op.CopiesPath : Op → Prop
  | .getattr _ replies => replies.pathDup = true
  | .opendir _ replies => replies.pathDup = true
  | .create _ _ _ replies => replies.opening.pathDup = true
  | .open _ _ replies => replies.pathDup = true
  | _ => True

/-- `dfs_open` passes this entry to `dfs_get_local_copy`. -/
inductive Downloads (w : World) (path : CStr) (flags : BitVec 32) (replies : OpenReplies) : Pentry → Prop
  | intro {addr : ℕ} {w' : World} {pe : Pentry} : Found w path replies addr w' pe →
      getModeFromFlags flags ≠ .creat → (pe.held replies.semPost (getModeFromFlags flags)).fd < 0 →
      Downloads w path flags replies (pe.held replies.semPost (getModeFromFlags flags))

/-- Opening, creating and releasing make entries evolve. -/
theorem evolves_opening : ToleratesOpening Pentry.Evolves where
  refl _ := ⟨rfl, id, id⟩
  trans h₁ h₂ := ⟨h₂.path.trans h₁.path, fun h => h₂.fd (h₁.fd h), fun h => h₂.consistent (h₁.consistent h)⟩
  erased _ _ := ⟨rfl, id, fun h => ⟨h.usable, h.ondisk⟩⟩
  counted _ _ _ _ := ⟨rfl, id, fun h => ⟨h.usable, h.ondisk⟩⟩
  described _ _ _ _ := ⟨rfl, id, fun h => ⟨h.usable, h.ondisk⟩⟩
  opened _ _ hfd := ⟨rfl, fun _ => hfd, fun _ => ⟨.inr hfd, fun _ => hfd, fun _ => rfl⟩⟩

/-- Lookups make entries evolve: an entry that was not looked up before has no descriptor. -/
theorem evolves_lookups : ToleratesLookups Pentry.Evolves where
  toToleratesErasing := evolves_opening.toToleratesErasing
  touched _ _ _ _ := ⟨rfl, id, fun h => ⟨h.usable, h.ondisk⟩⟩
  listed _ _ := ⟨rfl, id, fun h => ⟨h.usable, h.ondisk⟩⟩
  typed _ _ := ⟨rfl, id, fun h => ⟨h.usable, h.ondisk⟩⟩
  looked pe hunset := by
    refine ⟨rfl, id, fun h => ⟨h.usable, ?_⟩⟩
    have hnot : ¬ 0 ≤ pe.fd := by
      rw [← h.ondisk, hunset]
      decide
    exact ⟨fun hlocal => (by cases hlocal), fun hfd => absurd hfd hnot⟩

/-- A new entry is consistent. -/
theorem Pentry.made_consistent (path : CStr) (dup : Bool) (filetype : Option Filetype) :
    (Pentry.made path dup filetype).Consistent := by
  refine ⟨.inl rfl, ?_⟩
  constructor
  · intro hlocal
    cases hlocal
  · intro hfd
    cases hfd

/-- An entry made for a path whose copy succeeds is settled. -/
theorem Pentry.made_settled (path : CStr) (filetype : Option Filetype) :
    (Pentry.made path true filetype).Settled path := ⟨rfl, Pentry.made_consistent path true filetype⟩

/-- A request whose copies succeed makes settled entries. -/
theorem Op.CopiesPath.makes_settled {op : Op} (h : op.CopiesPath) : op.makes.2.Settled op.makes.1 := by
  cases op with
  | getattr path replies =>
    simp only [Op.CopiesPath] at h
    simp only [Op.makes, h]
    exact Pentry.made_settled path none
  | opendir path replies =>
    simp only [Op.CopiesPath] at h
    simp only [Op.makes, h]
    exact Pentry.made_settled path (some .dir)
  | create path mode flags replies =>
    simp only [Op.CopiesPath] at h
    simp only [Op.makes, h]
    exact Pentry.made_settled path none
  | «open» path flags replies =>
    simp only [Op.CopiesPath] at h
    simp only [Op.makes, h]
    exact Pentry.made_settled path none
  | mkdir | mknod | read | write | release | unlink | rmdir | rename | gc => exact Pentry.made_settled [] none

/-- One request keeps the table settled. -/
theorem Session.step_settled {env : Env} {s s' : Session} {op : Op} (hsound : s.world.Sound env)
    (hsettled : s.world.Settled) (hcopies : op.CopiesPath) (hstep : s.step env op = .done s') :
    s'.world.Settled := by
  obtain ⟨w₁, hadded, hchanged⟩ := Session.step_changed evolves_opening (fun _ _ _ => evolves_lookups) hsound hstep
  have hgrown : w₁.Settled := by
    cases hadded with
    | same => exact hsettled
    | more hnone =>
      intro path addr htable
      simp only [World.insert, Function.update_apply] at htable ⊢
      split at htable
      · rename_i hpath
        obtain rfl := Option.some.inj htable
        rw [if_pos rfl, hpath]
        exact ⟨_, rfl, hcopies.makes_settled⟩
      · rw [if_neg (Nat.ne_of_lt (hsound.table_lt path addr htable))]
        exact hsettled path addr htable
  intro path addr htable
  obtain ⟨pe, hheap, hpe⟩ := hgrown path addr (hchanged.table path addr htable)
  have halive := hchanged.alive path addr htable (by rw [hheap]; rfl)
  obtain ⟨pe', hheap'⟩ := Option.isSome_iff_exists.mp halive
  obtain ⟨pe₁, hheap₁, hevolves⟩ := hchanged.heap addr pe' hheap'
  obtain rfl := Option.some.inj (hheap.symm.trans hheap₁)
  exact ⟨pe', hheap', hevolves.path.trans hpe.path, hevolves.consistent hpe.consistent⟩

/-- In a run whose copies of paths succeed, the table is settled. -/
theorem Session.Reached.settled {env : Env} {s : Session} (h : s.Reached env fun _ op => op.CopiesPath) :
    s.world.Settled := by
  refine GuardedRuns.Reaches.invariant (fun s => s.world.Settled) ?_ ?_ h
  · intro s hs path addr htable
    rw [hs.table] at htable
    cases htable
  · intro s op s' hreached hs hcopies hstep
    exact Session.step_settled (Session.Reached.sound hreached) hs hcopies hstep

/-- One request leaves every entry consistent. -/
theorem Session.step_consistent {env : Env} {s s' : Session} {op : Op} (hsound : s.world.Sound env)
    (h : ∀ addr pe, s.world.heap addr = some pe → pe.Consistent) (hstep : s.step env op = .done s') :
    ∀ addr pe, s'.world.heap addr = some pe → pe.Consistent := by
  obtain ⟨w₁, hadded, hchanged⟩ := Session.step_changed evolves_opening (fun _ _ _ => evolves_lookups) hsound hstep
  intro addr pe' hheap'
  obtain ⟨pe, hheap, hevolves⟩ := hchanged.heap addr pe' hheap'
  refine hevolves.consistent ?_
  cases hadded with
  | same => exact h addr pe hheap
  | more =>
    simp only [World.insert, Function.update_apply] at hheap
    split at hheap
    · rw [← Option.some.inj hheap]
      have hfresh : op.makes.2.fd = -1 ∧ op.makes.2.ondisk = .unset := by cases op <;> exact ⟨rfl, rfl⟩
      exact ⟨.inl hfresh.1, by rw [hfresh.1, hfresh.2]; decide⟩
    · exact h addr pe hheap

/-- In every run, every entry is consistent, whether or not the copy of its path succeeded. -/
theorem Session.Reached.consistent {env : Env} {guard : Session → Op → Prop} {s : Session} (h : s.Reached env guard) :
    ∀ addr pe, s.world.heap addr = some pe → pe.Consistent := by
  refine GuardedRuns.Reaches.invariant (fun s => ∀ addr pe, s.world.heap addr = some pe → pe.Consistent) ?_ ?_ h
  · intro s hs addr pe hheap
    rw [hs.heap] at hheap
    cases hheap
  · intro s op s' hreached hs _ hstep
    exact Session.step_consistent (Session.Reached.sound hreached) hs hstep

/-- One request leaves an entry that has a descriptor with a descriptor, if it leaves it at all. -/
theorem Session.step_keeps_fd {env : Env} {s s' : Session} {op : Op} {addr : ℕ} (hsound : s.world.Sound env)
    (hlt : addr < s.world.nextAddr) (hfd : ∀ pe, s.world.heap addr = some pe → 0 ≤ pe.fd)
    (hstep : s.step env op = .done s') :
    addr < s'.world.nextAddr ∧ ∀ pe, s'.world.heap addr = some pe → 0 ≤ pe.fd := by
  obtain ⟨w₁, hadded, hchanged⟩ := Session.step_changed evolves_opening (fun _ _ _ => evolves_lookups) hsound hstep
  have hgrown : addr < w₁.nextAddr ∧ w₁.heap addr = s.world.heap addr := by
    cases hadded with
    | same => exact ⟨hlt, rfl⟩
    | more =>
      simp only [World.insert]
      exact ⟨by omega, Function.update_of_ne (by omega) ..⟩
  refine ⟨by rw [hchanged.nextAddr]; exact hgrown.1, fun pe' hheap' => ?_⟩
  obtain ⟨pe, hheap, hevolves⟩ := hchanged.heap addr pe' hheap'
  rw [hgrown.2] at hheap
  exact hevolves.fd (hfd pe hheap)

/-- An entry that has a descriptor keeps one as long as it is there. -/
theorem reaches_keeps_fd {env : Env} {guard : Session → Op → Prop} {s s' : Session} {addr : ℕ} {pe : Pentry}
    (hsound : s.world.Sound env) (hheap : s.world.heap addr = some pe) (hfd : 0 ≤ pe.fd)
    (h : GuardedRuns.Reaches (Session.step env) guard (· = s) s') :
    s'.world.Sound env ∧ ∀ pe', s'.world.heap addr = some pe' → 0 ≤ pe'.fd := by
  have hlt : addr < s.world.nextAddr := by
    by_contra hge
    rw [hsound.fresh addr (by omega)] at hheap
    cases hheap
  have hall : s'.world.Sound env ∧ addr < s'.world.nextAddr ∧ ∀ pe', s'.world.heap addr = some pe' → 0 ≤ pe'.fd := by
    refine GuardedRuns.Reaches.invariant (fun s' => s'.world.Sound env ∧ addr < s'.world.nextAddr ∧
      ∀ pe', s'.world.heap addr = some pe' → 0 ≤ pe'.fd) ?_ ?_ h
    · rintro _ rfl
      refine ⟨hsound, hlt, fun pe' hheap' => ?_⟩
      obtain rfl := Option.some.inj (hheap.symm.trans hheap')
      exact hfd
    · rintro s₁ op s₂ - ⟨hsound₁, hlt₁, hfd₁⟩ - hstep
      obtain ⟨hlt₂, hfd₂⟩ := Session.step_keeps_fd hsound₁ hlt₁ hfd₁ hstep
      exact ⟨Session.step_sound hsound₁ hstep, hlt₂, hfd₂⟩
  exact ⟨hall.1, hall.2.2⟩

/-- The entry that an open works on is consistent. -/
theorem Found.consistent {w w' : World} {path : CStr} {replies : OpenReplies} {addr : ℕ} {pe : Pentry}
    (h : Found w path replies addr w' pe) (hsettled : w.Settled) : pe.Consistent := by
  rcases findOrPopulate_cases h.lookup with ⟨htable, rfl⟩ | ⟨-, rfl, rfl⟩
  · obtain ⟨pe', hheap, hpe⟩ := hsettled path addr htable
    obtain rfl := Option.some.inj (h.heap.symm.trans hheap)
    exact hpe.consistent
  · have hnew := h.heap
    simp only [World.insert, Function.update_self, Option.some.injEq] at hnew
    have hmade := (Pentry.made_settled path none).consistent
    rw [← hnew]
    exact ⟨hmade.usable, hmade.ondisk⟩

/-- An entry that is downloaded for is not local, so its digests are not even compared. -/
theorem Downloads.not_local {w : World} {path : CStr} {flags : BitVec 32} {replies : OpenReplies}
    {pe : Pentry} (h : Downloads w path flags replies pe) (hsettled : w.Settled) :
    pe.ondisk ≠ .localFile ∧ ∀ metadata headers junk,
      (compareDigests { pe with metadata := metadata } headers junk).1 = false := by
  cases h with
  | @intro addr w' pe₀ hfound _ hneg =>
    have hheld := (evolves_opening.held pe₀ replies.semPost (getModeFromFlags flags)).consistent
      (hfound.consistent hsettled)
    have hnot : (pe₀.held replies.semPost (getModeFromFlags flags)).ondisk ≠ .localFile := by
      rw [ne_eq, hheld.ondisk]
      omega
    refine ⟨hnot, fun metadata headers junk => ?_⟩
    unfold compareDigests
    rw [if_pos hnot]

/-- A lookup that examines a local file has a descriptor for it. -/
theorem LookupEntry.local_fd {w w₁ : World} {path : CStr} {replies : GetattrReplies} {addr : ℕ} {pe : Pentry}
    (h : LookupEntry w path replies addr w₁) (hsettled : w.Settled) (hheap : w₁.heap addr = some pe)
    (hlocal : pe.ondisk = .localFile) : 0 ≤ pe.fd := by
  cases h with
  | found htable =>
    obtain ⟨pe', hheap', hpe⟩ := hsettled path addr htable
    obtain rfl := Option.some.inj (hheap.symm.trans hheap')
    exact hpe.consistent.ondisk.mp hlocal
  | made =>
    simp only [World.insert, Function.update_self, Option.some.injEq] at hheap
    rw [← hheap] at hlocal
    cases hlocal

/-- In every run whose copies of paths succeed, each entry of the table carries its own path, its
descriptor is -1 or non-negative, and it is local exactly when it has a descriptor. So a download never
meets a local entry, a lookup never a local entry without a descriptor, and the entry of a handle that
`dfs_open` returned has a descriptor as long as it is in the table. -/
theorem reached_settled (env : Env) (s : Session) (h : s.Reached env fun _ op => op.CopiesPath) :
    s.world.Settled ∧
      (∀ path flags replies pe, Downloads s.world path flags replies pe → pe.ondisk ≠ .localFile ∧
        ∀ metadata headers junk, (compareDigests { pe with metadata := metadata } headers junk).1 = false) ∧
      (∀ path replies addr w₁ pe, LookupEntry s.world path replies addr w₁ → w₁.heap addr = some pe →
        pe.ondisk = .localFile → 0 ≤ pe.fd) ∧
      ∀ path flags replies opened addr s', replies.pathDup = true →
        dfsOpen env s.world path flags replies = .done opened → opened.ret = 0 → opened.fh = some addr →
        GuardedRuns.Reaches (Session.step env) (fun _ op => op.CopiesPath) (· = s.opened path flags opened) s' →
        ∀ other, s'.world.table other = some addr → ∃ pe, s'.world.heap addr = some pe ∧ 0 ≤ pe.fd := by
  have hsettled := h.settled
  have hsound : s.world.Sound env := Session.Reached.sound h
  refine ⟨hsettled, fun path flags replies pe hpe => hpe.not_local hsettled,
    fun path replies addr w₁ pe hentry hheap hlocal => hentry.local_fd hsettled hheap hlocal, ?_⟩
  intro path flags replies opened addr s' hdup hopen hret hfh hreaches other htable
  have hstep : s.step env (.open path flags replies) = .done (s.opened path flags opened) :=
    Exec.bind_eq_done.mpr ⟨opened, hopen, rfl⟩
  have hcopies : (Op.open path flags replies).CopiesPath := hdup
  obtain ⟨-, pe, file, base, hholds, -⟩ := dfsOpen_base hsound hopen hret hfh
  obtain ⟨-, hfd⟩ := reaches_keeps_fd (Session.step_sound hsound hstep) hholds.heap hholds.fd hreaches
  have hsettled' : s'.world.Settled := by
    refine GuardedRuns.Reaches.invariant (fun s' => s'.world.Sound env ∧ s'.world.Settled) ?_ ?_ hreaches |>.2
    · rintro _ rfl
      exact ⟨Session.step_sound hsound hstep, Session.step_settled hsound hsettled hcopies hstep⟩
    · rintro s₁ op s₂ - ⟨hsound₁, hsettled₁⟩ hcopies hnext
      exact ⟨Session.step_sound hsound₁ hnext, Session.step_settled hsound₁ hsettled₁ hcopies hnext⟩
  obtain ⟨pe', hheap', -⟩ := hsettled' other addr htable
  exact ⟨pe', hheap', hfd pe' hheap'⟩

/-- A file that was looked up and then opened is settled. -/
theorem reached_settled_open :
    ∃ s : Session, (∃ addr, s.world.table "/f".toList = some addr) ∧ s.world.Settled := by
  have hreached : ∃ s : Session, (∃ addr, s.world.table "/f".toList = some addr) ∧
      s.Reached Env.plain fun _ op => op.CopiesPath := by
    refine ⟨_, ?_, GuardedRuns.Reaches.step (i := .open "/f".toList oRdonly (.granted 3))
      (GuardedRuns.Reaches.step (s := .start .empty (.file "/f".toList [65])) (i := .getattr "/f".toList .granted)
        (.start (Session.start_initial ..)) rfl rfl) rfl rfl⟩
    exact ⟨0, rfl⟩
  obtain ⟨s, htable, h⟩ := hreached
  exact ⟨s, htable, (reached_settled Env.plain s h).1⟩

end Dropletfs
