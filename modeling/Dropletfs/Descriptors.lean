import Dropletfs.Liveness
import Dropletfs.Upload

/-!
# The descriptors of the entries

Providing a descriptor keeps the one the entry has, downloads the object, or truncates the
cache file. In every run, whatever the calls reply, each entry is without a descriptor or
has one of its own, open at offset zero: downloads and uploads work on descriptors that
they open and close themselves, reads and writes give their offset, and a release rewinds.
-/

namespace Dropletfs

/-- The flag of an entry once a descriptor is provided in a mode other than `MODE_CREAT`. -/
def StateMode.flag (mode : StateMode) (flag : Flag) : Flag := if mode = .rdonly then flag else .dirty

/-- The ways a mode's function can return: it fails, keeps the descriptor, downloads the object, or
truncates the cache file. -/
inductive ModeOutcome (env : Env) (fs : LocalFs) (r : Remote) (pe : Pentry) (path : CStr) (mode : StateMode)
    (replies : OpenReplies) : ℤ → LocalFs → Pentry → Prop
  | failed {fs' : LocalFs} {metadata : Option Dict} {digest : Option CStr} :
      fs' = fs ∨ pe.fd = -1 ∧ fs.Frame (CopyNames env.conf path) fs' →
      ModeOutcome env fs r pe path mode replies (-1) fs' { pe with metadata := metadata, digest := digest }
  | kept : mode ≠ .creat → 0 ≤ pe.fd →
      ModeOutcome env fs r pe path mode replies 0 fs { pe with flag := mode.flag pe.flag }
  | fetched {fs' : LocalFs} {obj : Obj} {bytes : Bytes} {fd : ℕ} {metadata : Option Dict}
      {digest : Option CStr} : mode ≠ .creat → pe.fd = -1 → fs.Frame (CopyNames env.conf path) fs' →
      fs.files fd = none → r.lookup path = some obj →
      obj.fetched env replies.copy.unpack = some bytes →
      fs'.OpenAt (copyName env.conf path) fd (mode ≠ .rdonly) bytes →
      ModeOutcome env fs r pe path mode replies 0 fs'
        { pe with fd := fd, flag := mode.flag pe.flag, metadata := metadata, digest := digest }
  | created {fs' : LocalFs} {name : CStr} {fd : ℕ} : mode = .creat →
      buildCacheTree env.conf path replies.treeDup = some name →
      fs.openFile env.proc name (openFlags .creat) 0o644 replies.openCache = some (fd, fs') →
      ModeOutcome env fs r pe path mode replies 0 fs' { pe with fd := fd, flag := .dirty }

/-- An entry without a descriptor has -1 in its place. -/
def Pentry.Usable (pe : Pentry) : Prop := pe.fd = -1 ∨ 0 ≤ pe.fd

/-- `open_existing` fails, keeps the descriptor, or downloads the object; the flag is left to its
callers. -/
theorem openExisting_outcome {env : Env} {fs fs' : LocalFs} {r : Remote} {pe pe' : Pentry} {path : CStr}
    {mode : StateMode} {replies : OpenReplies} {ret : ℤ} (hmode : mode ≠ .creat) (hpe : pe.Usable)
    (h : openExisting env fs r pe path (openFlags mode) replies = .done (ret, fs', pe')) :
    ret = -1 ∧ (∃ metadata digest, pe' = { pe with metadata := metadata, digest := digest }) ∧ pe.fd = -1 ∧
        fs.Frame (CopyNames env.conf path) fs' ∨
      ret = 0 ∧ 0 ≤ pe.fd ∧ fs' = fs ∧ pe' = pe ∨
      ret = 0 ∧ pe.fd = -1 ∧ fs.Frame (CopyNames env.conf path) fs' ∧ ∃ obj bytes metadata digest, ∃ fd : ℕ,
        r.lookup path = some obj ∧ obj.fetched env replies.copy.unpack = some bytes ∧ fs.files fd = none ∧
        fs'.OpenAt (copyName env.conf path) fd (mode ≠ .rdonly) bytes ∧
        pe' = { pe with fd := fd, metadata := metadata, digest := digest } := by
  have hflags : (openFlags mode).trunc = false ∧ (openFlags mode).creat = false ∧
      (openFlags mode).write = decide (mode ≠ .rdonly) := by
    cases mode with
    | rdonly => decide
    | wronly => decide
    | rdwr => decide
    | creat => exact absurd rfl hmode
  unfold openExisting at h
  split at h
  · rename_i hneg
    have hnone : pe.fd = -1 := hpe.resolve_right (by omega)
    obtain ⟨⟨fd, fs₁, pe₁⟩, hcopy, hdone⟩ := Exec.bind_eq_done.mp h
    have hframe := dfsGetLocalCopy_frame hcopy
    obtain ⟨metadata, digest, hentry⟩ := dfsGetLocalCopy_entry hcopy
    simp only [pure] at hdone
    split at hdone
    · simp only [Exec.done.injEq, Prod.mk.injEq] at hdone
      obtain ⟨rfl, rfl, rfl⟩ := hdone
      exact .inl ⟨rfl, ⟨metadata, digest, hentry⟩, hnone, hframe⟩
    · rename_i hfd
      simp only [Exec.done.injEq, Prod.mk.injEq] at hdone
      obtain ⟨rfl, rfl, rfl⟩ := hdone
      obtain ⟨obj, bytes, fd', hlookup, hfetched, rfl, hfree, hopen⟩ :=
        dfsGetLocalCopy_content hflags.1 hflags.2.1 hcopy (by rwa [hnone]) hfd
      rw [hflags.2.2] at hopen
      exact .inr (.inr ⟨rfl, hnone, hframe, obj, bytes, metadata, digest, fd', hlookup, hfetched, hfree, hopen,
        by rw [hentry]⟩)
  · rename_i hneg
    simp only [Exec.done.injEq, Prod.mk.injEq] at h
    obtain ⟨rfl, rfl, rfl⟩ := h
    exact .inr (.inl ⟨rfl, by omega, rfl, rfl⟩)

/-- Whatever the mode, its function returns in one of these ways. -/
theorem openByMode_outcome {env : Env} {fs fs' : LocalFs} {r : Remote} {pe pe' : Pentry} {path : CStr}
    {mode : StateMode} {replies : OpenReplies} {ret : ℤ} (hpe : pe.Usable)
    (h : openByMode env fs r pe path mode replies = .done (ret, fs', pe')) :
    ModeOutcome env fs r pe path mode replies ret fs' pe' := by
  have hwronly : ∀ mode, mode ≠ .creat → mode ≠ .rdonly →
      openWronly env fs r pe path (openFlags mode) replies = .done (ret, fs', pe') →
      ModeOutcome env fs r pe path mode replies ret fs' pe' := by
    intro mode hcreat hrdonly h
    have hflag : mode.flag pe.flag = .dirty := by rw [StateMode.flag, if_neg hrdonly]
    obtain ⟨⟨ret₁, fs₁, pe₁⟩, hexisting, hdone⟩ := Exec.bind_eq_done.mp h
    simp only [pure] at hdone
    obtain ⟨rfl, ⟨metadata, digest, rfl⟩, hframe⟩ | ⟨rfl, hfd, rfl, rfl⟩ |
      ⟨rfl, hfd, hframe, obj, bytes, metadata, digest, fd, hlookup, hfetched, hfree, hopen, rfl⟩ :=
      openExisting_outcome hcreat hpe hexisting
    · rw [if_neg (by decide)] at hdone
      simp only [Exec.done.injEq, Prod.mk.injEq] at hdone
      obtain ⟨rfl, rfl, rfl⟩ := hdone
      exact .failed (.inr hframe)
    · simp only [if_true, Exec.done.injEq, Prod.mk.injEq] at hdone
      obtain ⟨rfl, rfl, rfl⟩ := hdone
      rw [← hflag]
      exact .kept hcreat hfd
    · simp only [if_true, Exec.done.injEq, Prod.mk.injEq] at hdone
      obtain ⟨rfl, rfl, rfl⟩ := hdone
      rw [← hflag]
      exact .fetched hcreat hfd hframe hfree hlookup hfetched hopen
  cases mode with
  | rdonly =>
    obtain ⟨rfl, ⟨metadata, digest, rfl⟩, hframe⟩ | ⟨rfl, hfd, rfl, rfl⟩ |
      ⟨rfl, hfd, hframe, obj, bytes, metadata, digest, fd, hlookup, hfetched, hfree, hopen, rfl⟩ :=
      openExisting_outcome (by decide) hpe h
    · exact .failed (.inr hframe)
    · exact .kept (by decide) hfd
    · exact .fetched (by decide) hfd hframe hfree hlookup hfetched hopen
  | wronly => exact hwronly _ (by decide) (by decide) h
  | rdwr => exact hwronly _ (by decide) (by decide) h
  | creat =>
    have hunchanged : ModeOutcome env fs r pe path .creat replies (-1) fs
        { pe with metadata := pe.metadata, digest := pe.digest } := .failed (.inl rfl)
    simp only [openByMode, openCreat, Exec.done.injEq] at h
    split at h
    · simp only [Prod.mk.injEq] at h
      obtain ⟨rfl, rfl, rfl⟩ := h
      exact hunchanged
    · rename_i name htree
      split at h
      · simp only [Prod.mk.injEq] at h
        obtain ⟨rfl, rfl, rfl⟩ := h
        exact hunchanged
      · rename_i hopen
        simp only [Prod.mk.injEq] at h
        obtain ⟨rfl, rfl, rfl⟩ := h
        exact .created rfl htree hopen

/-- The descriptor of an entry, if it has one, is open at the start of a file. -/
def Pentry.Rewound (pe : Pentry) (fs : LocalFs) : Prop :=
  pe.fd = -1 ∨ ∃ (fd : ℕ) (file : OpenFile), pe.fd = fd ∧ fs.files fd = some file ∧ file.offset = 0

/-- The entries have addresses of their own and descriptors of their own, and only excluded paths are
marked so. -/
structure World.Sound (env : Env) (w : World) : Prop where
  fresh : ∀ addr, w.nextAddr ≤ addr → w.heap addr = none
  table_lt : ∀ path addr, w.table path = some addr → addr < w.nextAddr
  table_inj : ∀ path other addr, w.table path = some addr → w.table other = some addr → path = other
  rewound : ∀ addr pe, w.heap addr = some pe → pe.Rewound w.fs
  fd_inj : ∀ addr other pe pe', w.heap addr = some pe → w.heap other = some pe' → 0 ≤ pe.fd →
    pe.fd = pe'.fd → addr = other
  exclude : ∀ path addr pe, w.table path = some addr → w.heap addr = some pe → pe.exclude = true →
    reMatcher env.conf.regex path = true

/-- Every descriptor that was open still is, unchanged. -/
def LocalFs.Keeps (fs fs' : LocalFs) : Prop := ∀ fd file, fs.files fd = some file → fs'.files fd = some file

/-- The usable descriptors are those that are open. -/
theorem Pentry.Rewound.usable {pe : Pentry} {fs : LocalFs} (h : pe.Rewound fs) : pe.Usable := by
  rcases h with hnone | ⟨fd, file, hfd, -⟩
  · exact .inl hnone
  · exact .inr (by omega)

/-- A rewound descriptor stays so as long as open descriptors do. -/
theorem Pentry.Rewound.keeps {pe : Pentry} {fs fs' : LocalFs} (h : pe.Rewound fs) (hkeeps : fs.Keeps fs') :
    pe.Rewound fs' := by
  rcases h with hnone | ⟨fd, file, hfd, hfile, hoffset⟩
  · exact .inl hnone
  · exact .inr ⟨fd, file, hfd, hkeeps fd file hfile, hoffset⟩

/-- The ways the descriptor of an entry can change: not at all, or to a new one. -/
inductive FdChange (fs fs' : LocalFs) (pe pe' : Pentry) : Prop
  | same : pe'.fd = pe.fd → FdChange fs fs' pe pe'
  | new {fd : ℕ} {file : OpenFile} : pe'.fd = fd → fs.files fd = none → fs'.files fd = some file →
      file.offset = 0 → FdChange fs fs' pe pe'

/-- A mode's function keeps the open descriptors and changes that of the entry to a new one at most. -/
theorem ModeOutcome.fdChange {env : Env} {fs fs' : LocalFs} {r : Remote} {pe pe' : Pentry} {path : CStr}
    {mode : StateMode} {replies : OpenReplies} {ret : ℤ}
    (h : ModeOutcome env fs r pe path mode replies ret fs' pe') :
    fs.Keeps fs' ∧ FdChange fs fs' pe pe' ∧ pe'.exclude = pe.exclude := by
  cases h with
  | failed hfs =>
    refine ⟨?_, .same rfl, rfl⟩
    rcases hfs with rfl | ⟨-, hframe⟩
    · exact fun _ _ h => h
    · exact hframe.files
  | kept => exact ⟨fun _ _ h => h, .same rfl, rfl⟩
  | fetched _ _ hframe hfree _ _ hopen =>
    obtain ⟨ino, -, hfile, -⟩ := hopen
    exact ⟨hframe.files, .new rfl hfree hfile rfl, rfl⟩
  | created _ _ hopen =>
    obtain ⟨hfree, ino, hfile, -⟩ := LocalFs.openFile_file hopen
    exact ⟨fun _ _ => LocalFs.openFile_files hopen, .new rfl hfree hfile rfl, rfl⟩

namespace World.Sound

variable {env : Env} {w w' : World}

/-- What is sound stays so when neither the table nor the entries nor the open descriptors change. -/
theorem frame (h : w.Sound env) (hheap : w'.heap = w.heap) (hnext : w'.nextAddr = w.nextAddr)
    (htable : w'.table = w.table) (hfs : w.fs.Keeps w'.fs) : w'.Sound env where
  fresh := by
    rw [hheap, hnext]
    exact h.fresh
  table_lt := by
    rw [htable, hnext]
    exact h.table_lt
  table_inj := by
    rw [htable]
    exact h.table_inj
  rewound := by
    rw [hheap]
    exact fun addr pe hpe => (h.rewound addr pe hpe).keeps hfs
  fd_inj := by
    rw [hheap]
    exact h.fd_inj
  exclude := by
    rw [htable, hheap]
    exact h.exclude

/-- A quiet change. -/
theorem quiet (h : w.Sound env) (hquiet : w.Quiet w') : w'.Sound env where
  fresh := by
    rw [hquiet.nextAddr]
    exact fun addr hle => hquiet.heap_none (h.fresh addr hle)
  table_lt := by
    rw [hquiet.table, hquiet.nextAddr]
    exact h.table_lt
  table_inj := by
    rw [hquiet.table]
    exact h.table_inj
  rewound := by
    intro addr pe' hheap'
    obtain ⟨pe, hheap, hcore⟩ := hquiet.heap_after hheap'
    have hfd : pe'.fd = pe.fd := congrArg Core.fd hcore
    rw [Pentry.Rewound, hfd, hquiet.fs]
    exact h.rewound addr pe hheap
  fd_inj := by
    intro addr other pe' qe' hpe' hqe' hpos heq
    obtain ⟨pe, hpe, hcore⟩ := hquiet.heap_after hpe'
    obtain ⟨qe, hqe, hcore'⟩ := hquiet.heap_after hqe'
    have hfd : pe'.fd = pe.fd := congrArg Core.fd hcore
    have hfd' : qe'.fd = qe.fd := congrArg Core.fd hcore'
    exact h.fd_inj addr other pe qe hpe hqe (by omega) (by omega)
  exclude := by
    intro path addr pe' htable hheap' hexclude
    obtain ⟨pe, hheap, hcore⟩ := hquiet.heap_after hheap'
    have hsame : pe'.exclude = pe.exclude := congrArg Core.exclude hcore
    rw [hquiet.table] at htable
    exact h.exclude path addr pe htable hheap (by rw [← hsame]; exact hexclude)

/-- A new entry. -/
theorem insert {path : CStr} {pe : Pentry} (h : w.Sound env) (hfresh : pe.Fresh) :
    (w.insert path pe).2.Sound env where
  fresh := by
    intro addr hle
    simp only [World.insert] at hle ⊢
    rw [Function.update_of_ne (by omega)]
    exact h.fresh addr (by omega)
  table_lt := by
    intro other addr htable
    simp only [World.insert, Function.update_apply] at htable ⊢
    split at htable
    · have := Option.some.inj htable
      omega
    · have := h.table_lt other addr htable
      omega
  table_inj := by
    intro p q addr hp hq
    simp only [World.insert, Function.update_apply] at hp hq
    have hold : ∀ p, w.table p ≠ some w.nextAddr := fun p hp => Nat.lt_irrefl _ (h.table_lt p _ hp)
    split at hp <;> split at hq
    · simp_all
    · exact absurd (Option.some.inj hp ▸ hq) (hold q)
    · exact absurd (Option.some.inj hq ▸ hp) (hold p)
    · exact h.table_inj p q addr hp hq
  rewound := by
    intro addr pe' hheap
    simp only [World.insert, Function.update_apply] at hheap
    split at hheap
    · obtain rfl := Option.some.inj hheap
      exact .inl hfresh.fd
    · exact h.rewound addr pe' hheap
  fd_inj := by
    intro addr other pe₁ pe₂ h₁ h₂ hpos heq
    have hfd := hfresh.fd
    simp only [World.insert, Function.update_apply] at h₁ h₂
    split at h₁
    · obtain rfl := Option.some.inj h₁
      omega
    · split at h₂
      · obtain rfl := Option.some.inj h₂
        omega
      · exact h.fd_inj addr other pe₁ pe₂ h₁ h₂ hpos heq
  exclude := by
    intro other addr pe' htable hheap hexclude
    simp only [World.insert, Function.update_apply] at htable hheap
    split at htable
    · obtain rfl := Option.some.inj htable
      rw [if_pos rfl] at hheap
      obtain rfl := Option.some.inj hheap
      rw [hfresh.exclude] at hexclude
      cases hexclude
    · have hlt := h.table_lt other addr htable
      rw [if_neg (by omega)] at hheap
      exact h.exclude other addr pe' htable hheap hexclude

/-- One more entry at most. -/
theorem grown {path : CStr} (h : w.Sound env) (hgrown : w.Grown path w') : w'.Sound env := by
  cases hgrown with
  | same => exact h
  | more _ hfresh => exact h.insert hfresh

/-- Storing an entry whose descriptor is the one it had or a new one, together with changes to the local
files and the store. -/
theorem put {addr : ℕ} {pe pe' : Pentry} {fs : LocalFs} {remote : Remote} {trace : List Event} (h : w.Sound env)
    (hheap : w.heap addr = some pe)
    (hfs : w.fs.Keeps fs) (hfd : FdChange w.fs fs pe pe')
    (hexclude : pe'.exclude = true → pe.exclude = true ∨
      ∀ path, w.table path = some addr → reMatcher env.conf.regex path = true) :
    (({ w with fs := fs, remote := remote, trace := trace } : World).put addr pe').Sound env where
  fresh := by
    intro other hother
    have hne : other ≠ addr := by
      rintro rfl
      rw [h.fresh _ hother] at hheap
      cases hheap
    rw [put_heap_ne _ _ hne]
    exact h.fresh other hother
  table_lt := h.table_lt
  table_inj := h.table_inj
  rewound := by
    intro other qe hqe
    by_cases hother : other = addr
    · subst hother
      rw [put_heap_self] at hqe
      obtain rfl := Option.some.inj hqe
      cases hfd with
      | same hsame =>
        have hrewound := (h.rewound other pe hheap).keeps hfs
        rwa [Pentry.Rewound, ← hsame] at hrewound
      | new hfd' _ hfile hoffset => exact .inr ⟨_, _, hfd', hfile, hoffset⟩
    · rw [put_heap_ne _ _ hother] at hqe
      exact (h.rewound other qe hqe).keeps hfs
  fd_inj := by
    -- a new descriptor was not open, and those of the other entries were
    have hnew : ∀ other qe, other ≠ addr → w.heap other = some qe → 0 ≤ pe'.fd → pe'.fd ≠ qe.fd := by
      intro other qe hother hqe hpos heq
      cases hfd with
      | same hsame =>
        exact hother (h.fd_inj addr other pe qe hheap hqe (by omega) (by omega)).symm
      | @new new _ hfd' hfree _ _ =>
        rcases h.rewound other qe hqe with hnone | ⟨fd, file, hfd, hfile, -⟩
        · omega
        · obtain rfl : fd = new := by omega
          rw [hfree] at hfile
          cases hfile
    intro a b pa pb ha hb hpos heq
    by_cases haddr : a = addr
    · subst haddr
      rw [put_heap_self] at ha
      obtain rfl := Option.some.inj ha
      by_cases hbddr : b = a
      · exact hbddr.symm
      · rw [put_heap_ne _ _ hbddr] at hb
        exact absurd heq (hnew b pb hbddr hb hpos)
    · rw [put_heap_ne _ _ haddr] at ha
      by_cases hbddr : b = addr
      · subst hbddr
        rw [put_heap_self] at hb
        obtain rfl := Option.some.inj hb
        exact absurd heq.symm (hnew a pa haddr ha (by omega))
      · rw [put_heap_ne _ _ hbddr] at hb
        exact h.fd_inj a b pa pb ha hb hpos heq
  exclude := by
    intro path other qe htable hqe hexcluded
    by_cases hother : other = addr
    · subst hother
      rw [put_heap_self] at hqe
      obtain rfl := Option.some.inj hqe
      rcases hexclude hexcluded with hbefore | hmatch
      · exact h.exclude path other pe htable hheap hbefore
      · exact hmatch path htable
    · rw [put_heap_ne _ _ hother] at hqe
      exact h.exclude path other qe htable hqe hexcluded

/-- Destroying the entry of a path closes its descriptor, which no other entry has. -/
theorem remove {path : CStr} (h : w.Sound env) : (w.remove path).Sound env := by
  unfold World.remove
  split
  · exact h
  · rename_i addr htable
    unfold World.free
    split
    · rename_i hnone
      refine ⟨h.fresh, ?_, ?_, h.rewound, h.fd_inj, ?_⟩
      · intro other a ha
        simp only [Function.update_apply] at ha
        split at ha
        · cases ha
        · exact h.table_lt other a ha
      · intro p q a hp hq
        simp only [Function.update_apply] at hp hq
        split at hp
        · cases hp
        · split at hq
          · cases hq
          · exact h.table_inj p q a hp hq
      · intro other a pe ha hpe hexclude
        simp only [Function.update_apply] at ha
        split at ha
        · cases ha
        · exact h.exclude other a pe ha hpe hexclude
    · rename_i pe hheap
      have hheap' : ∀ a pe', Function.update w.heap addr none a = some pe' → a ≠ addr ∧ w.heap a = some pe' := by
        intro a pe' ha
        rw [Function.update_apply] at ha
        split at ha
        · cases ha
        · exact ⟨‹_›, ha⟩
      have htable' : ∀ p a, Function.update w.table path none p = some a → w.table p = some a := by
        intro p a ha
        rw [Function.update_apply] at ha
        split at ha
        · cases ha
        · exact ha
      refine ⟨?_, fun p a ha => h.table_lt p a (htable' p a ha),
        fun p q a hp hq => h.table_inj p q a (htable' p a hp) (htable' q a hq), ?_, ?_,
        fun p a pe' hp ha => h.exclude p a pe' (htable' p a hp) (hheap' a pe' ha).2⟩
      · intro a ha
        simp only [Function.update_apply]
        split
        · rfl
        · exact h.fresh a ha
      · intro a pe' ha
        obtain ⟨hne, ha⟩ := hheap' a pe' ha
        rcases h.rewound a pe' ha with hnone | ⟨fd, file, hfd, hfile, hoffset⟩
        · exact .inl hnone
        · refine .inr ⟨fd, file, hfd, ?_, hoffset⟩
          simp only
          split
          · have hother : fd ≠ pe.fd.toNat := by
              intro heq
              exact hne (h.fd_inj a addr pe' pe ha hheap (by omega) (by omega))
            simpa only [LocalFs.close, Function.update_of_ne hother] using hfile
          · exact hfile
      · intro a b pa pb ha hb hpos heq
        exact h.fd_inj a b pa pb (hheap' a pa ha).2 (hheap' b pb hb).2 hpos heq

end World.Sound

section Requests

variable {env : Env} {w : World}

/-- Removing a path leaves the entries of the other paths. -/
theorem World.remove_entry_ne {path other : CStr} (hsound : w.Sound env) (hne : other ≠ path) :
    (w.remove path).entry other = w.entry other := by
  cases htable : w.table path with
  | none => simp only [World.remove, htable]
  | some addr =>
    cases hheap : w.heap addr with
    | none => simp only [World.entry, World.remove, htable, World.free, hheap, Function.update_of_ne hne]
    | some pe =>
      simp only [World.entry, World.remove, htable, World.free, hheap, Function.update_of_ne hne]
      cases hother : w.table other with
      | none => rfl
      | some addr' =>
        have haddr : addr' ≠ addr := by
          rintro rfl
          exact hne (hsound.table_inj other path _ hother htable)
        simp only [Option.bind_some, Function.update_of_ne haddr]

/-- Counting and locking leave the descriptor and the exclusion mark alone. -/
theorem Pentry.held_fd (pe : Pentry) (semPost : Bool) (mode : StateMode) :
    (pe.held semPost mode).fd = pe.fd ∧ (pe.held semPost mode).exclude = pe.exclude := by
  cases semPost <;> simp only [held, incRefcount] <;> split <;> exact ⟨rfl, rfl⟩

/-- Opening a path. -/
theorem dfsOpen_sound {path : CStr} {flags : BitVec 32} {replies : OpenReplies} {opened : Opened}
    (h : w.Sound env) (hopen : dfsOpen env w path flags replies = .done opened) :
    opened.world.Sound env := by
  have hmode : ∀ {addr w' pe fs pe' ret pe''}, Found w path replies addr w' pe →
      openByMode env w'.fs w'.remote (pe.held replies.semPost (getModeFromFlags flags)) path
        (getModeFromFlags flags) replies = .done (ret, fs, pe') → pe''.fd = pe'.fd →
      pe''.exclude = pe'.exclude → (({ w' with fs := fs } : World).put addr pe'').Sound env := by
    intro addr w' pe fs pe' ret pe'' hfound hcall hfd hexclude
    have hsound := h.grown (findOrPopulate_grown hfound.lookup)
    obtain ⟨hheld, hheldExclude⟩ := pe.held_fd replies.semPost (getModeFromFlags flags)
    have husable : (pe.held replies.semPost (getModeFromFlags flags)).Usable := by
      rw [Pentry.Usable, hheld]
      exact (hsound.rewound addr pe hfound.heap).usable
    obtain ⟨hkeeps, hchange, hsame⟩ := (openByMode_outcome husable hcall).fdChange
    refine hsound.put hfound.heap hkeeps ?_ ?_
    · cases hchange with
      | same heq => exact .same (by rw [hfd, heq, hheld])
      | new heq hfree hfile hoffset => exact .new (by rw [hfd, heq]) hfree hfile hoffset
    · rw [hexclude, hsame, hheldExclude]
      exact .inl
  cases dfsOpen_outcome hopen with
  | noEntry => exact h
  | @lockFailed addr w' pe pe' hfound _ _ hwait =>
    have hsound := h.grown (findOrPopulate_grown hfound.lookup)
    obtain ⟨rfl, -⟩ := Pentry.decRefcount_eq hwait
    refine hsound.put hfound.heap (fun _ _ h => h) (.same ?_) ?_
    · cases replies.semPost <;> rfl
    · cases replies.semPost <;> exact .inl
  | failed hfound _ hcall => exact hmode hfound hcall rfl rfl
  | succeeded hfound _ hcall _ => exact hmode hfound hcall rfl rfl

/-- Changing the mode of a file leaves the descriptors alone. -/
theorem LocalFs.fchmod_keeps (fs : LocalFs) (fd : ℕ) (mode : BitVec 32) (reply : Bool) :
    (fs.fchmod fd mode reply).files = fs.files := by
  unfold LocalFs.fchmod
  split <;> rfl

/-- Creating a path. -/
theorem dfsCreate_sound {path : CStr} {mode flags : BitVec 32} {replies : CreateReplies} {created : Opened}
    (h : w.Sound env) (hcreate : dfsCreate env w path mode flags replies = .done created) :
    created.world.Sound env := by
  cases dfsCreate_outcome hcreate with
  | refused => exact h
  | noEntry _ hopen =>
    have hsound := dfsOpen_sound h hopen
    exact hsound
  | @entry opened _ addr pe _ hopen hfh hheap hentry =>
    have hsound := dfsOpen_sound h hopen
    have htable := dfsOpen_table hopen hfh
    obtain ⟨-, fs, remote, trace, metadata, hfs, -, hworld⟩ := createEntry_frame hentry
    rw [hworld]
    refine hsound.put hheap ?_ (.same (by rfl)) ?_
    · rcases hfs with rfl | rfl
      · exact fun _ _ h => h
      · rw [LocalFs.Keeps, LocalFs.fchmod_keeps]
        exact fun _ _ h => h
    · intro hexclude
      right
      intro other hother
      rw [hsound.table_inj other path addr hother htable]
      exact hexclude

/-- Writing through a handle. -/
theorem dfsWrite_sound {addr : ℕ} {data : Bytes} {offset : ℕ} {replies : WriteReplies} {ret : ℤ} {w' : World}
    (h : w.Sound env) (hwrite : dfsWrite w addr data offset replies = .done (ret, w')) : w'.Sound env := by
  unfold dfsWrite at hwrite
  split at hwrite
  · cases hwrite
  · split at hwrite
    · simp only [Exec.done.injEq, Prod.mk.injEq] at hwrite
      exact hwrite.2 ▸ h
    · split at hwrite
      · simp only [Exec.done.injEq, Prod.mk.injEq] at hwrite
        exact hwrite.2 ▸ h
      · rename_i count fs hpwrite
        simp only [Exec.done.injEq, Prod.mk.injEq] at hwrite
        obtain ⟨-, rfl⟩ := hwrite
        refine h.frame rfl rfl rfl ?_
        unfold LocalFs.pwrite at hpwrite
        split at hpwrite
        · split at hpwrite
          · simp only [Option.some.injEq, Prod.mk.injEq] at hpwrite
            obtain ⟨-, rfl⟩ := hpwrite
            exact fun _ _ h => h
          · cases hpwrite
        · cases hpwrite

/-- Rewinding a descriptor that is at the start of its file. -/
theorem LocalFs.seek_zero {fs : LocalFs} {fd : ℕ} {file : OpenFile} (hfile : fs.files fd = some file)
    (hoffset : file.offset = 0) : fs.seek fd 0 = fs := by
  simp only [LocalFs.seek, hfile, Option.map_some]
  rw [← hoffset, ← hfile, Function.update_eq_self]

/-- Releasing a handle. -/
theorem dfsRelease_sound {addr : ℕ} {path : CStr} {flags : BitVec 32} {replies : ReleaseReplies}
    {released : Released} (h : w.Sound env) (hrelease : dfsRelease env w addr path flags replies = .done released) :
    released.world.Sound env := by
  cases dfsRelease_outcome hrelease with
  | @unusable pe fs hheap _ hfs =>
    refine h.put hheap ?_ (.same (by rfl)) .inl
    rcases hfs with rfl | ⟨hpos, rfl⟩
    · exact fun _ _ h => h
    · rcases h.rewound addr pe hheap with hnone | ⟨fd, file, hfd, hfile, hoffset⟩
      · omega
      · rw [hfd, Int.toNat_natCast, LocalFs.seek_zero hfile hoffset]
        exact fun _ _ h => h
  | readOnly hheap _ hwait _ =>
    obtain ⟨rfl, -⟩ := Pentry.decRefcount_eq hwait
    exact h.put hheap (fun _ _ h => h) (.same (by rfl)) .inl
  | excluded hheap _ hwait _ _ =>
    obtain ⟨rfl, -⟩ := Pentry.decRefcount_eq hwait
    exact h.put hheap (fun _ _ h => h) (.same (by rfl)) .inl
  | @uploaded pe _ _ _ _ hheap hstat hwait _ _ hupload =>
    obtain ⟨rfl, -⟩ := Pentry.decRefcount_eq hwait
    obtain ⟨fs, remote, trace, rfl⟩ := upload_frame hupload
    have hfd : pe.fd ≠ -1 := by
      intro hneg
      rw [hneg] at hstat
      simp [LocalFs.fstat] at hstat
    obtain ⟨fd, file, hfd, hfile, hoffset⟩ := (h.rewound addr pe hheap).resolve_left hfd
    rw [hfd, Int.toNat_natCast] at hupload
    exact h.put hheap (upload_files hupload hfile hoffset).files (.same (by rfl)) .inl

/-- Removing a name leaves the descriptors alone. -/
theorem LocalFs.unlink_files (fs : LocalFs) (name : CStr) (reply : Bool) :
    (fs.unlink name reply).files = fs.files := by
  unfold LocalFs.unlink
  split <;> rfl

/-- Unlinking a path. -/
theorem dfsUnlink_sound {path : CStr} {replies : UnlinkReplies} (h : w.Sound env) :
    (dfsUnlink env w path replies).2.Sound env := by
  have houtcome := dfsUnlink_outcome env w path replies
  generalize dfsUnlink env w path replies = result at houtcome
  have hunlinked : (w.unlinked env path replies).Sound env := by
    refine h.frame rfl rfl rfl ?_
    rw [LocalFs.Keeps, World.unlinked, LocalFs.unlink_files]
    exact fun _ _ h => h
  cases houtcome with
  | failed => exact h.frame rfl rfl rfl (fun _ _ h => h)
  | absent => exact hunlinked
  | destroyed _ _ hquiet => exact hunlinked.remove.quiet hquiet

/-- A visit of the collector. -/
theorem gcCallback_sound {path : CStr} {replies : GcReplies} {w' : World} (h : w.Sound env)
    (hgc : gcCallback env w path replies = .done w') : w'.Sound env := by
  cases gcCallback_outcome hgc with
  | untouched => exact h
  | kept _ hheap _ _ => exact h.put hheap (fun _ _ h => h) (.same (by rfl)) .inl
  | collected _ _ _ _ _ =>
    apply World.Sound.remove
    refine h.frame rfl rfl rfl ?_
    rw [LocalFs.Keeps, LocalFs.unlink_files]
    exact fun _ _ h => h

/-- A rename. -/
theorem dfsRename_sound {depth : ℕ} {s s' : Renaming} {old new : CStr} {replies : RenameReplies} {ret : ℤ}
    (h : s.world.Sound env) (hrename : dfsRename env depth s old new replies = .done (ret, s')) :
    s'.world.Sound env := by
  have hpreserves : RenamePreserves env replies fun w => w.Sound env :=
    { log := fun _ _ hw => hw.frame rfl rfl rfl (fun _ _ h => h)
      cwd := fun _ _ hw => hw.frame rfl rfl rfl (fun _ _ h => h)
      fcopy := fun _ _ _ hw => hw.frame rfl rfl rfl (fun _ _ h => h)
      dirent := fun w dir path junk hw => hw.quiet (w.removeDirentOf_quiet dir path junk)
      unlink := fun _ _ hw => dfsUnlink_sound hw
      mkdir := fun _ _ hw => hw.frame rfl rfl rfl (fun _ _ h => h)
      rmdir := fun w path hw => hw.quiet (dfsRmdir_quiet env w path (replies.rmdir path)).1 }
  exact dfsRename_preserves hpreserves h hrename

end Requests

/-- Every request keeps the state sound. -/
theorem Session.step_sound {env : Env} {s s' : Session} {op : Op} (h : s.world.Sound env)
    (hstep : s.step env op = .done s') : s'.world.Sound env := by
  cases op with
  | getattr path replies =>
    obtain ⟨looked, hcall, hdone⟩ := Exec.bind_eq_done.mp hstep
    obtain rfl := Exec.done.inj hdone
    obtain ⟨-, w₁, hgrown, hquiet⟩ := dfsGetattr_grown hcall
    exact (h.grown hgrown).quiet hquiet
  | opendir path replies =>
    obtain rfl := Exec.done.inj hstep
    exact h.grown (dfsOpendir_grown env s.world path replies)
  | mkdir path replies =>
    obtain rfl := Exec.done.inj hstep
    exact h.frame rfl rfl rfl (fun _ _ h => h)
  | mknod path replies =>
    obtain rfl := Exec.done.inj hstep
    exact h.frame rfl rfl rfl (fun _ _ h => h)
  | create path mode flags replies =>
    obtain ⟨created, hcall, hdone⟩ := Exec.bind_eq_done.mp hstep
    obtain rfl := Exec.done.inj hdone
    exact dfsCreate_sound h hcall
  | «open» path flags replies =>
    obtain ⟨opened, hcall, hdone⟩ := Exec.bind_eq_done.mp hstep
    obtain rfl := Exec.done.inj hdone
    exact dfsOpen_sound h hcall
  | read i size offset replies =>
    simp only [Session.step] at hstep
    split at hstep
    · obtain rfl := Exec.done.inj hstep
      exact h
    · obtain ⟨_, -, hdone⟩ := Exec.bind_eq_done.mp hstep
      obtain rfl := Exec.done.inj hdone
      exact h
  | write i data offset replies =>
    simp only [Session.step] at hstep
    split at hstep
    · obtain rfl := Exec.done.inj hstep
      exact h
    · split at hstep
      · obtain rfl := Exec.done.inj hstep
        exact h
      · obtain ⟨⟨ret, w⟩, hcall, hdone⟩ := Exec.bind_eq_done.mp hstep
        obtain rfl := Exec.done.inj hdone
        exact dfsWrite_sound h hcall
  | release i replies =>
    simp only [Session.step] at hstep
    split at hstep
    · obtain rfl := Exec.done.inj hstep
      exact h
    · obtain ⟨released, hcall, hdone⟩ := Exec.bind_eq_done.mp hstep
      obtain rfl := Exec.done.inj hdone
      exact dfsRelease_sound h hcall
  | unlink path replies =>
    obtain rfl := Exec.done.inj hstep
    exact dfsUnlink_sound h
  | rmdir path replies =>
    obtain rfl := Exec.done.inj hstep
    exact h.quiet (dfsRmdir_quiet env s.world path replies).1
  | rename depth ring old new replies =>
    obtain ⟨⟨ret, renamed⟩, hcall, hdone⟩ := Exec.bind_eq_done.mp hstep
    obtain rfl := Exec.done.inj hdone
    exact dfsRename_sound (s := ⟨s.world, ring⟩) h hcall
  | gc path replies =>
    obtain ⟨w, hcall, hdone⟩ := Exec.bind_eq_done.mp hstep
    obtain rfl := Exec.done.inj hdone
    exact gcCallback_sound h hcall

/-- In every run the state is sound. -/
theorem Session.Reached.sound {env : Env} {guard : Session → Op → Prop} {s : Session}
    (h : s.Reached env guard) : s.world.Sound env := by
  refine GuardedRuns.Reaches.invariant (fun s => s.world.Sound env) ?_ ?_ h
  · intro s hs
    have hheap : ∀ {addr pe}, s.world.heap addr ≠ some pe := fun h => by simp [hs.heap] at h
    have htable : ∀ {path addr}, s.world.table path ≠ some addr := fun h => by simp [hs.table] at h
    exact ⟨fun addr _ => hs.heap addr, fun _ _ h => absurd h htable, fun _ _ _ h _ => absurd h htable,
      fun _ _ h => absurd h hheap, fun _ _ _ _ h _ _ _ => absurd h hheap, fun _ _ _ h _ _ => absurd h htable⟩
  · intro s op s' _ hs _ hstep
    exact Session.step_sound hs hstep

end Dropletfs
