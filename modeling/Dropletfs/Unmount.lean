import Dropletfs.Accounting
import Dropletfs.Backing
import Dropletfs.Handles
import Mathlib.Data.Set.Finite.Basic
import Mathlib.Data.Set.Finite.Range

/-!
# Unmounting

`dfs_destroy` visits every entry of the table, unlinks the cache files of those with a
`FILE_LOCAL`, and then destroys all entries, which closes their descriptors. GLib visits the
keys in an order of its own. What `dfs_destroy` does next has no defined meaning: it frees the
settings, and its last `LOG` reads the `log_level` of what was freed. So the results are about
the state in which the table has been emptied.
-/

namespace Dropletfs

/-- `pentry_unlink_cache_file`, which does nothing for an entry without a path; the reply is that of `unlink`. -/
def Pentry.unlinkCacheFile (pe : Pentry) (conf : Conf) (fs : LocalFs) (reply : Bool) : LocalFs :=
  match pe.path with
  | none => fs
  | some path => fs.unlink (cacheName conf path) reply

/-- `cb_hash_unlink`. -/
def cbHashUnlink (env : Env) (pe : Pentry) (fs : LocalFs) (reply : Bool) : LocalFs :=
  if pe.ondisk = .localFile then pe.unlinkCacheFile env.conf fs reply else fs

/-- `g_hash_table_foreach` with `cb_hash_unlink`, over the keys in their order. -/
def hashForeach (env : Env) (replies : CStr → Bool) : List CStr → World → Exec World
  | [], w => .done w
  | path :: paths, w =>
    match w.table path with
    | none => hashForeach env replies paths w
    | some addr =>
      match w.heap addr with
      | none => .undefined
      | some pe => hashForeach env replies paths { w with fs := cbHashUnlink env pe w.fs (replies path) }

/-- `g_hash_table_remove_all`, over the keys in their order. -/
def hashRemoveAll (keys : List CStr) (w : World) : World := keys.foldl World.remove w

/-- What `dfs_destroy` does with the table. -/
def destroyTable (env : Env) (keys : List CStr) (replies : CStr → Bool) (w : World) : Exec World := do
  let w ← hashForeach env replies keys w
  return hashRemoveAll keys w

/-- `conf_free`: what the global `conf` leads to afterwards was freed. -/
def confFree (_conf : Conf) : Option Conf := none

/-- `LOG`, which reads `conf->log_level` whatever the priority. -/
def readLogLevel (conf : Option Conf) : Exec Unit := if conf.isSome then .done () else .undefined

/-- `dfs_destroy`, less what it prints and the memory of libdroplet. -/
def dfsDestroy (env : Env) (keys : List CStr) (replies : CStr → Bool) (w : World) : Exec World := do
  let w ← destroyTable env keys replies w
  let conf := confFree env.conf
  readLogLevel conf
  return w

/-- The keys of the table, each once. -/
structure World.Keys (w : World) (keys : List CStr) : Prop where
  nodup : keys.Nodup
  mem_iff : ∀ path, path ∈ keys ↔ (w.table path).isSome = true

/-- The cache file of the entry is unlinked under this name. -/
def Pentry.Unlinks (pe : Pentry) (conf : Conf) (name : CStr) : Prop :=
  pe.ondisk = .localFile ∧ ∃ path, pe.path = some path ∧ name = collapse (cacheName conf path)

section Foreach

variable {w : World}

/-- One visit changes the names only, and of these the one it unlinks. -/
theorem cbHashUnlink_spec (env : Env) (pe : Pentry) (fs : LocalFs) (reply : Bool) :
    (cbHashUnlink env pe fs reply).files = fs.files ∧ (cbHashUnlink env pe fs reply).inodes = fs.inodes ∧
      ∀ name, (pe.Unlinks env.conf name ∧ reply = true → (cbHashUnlink env pe fs reply).names name = none) ∧
        (¬ (pe.Unlinks env.conf name ∧ reply = true) → (cbHashUnlink env pe fs reply).names name = fs.names name) := by
  unfold cbHashUnlink Pentry.unlinkCacheFile Pentry.Unlinks
  by_cases hlocal : pe.ondisk = .localFile
  · rw [if_pos hlocal]
    cases hpath : pe.path with
    | none => exact ⟨rfl, rfl, fun name => ⟨fun h => by simp at h, fun _ => rfl⟩⟩
    | some path =>
      cases reply with
      | false => exact ⟨rfl, rfl, fun name => ⟨fun h => by simp at h, fun _ => rfl⟩⟩
      | true =>
        refine ⟨rfl, rfl, fun name => ⟨?_, fun hother => ?_⟩⟩
        · rintro ⟨⟨-, path', hpath', rfl⟩, -⟩
          obtain rfl := Option.some.inj hpath'
          exact Function.update_self ..
        · refine Function.update_of_ne (fun heq => hother ?_) _ _
          exact ⟨⟨hlocal, path, rfl, heq⟩, rfl⟩
  · rw [if_neg hlocal]
    exact ⟨rfl, rfl, fun name => ⟨fun h => absurd h.1.1 hlocal, fun _ => rfl⟩⟩

/-- The visits go through when every entry of the table exists, and what they unlink are the cache files of the
entries visited. -/
theorem hashForeach_spec (env : Env) (replies : CStr → Bool) (hpresent : w.Present) (keys : List CStr) :
    ∃ fs, hashForeach env replies keys w = .done { w with fs := fs } ∧ fs.files = w.fs.files ∧
      fs.inodes = w.fs.inodes ∧ ∀ name,
        ((∃ path ∈ keys, ∃ pe, w.entry path = some pe ∧ pe.Unlinks env.conf name ∧ replies path = true) →
          fs.names name = none) ∧
        ((¬ ∃ path ∈ keys, ∃ pe, w.entry path = some pe ∧ pe.Unlinks env.conf name ∧ replies path = true) →
          fs.names name = w.fs.names name) := by
  induction keys generalizing w with
  | nil => exact ⟨w.fs, rfl, rfl, rfl, fun name => ⟨by simp, fun _ => rfl⟩⟩
  | cons path paths ih =>
    unfold hashForeach
    cases htable : w.table path with
    | none =>
      obtain ⟨fs, hrun, hfiles, hinodes, hnames⟩ := ih hpresent
      have hnoEntry : w.entry path = none := by rw [World.entry, htable, Option.bind_none]
      refine ⟨fs, hrun, hfiles, hinodes, fun name => ⟨?_, fun hnone => (hnames name).2 ?_⟩⟩
      · rintro ⟨other, hmem, pe, hentry, hunlinks⟩
        rcases List.mem_cons.mp hmem with rfl | hmem
        · rw [hnoEntry] at hentry
          cases hentry
        · exact (hnames name).1 ⟨other, hmem, pe, hentry, hunlinks⟩
      · rintro ⟨other, hmem, hunlinked⟩
        exact hnone ⟨other, List.mem_cons_of_mem _ hmem, hunlinked⟩
    | some addr =>
      obtain ⟨pe, hheap⟩ := hpresent path addr htable
      have hentry : w.entry path = some pe := by rw [World.entry, htable, Option.bind_some, hheap]
      obtain ⟨hfiles₁, hinodes₁, hnames₁⟩ := cbHashUnlink_spec env pe w.fs (replies path)
      obtain ⟨fs, hrun, hfiles, hinodes, hnames⟩ := ih (w := { w with fs := cbHashUnlink env pe w.fs (replies path) })
        hpresent
      simp only [hheap]
      refine ⟨fs, hrun, hfiles.trans hfiles₁, hinodes.trans hinodes₁, fun name => ⟨?_, fun hnone => ?_⟩⟩
      · intro hunlinked
        by_cases hlater : ∃ other ∈ paths, ∃ qe, w.entry other = some qe ∧ qe.Unlinks env.conf name ∧
            replies other = true
        · exact (hnames name).1 hlater
        · obtain ⟨other, hmem, qe, hqe, hunlinks⟩ := hunlinked
          rcases List.mem_cons.mp hmem with rfl | hmem
          · obtain rfl := Option.some.inj (hentry.symm.trans hqe)
            exact ((hnames name).2 hlater).trans ((hnames₁ name).1 hunlinks)
          · exact absurd ⟨other, hmem, qe, hqe, hunlinks⟩ hlater
      · have hnoLater : ¬ ∃ other ∈ paths, ∃ qe, w.entry other = some qe ∧ qe.Unlinks env.conf name ∧
            replies other = true := by
          rintro ⟨other, hmem, hlater⟩
          exact hnone ⟨other, List.mem_cons_of_mem _ hmem, hlater⟩
        rw [(hnames name).2 hnoLater]
        exact (hnames₁ name).2 fun hunlinks => hnone ⟨path, List.mem_cons_self, pe, hentry, hunlinks⟩

end Foreach

section RemoveAll

variable {env : Env} {w : World} {keys : List CStr}

/-- What each removal preserves, the removal of all entries preserves. -/
theorem hashRemoveAll_preserves {P : World → Prop} (hremove : ∀ w path, P w → P (w.remove path)) (keys : List CStr)
    (hw : P w) : P (hashRemoveAll keys w) := by
  induction keys generalizing w with
  | nil => exact hw
  | cons path paths ih => exact ih (hremove w path hw)

/-- The keys are gone from the table. -/
theorem hashRemoveAll_table {path : CStr} (h : path ∈ keys ∨ w.table path = none) :
    (hashRemoveAll keys w).table path = none := by
  induction keys generalizing w with
  | nil => exact h.resolve_left (List.not_mem_nil)
  | cons other others ih =>
    refine ih ?_
    by_cases hmem : path ∈ others
    · exact .inl hmem
    · right
      rcases h with hmem' | hnone
      · rw [(List.mem_cons.mp hmem').resolve_right hmem]
        exact World.remove_table_self _ _
      · by_contra hsome
        obtain ⟨addr, haddr⟩ := Option.ne_none_iff_exists'.mp hsome
        rw [World.remove_table haddr] at hnone
        cases hnone

/-- When all keys of the table are removed, no entry is left. -/
theorem World.Keys.removed (h : w.Keys keys) (hrooted : w.Rooted) :
    (∀ path, (hashRemoveAll keys w).table path = none) ∧
      ∀ addr, (hashRemoveAll keys w).heap addr = none := by
  have htable : ∀ path, (hashRemoveAll keys w).table path = none := by
    refine fun path => hashRemoveAll_table ?_
    rw [h.mem_iff path]
    cases w.table path with
    | none => exact .inr rfl
    | some addr => exact .inl rfl
  have hrooted' : (hashRemoveAll keys w).Rooted :=
    hashRemoveAll_preserves (fun w path hw => hw.remove path) keys hrooted
  refine ⟨htable, fun addr => ?_⟩
  cases hheap : (hashRemoveAll keys w).heap addr with
  | none => rfl
  | some pe =>
    obtain ⟨path, hpath⟩ := hrooted' addr pe hheap
    rw [htable path] at hpath
    cases hpath

/-- The table of a sound state has finitely many keys. -/
theorem World.Sound.exists_keys (h : w.Sound env) : ∃ keys, w.Keys keys := by
  have hfinite : {path | (w.table path).isSome = true}.Finite := by
    refine Set.Finite.of_finite_image (f := fun path => (w.table path).getD 0) ?_ ?_
    · refine (Set.finite_lt_nat w.nextAddr).subset ?_
      rintro _ ⟨path, hpath, rfl⟩
      obtain ⟨addr, haddr⟩ := Option.isSome_iff_exists.mp hpath
      simp only [haddr, Option.getD_some]
      exact h.table_lt path addr haddr
    · intro path hpath other hother hsame
      obtain ⟨addr, haddr⟩ := Option.isSome_iff_exists.mp hpath
      obtain ⟨addr', haddr'⟩ := Option.isSome_iff_exists.mp hother
      simp only [haddr, haddr', Option.getD_some] at hsame
      exact h.table_inj path other addr haddr (hsame ▸ haddr')
  exact ⟨hfinite.toFinset.toList, Finset.nodup_toList _, fun path => by simp⟩

end RemoveAll

/-- Once the table is empty, `dfs_destroy` reads what it freed. -/
theorem dfsDestroy_undefined {env : Env} {keys : List CStr} {replies : CStr → Bool} {w w' : World}
    (h : destroyTable env keys replies w = .done w') : dfsDestroy env keys replies w = .undefined := by
  rw [dfsDestroy, h]
  rfl

/-- The accounts of every run that keeps them are in order. -/
theorem Session.Reached.accounts {env : Env} {start : Set ℕ} {s : Session}
    (h : GuardedRuns.Reaches (Session.step env) (KeepsAccount env) (Session.StartsWith start) s) :
    s.world.Accounts start := by
  refine GuardedRuns.Reaches.invariant (fun s => s.world.Accounts start) ?_ ?_ h
  · rintro s ⟨hinit, hopened⟩
    have hheap : ∀ {addr pe}, s.world.heap addr ≠ some pe := fun h => by simp [hinit.heap] at h
    refine ⟨fun _ _ h => absurd h hheap, hopened.ge, fun _ _ _ h => absurd h hheap, ?_⟩
    rintro fd ⟨hopen, hnew⟩
    exact absurd (hopened ▸ hopen) hnew
  · intro s op s' hreached hs hguard hstep
    exact Session.step_accounts hs (Session.Reached.sound (hreached.mono_init fun _ hstart => hstart.1)) hguard hstep

/-- After a run that neither replaces a descriptor nor leaves one behind, unmounting destroys all entries and closes
all descriptors that the program opened and no others, in whatever order the keys come. Then it reads the settings it
has freed. -/
theorem unmounted_clean (env : Env) (start : Set ℕ) (s : Session)
    (h : GuardedRuns.Reaches (Session.step env) (KeepsAccount env) (Session.StartsWith start) s) :
    (∃ keys, s.world.Keys keys) ∧ ∀ keys replies, s.world.Keys keys →
      (∃ w, destroyTable env keys replies s.world = .done w ∧ (∀ path, w.table path = none) ∧
        (∀ addr, w.heap addr = none) ∧ w.fs.opened = start ∧ w.remote = s.world.remote) ∧
      dfsDestroy env keys replies s.world = .undefined := by
  have hrun : s.Reached env (KeepsAccount env) := h.mono_init fun _ hstart => hstart.1
  refine ⟨hrun.sound.exists_keys, fun keys replies hkeys => ?_⟩
  obtain ⟨fs, hforeach, hfiles, -, -⟩ := hashForeach_spec env replies hrun.present keys
  have hopened : fs.opened = s.world.fs.opened := by
    rw [LocalFs.opened, LocalFs.opened, hfiles]
  have hsound : ({ s.world with fs := fs } : World).Sound env :=
    hrun.sound.frame rfl rfl rfl fun fd file hfile => by rw [hfiles, hfile]
  obtain ⟨htable, hheap⟩ := World.Keys.removed (w := { s.world with fs := fs }) ⟨hkeys.nodup, hkeys.mem_iff⟩ hrun.rooted
  obtain ⟨-, haccounts, hremote⟩ := hashRemoveAll_preserves (w := { s.world with fs := fs })
    (P := fun w => w.Sound env ∧ w.Accounts start ∧ w.remote = s.world.remote)
    (fun w path hw => ⟨hw.1.remove, hw.2.1.remove hw.1 path, (w.remove_remote path).trans hw.2.2⟩) keys
    ⟨hsound, (Session.Reached.accounts h).frame rfl rfl hopened, rfl⟩
  have hdestroy : destroyTable env keys replies s.world = .done (hashRemoveAll keys { s.world with fs := fs }) := by
    rw [destroyTable, hforeach]
    rfl
  refine ⟨⟨_, hdestroy, htable, hheap, ?_, hremote⟩, dfsDestroy_undefined hdestroy⟩
  refine Set.Subset.antisymm (fun fd hfd => ?_) haccounts.others
  by_contra hnew
  obtain ⟨addr, pe, hpe, -⟩ := haccounts.stored fd ⟨hfd, hnew⟩
  rw [hheap addr] at hpe
  cases hpe

/-- A file is open for reading when the program is unmounted. -/
theorem unmounted_clean_open :
    ∃ (s : Session) (keys : List CStr) (w : World), s.handles.length = 1 ∧ 3 ∈ s.world.fs.opened ∧ s.world.Keys keys ∧
      destroyTable Env.plain keys (fun _ => true) s.world = .done w ∧ w.fs.opened = LocalFs.empty.opened := by
  obtain ⟨s, hlength, hopen, hreached⟩ : ∃ s : Session, s.handles.length = 1 ∧ 3 ∈ s.world.fs.opened ∧
      GuardedRuns.Reaches (Session.step Env.plain) (KeepsAccount Env.plain)
        (Session.StartsWith LocalFs.empty.opened) s := by
    refine ⟨_, ?_, ?_, GuardedRuns.Reaches.step (s := .start .empty (.file "/f".toList [65]))
      (i := .open "/f".toList oRdonly (.granted 3)) (.start ⟨Session.start_initial .., rfl⟩) ⟨?_, ?_⟩ rfl⟩
    · rfl
    · rfl
    · rintro ⟨hcreat, -⟩
      exact absurd hcreat (by decide)
    · rintro - - - - obj download hlookup -
      obtain rfl := Option.some.inj hlookup
      trivial
  obtain ⟨⟨keys, hkeys⟩, hunmounted⟩ := unmounted_clean Env.plain LocalFs.empty.opened s hreached
  obtain ⟨⟨w, hdestroy, -, -, hopened, -⟩, -⟩ := hunmounted keys (fun _ => true) hkeys
  exact ⟨s, keys, w, hlength, hopen, hkeys, hdestroy, hopened⟩

/-- Unmounting unlinks the cache files of the paths whose entries have descriptors, as far as the system lets it, and
has changed no other name and no content when it comes to the settings. -/
theorem unmounted_names (env : Env) (s : Session) (keys : List CStr) (replies : CStr → Bool)
    (h : s.Reached env fun _ op => op.CopiesPath) (hkeys : s.world.Keys keys) :
    ∃ w, destroyTable env keys replies s.world = .done w ∧ w.fs.inodes = s.world.fs.inodes ∧ ∀ name,
      ((∃ path addr pe, s.world.HasFile path addr pe ∧ name = collapse (cacheName env.conf path) ∧
        replies path = true) → w.fs.names name = none) ∧
      ((¬ ∃ path addr pe, s.world.HasFile path addr pe ∧ name = collapse (cacheName env.conf path) ∧
        replies path = true) → w.fs.names name = s.world.fs.names name) := by
  obtain ⟨fs, hforeach, -, hinodes, hnames⟩ := hashForeach_spec env replies h.present keys
  have hunlinks : ∀ name, (∃ path ∈ keys, ∃ pe, s.world.entry path = some pe ∧ pe.Unlinks env.conf name ∧
      replies path = true) ↔ ∃ path addr pe, s.world.HasFile path addr pe ∧
        name = collapse (cacheName env.conf path) ∧ replies path = true := by
    intro name
    constructor
    · rintro ⟨path, -, pe, hentry, ⟨hlocal, path', hpath, hname⟩, hreply⟩
      obtain ⟨addr, htable, hheap⟩ := Option.bind_eq_some_iff.mp hentry
      obtain ⟨pe', hheap', hsettled⟩ := h.settled path addr htable
      obtain rfl := Option.some.inj (hheap.symm.trans hheap')
      obtain rfl := Option.some.inj (hpath.symm.trans hsettled.path)
      exact ⟨path', addr, pe, ⟨htable, hheap, hsettled.consistent.ondisk.mp hlocal⟩, hname, hreply⟩
    · rintro ⟨path, addr, pe, hfile, hname, hreply⟩
      obtain ⟨pe', hheap', hsettled⟩ := h.settled path addr hfile.table
      obtain rfl := Option.some.inj (hfile.heap.symm.trans hheap')
      refine ⟨path, (hkeys.mem_iff path).mpr (by rw [hfile.table]; rfl), pe, ?_,
        ⟨hsettled.consistent.ondisk.mpr hfile.fd, path, hsettled.path, hname⟩, hreply⟩
      rw [World.entry, hfile.table, Option.bind_some, hfile.heap]
  obtain ⟨hnames', hinodes'⟩ := hashRemoveAll_preserves (w := { s.world with fs := fs })
    (P := fun w => w.fs.names = fs.names ∧ w.fs.inodes = fs.inodes)
    (fun w path hw => ⟨(w.remove_fs path).1.trans hw.1, (w.remove_fs path).2.1.trans hw.2⟩) keys ⟨rfl, rfl⟩
  refine ⟨_, by rw [destroyTable, hforeach]; rfl, hinodes'.trans hinodes, fun name => ?_⟩
  rw [← hunlinks name, hnames']
  exact hnames name

/-- A file is open for reading when the program is unmounted. -/
theorem unmounted_names_open :
    ∃ (s : Session) (keys : List CStr) (w : World),
      s.world.fs.names (collapse (cacheName Env.plain.conf "/f".toList)) ≠ none ∧ s.world.Keys keys ∧
      destroyTable Env.plain keys (fun _ => true) s.world = .done w ∧
      w.fs.names (collapse (cacheName Env.plain.conf "/f".toList)) = none := by
  obtain ⟨s, hname, hfile, hreached⟩ : ∃ s : Session,
      s.world.fs.names (collapse (cacheName Env.plain.conf "/f".toList)) = some 0 ∧
      (∃ pe, s.world.HasFile "/f".toList 0 pe) ∧ s.Reached Env.plain fun _ op => op.CopiesPath :=
    ⟨_, rfl, ⟨_, rfl, rfl, by decide⟩,
      .step (s := .start .empty (.file "/f".toList [65])) (i := .open "/f".toList oRdonly (.granted 3))
        (.start (Session.start_initial ..)) rfl rfl⟩
  obtain ⟨keys, hkeys⟩ := (Session.Reached.sound hreached).exists_keys
  obtain ⟨pe, hfile⟩ := hfile
  obtain ⟨w, hdestroy, -, hnames⟩ := unmounted_names Env.plain s keys (fun _ => true) hreached hkeys
  have hcached : s.world.fs.names (collapse (cacheName Env.plain.conf "/f".toList)) ≠ none := by
    rw [hname]
    exact Option.some_ne_none 0
  exact ⟨s, keys, w, hcached, hkeys, hdestroy, (hnames _).1 ⟨"/f".toList, 0, pe, hfile, rfl, rfl⟩⟩

end Dropletfs
