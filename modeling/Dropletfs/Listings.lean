import Dropletfs.FileTypes

/-!
# The lists of directories

The entry of a directory lists paths. A lookup served from the store adds its path to the list of
the parent, once more each time; `dfs_unlink` takes one away from there when the path has an entry
and the parent is typed as a directory; `dfs_rmdir` takes one away from the path's own list. The
record beside the session holds the paths that were removed and not looked up since.
-/

namespace Dropletfs

/-- The list of the entry of a directory; a directory without an entry lists nothing. -/
def World.listing (w : World) (dir : CStr) : List CStr := ((w.entry dir).map Pentry.dirent).getD []

/-- A session with the paths that were unlinked or removed with success and not looked up since. The
paths whose last request was such a removal are among them. -/
abbrev Listings := Session × List CStr

/-- The record after a request. -/
def Session.noteRemoved (env : Env) (s : Session) : Op → List CStr → List CStr
  | .getattr path _, removed => removed.filter (· ≠ path)
  | .unlink path replies, removed => if (dfsUnlink env s.world path replies).1 = 0 then path :: removed else removed
  | .rmdir path replies, removed => if (dfsRmdir env s.world path replies).1 = 0 then path :: removed else removed
  | _, removed => removed

/-- Each directory lists paths that it is the parent of, none twice, and none that was removed. -/
structure Listings.Coherent (t : Listings) : Prop where
  children : ∀ dir, ∀ path ∈ t.1.world.listing dir, parentName path = some dir
  nodup : ∀ dir, (t.1.world.listing dir).Nodup
  removed : ∀ path ∈ t.2, ∀ dir, path ∉ t.1.world.listing dir

/-- A request keeps the lists in order. A lookup served from the store is of a path that its parent does
not list yet; an unlinked path that its parent lists has an entry, and the parent is typed as a directory; a
removed directory is not listed by its parent. -/
def KeepsListings (env : Env) (t : Listings) : Op → Prop
  | .getattr path replies => path ≠ "/".toList → t.1.world.unsetAt path = true →
    replies.Describes env t.1.world.remote path → replies.addDirent = true →
      ∀ dir, parentName path = some dir → path ∉ t.1.world.listing dir
  | .unlink path replies => (dfsUnlinkTimeout env.conf.maxRetry replies.unlink path t.1.world.remote).1 = .success →
    ∀ dir, parentName path = some dir → path ∈ t.1.world.listing dir →
      t.1.world.table path ≠ none ∧ ∀ pe, t.1.world.entry dir = some pe → pe.filetype.getD replies.junkType = .dir
  | .rmdir path replies => (dfsRmdirTimeout env.conf.maxRetry replies.rmdir path t.1.world.remote).1 = .success →
    ∀ dir, parentName path = some dir → path ∉ t.1.world.listing dir
  | _ => True

section Listing

variable {env : Env} {w w' : World}

/-- The list of a directory that has an entry. -/
theorem World.listing_of_entry {dir : CStr} {pe : Pentry} (h : w.entry dir = some pe) : w.listing dir = pe.dirent := by
  rw [listing, h, Option.map_some, Option.getD_some]

/-- A directory without an entry lists nothing. -/
theorem World.listing_of_none {dir : CStr} (h : w.table dir = none) : w.listing dir = [] := by
  simp [listing, entry, h]

/-- What is not listed has no entry to list it. -/
theorem World.listing_of_heap_none {dir : CStr} {addr : ℕ} (htable : w.table dir = some addr)
    (h : w.heap addr = none) : w.listing dir = [] := by
  simp [listing, entry, htable, h]

/-- A list that is the same or shorter. -/
theorem shorter_opening : ToleratesOpening fun pe pe' : Pentry => pe'.dirent.Sublist pe.dirent where
  refl _ := .refl _
  trans h₁ h₂ := h₂.trans h₁
  erased _ _ := List.erase_sublist
  counted _ _ _ _ := .refl _
  described _ _ _ _ := .refl _
  opened _ _ _ := .refl _

/-- Where entries change by having shorter lists, so do the listings. -/
theorem World.Changed.listing (h : w.Changed (fun pe pe' => pe'.dirent.Sublist pe.dirent) w') (dir : CStr) :
    (w'.listing dir).Sublist (w.listing dir) := by
  cases hentry : w'.entry dir with
  | none => simp [World.listing, hentry]
  | some pe' =>
    obtain ⟨addr, htable', hheap'⟩ := Option.bind_eq_some_iff.mp hentry
    obtain ⟨pe, hheap, hshorter⟩ := h.heap addr pe' hheap'
    have hbefore : w.entry dir = some pe := by
      rw [World.entry, h.table dir addr htable']
      exact hheap
    rw [World.listing_of_entry hentry, World.listing_of_entry hbefore]
    exact hshorter

/-- A new entry that lists nothing changes no listing. -/
theorem World.Added.listing {path : CStr} {pe : Pentry} (h : w.Added path pe w') (hsound : w.Sound env)
    (hnothing : pe.dirent = []) (dir : CStr) : w'.listing dir = w.listing dir := by
  cases h with
  | same => rfl
  | more hnone =>
    by_cases hdir : dir = path
    · subst hdir
      have hentry : (w.insert dir pe).2.entry dir = some pe := by simp [World.insert, World.entry]
      rw [World.listing_of_entry hentry, World.listing_of_none hnone, hnothing]
    · have hentry : (w.insert path pe).2.entry dir = w.entry dir := by
        unfold World.entry
        simp only [World.insert, Function.update_of_ne hdir]
        cases htable : w.table dir with
        | none => rfl
        | some addr =>
          simp only [Option.bind_some]
          exact Function.update_of_ne (Nat.ne_of_lt (hsound.table_lt dir addr htable)) ..
      rw [World.listing, World.listing, hentry]

/-- A request other than a lookup lists nothing new. -/
theorem Session.step_listing {s s' : Session} {op : Op} (hsound : s.world.Sound env)
    (hstep : s.step env op = .done s') (hop : ∀ path replies, op ≠ .getattr path replies) (dir : CStr) :
    (s'.world.listing dir).Sublist (s.world.listing dir) := by
  obtain ⟨w₁, hadded, hchanged⟩ :=
    Session.step_changed shorter_opening (fun path replies h => absurd h (hop path replies)) hsound hstep
  have hnothing : op.makes.2.dirent = [] := by cases op <;> rfl
  rw [← hadded.listing hsound hnothing dir]
  exact hchanged.listing dir

/-- Listing a path in the entry of its parent, if there is one. -/
theorem World.fillDirent_dirent (w : World) (path : CStr) (reply : Bool) (other : ℕ) :
    ((w.fillDirent path reply).heap other).map Pentry.dirent =
      if reply = true ∧ (parentName path).bind w.table = some other then
        (w.heap other).map fun pe => path :: pe.dirent
      else (w.heap other).map Pentry.dirent := by
  unfold World.fillDirent
  cases hparent : (parentName path).bind w.table with
  | none => simp
  | some addr =>
    simp only [World.modify]
    cases hheap : w.heap addr with
    | none =>
      simp only
      by_cases hother : other = addr
      · subst hother
        simp [hheap]
      · rw [if_neg fun hboth => hother (Option.some.inj hboth.2).symm]
    | some pe =>
      simp only
      by_cases hother : other = addr
      · subst hother
        simp only [World.put_heap_self, Option.map_some, hheap, and_true]
        unfold Pentry.addDirent
        split <;> rfl
      · rw [World.put_heap_ne _ _ hother, if_neg fun hboth => hother (Option.some.inj hboth.2).symm]

/-- A lookup changes no list but that of the parent, when the answer comes from the store. -/
theorem getattrByPlaceholder_dirent {addr : ℕ} {pe : Pentry} {path : CStr} {replies : GetattrReplies}
    {looked : Lookup} (hheap : w.heap addr = some pe)
    (h : getattrByPlaceholder env w addr pe path .single replies = .done looked) (other : ℕ) :
    (looked.world.heap other).map Pentry.dirent =
      if (pe.ondisk = .unset ∧ looked.ret = 0) ∧ replies.addDirent = true ∧
          (parentName path).bind w.table = some other then
        (w.heap other).map fun pe => path :: pe.dirent
      else (w.heap other).map Pentry.dirent := by
  have hput : ∀ {α : Type} (f : Pentry → α) (pe' : Pentry), f pe' = f pe →
      ((w.put addr pe').heap other).map f = (w.heap other).map f := by
    intro α f pe' hpe'
    by_cases hother : other = addr
    · rw [hother, World.put_heap_self, hheap, Option.map_some, Option.map_some, hpe']
    · rw [World.put_heap_ne _ _ hother]
  cases getattrByPlaceholder_outcome h with
  | kept hret => rw [if_neg fun hserved => hret hserved.1.1 hserved.1.2]
  | held hret =>
    rw [if_neg fun hserved => hret hserved.1.2]
    exact hput Pentry.dirent _ (by rfl)
  | served hunset =>
    rw [World.fillDirent_dirent, World.put_table, hput Pentry.dirent _ (by rfl),
      hput (fun pe => path :: pe.dirent) _ (by rfl)]
    simp only [hunset, and_self, true_and]

/-- The list of the entry at the address of a directory. -/
theorem World.listing_of_table {dir : CStr} {addr : ℕ} (h : w.table dir = some addr) :
    w.listing dir = ((w.heap addr).map Pentry.dirent).getD [] := by
  rw [listing, entry, h, Option.bind_some]

/-- A lookup lists its path at most, at its parent, when the answer comes from the store. -/
theorem dfsGetattr_listing {path : CStr} {replies : GetattrReplies} {looked : Lookup} (hsound : w.Sound env)
    (h : dfsGetattr env w path replies = .done looked) (dir : CStr) :
    looked.world.listing dir = w.listing dir ∨
      (path ≠ "/".toList ∧ w.unsetAt path = true ∧ replies.Describes env w.remote path ∧ replies.addDirent = true) ∧
        parentName path = some dir ∧ looked.world.listing dir = path :: w.listing dir := by
  cases dfsGetattr_outcome h with
  | root => exact .inl rfl
  | noEntry => exact .inl rfl
  | @entry addr w₁ pe looked₁ hroot hentry hheap hbranch =>
    have hsound₁ : w₁.Sound env := by
      cases hentry with
      | found => exact hsound
      | made => exact hsound.insert ⟨rfl, rfl, rfl, rfl⟩
    have hbefore : w₁.listing dir = w.listing dir := by
      cases hentry with
      | found => rfl
      | made hnone => exact (World.Added.more hnone).listing hsound rfl dir
    have htable := (getattrByPlaceholder_filetypes hheap hbranch).1
    have htouched : (looked₁.world.touch addr replies.now).table = w₁.table :=
      (World.touch_quiet looked₁.world addr replies.now).table.trans htable
    cases hdir : w₁.table dir with
    | none =>
      refine .inl ?_
      rw [← hbefore, World.listing_of_none hdir, World.listing_of_none]
      rw [htouched]
      exact hdir
    | some addr' =>
      have hafter : World.listing (looked₁.world.touch addr replies.now) dir =
          ((looked₁.world.heap addr').map Pentry.dirent).getD [] := by
        rw [World.listing_of_table (by rw [htouched]; exact hdir), World.touch_map _ _ _ _ _ fun _ _ => rfl]
      rw [getattrByPlaceholder_dirent hheap hbranch addr'] at hafter
      split at hafter
      · rename_i hserved
        obtain ⟨⟨hplaceholder, hret⟩, hreply, hparent⟩ := hserved
        obtain ⟨dir', hname, hdir'⟩ := Option.bind_eq_some_iff.mp hparent
        obtain rfl := hsound₁.table_inj dir' dir addr' hdir' hdir
        have hunset := (hentry.unsetAt_iff hheap).mpr hplaceholder
        rw [getattrByPlaceholder, hplaceholder] at hbranch
        have hdescribes := (getattrUnset_ret hbranch).mp hret
        rw [hentry.remote] at hdescribes
        cases hlist : w₁.heap addr' with
        | none =>
          refine .inl ?_
          rw [hlist] at hafter
          rw [← hbefore, World.listing_of_heap_none hdir hlist]
          exact hafter
        | some pe₁ =>
          refine .inr ⟨⟨hroot, hunset, hdescribes, hreply⟩, hname, ?_⟩
          rw [← hbefore, World.listing_of_table hdir]
          rw [hlist] at hafter ⊢
          exact hafter
      · refine .inl ?_
        rw [← hbefore, World.listing_of_table hdir]
        exact hafter

/-- Taking a path out of the list of a directory that is typed as one. -/
theorem World.removeDirentOf_listing {dir path : CStr} {pe : Pentry} {junk : Filetype} (hentry : w.entry dir = some pe)
    (htype : pe.filetype.getD junk = .dir) :
    (w.removeDirentOf (some dir) path junk).listing dir = (w.listing dir).erase path := by
  obtain ⟨addr, htable, hheap⟩ := Option.bind_eq_some_iff.mp hentry
  have hafter : (w.removeDirentOf (some dir) path junk).entry dir = some (pe.removeDirent path junk) := by
    simp only [World.removeDirentOf, Option.bind_some, htable, World.modify, hheap]
    exact World.put_entry w _ htable
  rw [World.listing_of_entry hafter, World.listing_of_entry hentry, Pentry.removeDirent, if_pos htype]

/-- An unlinked path with an entry is taken out of the list of its parent. -/
theorem dfsUnlink_of_entry {path : CStr} {replies : UnlinkReplies}
    (hstatus : (dfsUnlinkTimeout env.conf.maxRetry replies.unlink path w.remote).1 = .success)
    (htable : w.table path ≠ none) :
    (dfsUnlink env w path replies).2 =
      ((w.unlinked env path replies).remove path).removeDirentOf (parentName path) path replies.junkType := by
  obtain ⟨addr, haddr⟩ := Option.ne_none_iff_exists'.mp htable
  unfold dfsUnlink World.unlinked World.log
  simp only [hstatus, ne_eq, not_true_eq_false, if_false, haddr]

/-- `dfs_unlink` returns zero exactly when the object could be unlinked. -/
theorem dfsUnlink_ret (path : CStr) (replies : UnlinkReplies) :
    (dfsUnlink env w path replies).1 = 0 ↔
      (dfsUnlinkTimeout env.conf.maxRetry replies.unlink path w.remote).1 = .success := by
  have houtcome := dfsUnlink_outcome env w path replies
  generalize dfsUnlink env w path replies = result at houtcome ⊢
  cases houtcome with
  | failed hstatus => simp [hstatus]
  | absent hstatus => simp [hstatus]
  | destroyed hstatus => simp [hstatus]

/-- `dfs_rmdir` returns zero exactly when the object could be removed. -/
theorem dfsRmdir_ret (path : CStr) (replies : RmdirReplies) :
    (dfsRmdir env w path replies).1 = 0 ↔
      (dfsRmdirTimeout env.conf.maxRetry replies.rmdir path w.remote).1 = .success := by
  unfold dfsRmdir
  simp only
  split
  · rename_i hstatus
    simp [hstatus]
  · rename_i hstatus
    split <;> simp [not_not.mp hstatus]

/-- A path that was unlinked is not listed by its parent. -/
theorem dfsUnlink_unlisted {path dir : CStr} {replies : UnlinkReplies} (hsound : w.Sound env)
    (hnodup : (w.listing dir).Nodup) (hparent : parentName path = some dir)
    (hstatus : (dfsUnlinkTimeout env.conf.maxRetry replies.unlink path w.remote).1 = .success)
    (hguard : path ∈ w.listing dir →
      w.table path ≠ none ∧ ∀ pe, w.entry dir = some pe → pe.filetype.getD replies.junkType = .dir) :
    path ∉ (dfsUnlink env w path replies).2.listing dir := by
  by_cases hlisted : path ∈ w.listing dir
  · obtain ⟨htable, htype⟩ := hguard hlisted
    have hunlinked : (w.unlinked env path replies).Sound env := by
      refine hsound.frame rfl rfl rfl ?_
      rw [LocalFs.Keeps, World.unlinked, LocalFs.unlink_files]
      exact fun _ _ h => h
    rw [dfsUnlink_of_entry hstatus htable, hparent]
    by_cases hself : dir = path
    · subst hself
      rw [World.listing_of_none]
      · exact List.not_mem_nil
      · rw [(World.removeDirentOf_quiet _ _ _ _).table]
        exact World.remove_table_self ..
    · have hentry := World.remove_entry_ne hunlinked hself
      have hsame : (w.unlinked env path replies).entry dir = w.entry dir := rfl
      rw [hsame] at hentry
      cases hpe : w.entry dir with
      | none =>
        rw [World.listing, hpe] at hlisted
        cases hlisted
      | some pe =>
        rw [hpe] at hentry
        rw [World.removeDirentOf_listing hentry (htype pe hpe), World.listing_of_entry hentry,
          ← World.listing_of_entry hpe]
        exact hnodup.not_mem_erase
  · have hstep : Session.step env ⟨w, []⟩ (.unlink path replies) = .done ⟨(dfsUnlink env w path replies).2, []⟩ := rfl
    exact fun hmem => hlisted ((Session.step_listing hsound hstep (fun _ _ h => by cases h) dir).subset hmem)

end Listing

/-- One request that keeps the lists in order. -/
theorem Session.step_coherent {env : Env} {t t' : Listings} {op : Op} (hsound : t.1.world.Sound env)
    (h : t.Coherent) (hguard : KeepsListings env t op) (hstep : t.1.step env op = .done t'.1)
    (hnoted : t'.2 = t.1.noteRemoved env op t.2) : t'.Coherent := by
  -- a request that lists nothing new, and after which a path that is then recorded is not listed
  have hshorter : (∀ path replies, op ≠ .getattr path replies) →
      (∀ path ∈ t'.2, path ∉ t.2 → ∀ dir, parentName path = some dir → path ∉ t'.1.world.listing dir) →
      t'.Coherent := by
    intro hop hnew
    have hsub := Session.step_listing hsound hstep hop
    have hchildren : ∀ dir, ∀ path ∈ t'.1.world.listing dir, parentName path = some dir :=
      fun dir path hmem => h.children dir path ((hsub dir).subset hmem)
    refine ⟨hchildren, fun dir => (hsub dir).nodup (h.nodup dir), fun path hmem dir hlisted => ?_⟩
    by_cases hold : path ∈ t.2
    · exact h.removed path hold dir ((hsub dir).subset hlisted)
    · exact hnew path hmem hold dir (hchildren dir path hlisted) hlisted
  cases op with
  | getattr path replies =>
    obtain ⟨looked, hcall, hdone⟩ := Exec.bind_eq_done.mp hstep
    have hworld : looked.world = t'.1.world := congrArg Session.world (Exec.done.inj hdone)
    have hlisting := dfsGetattr_listing hsound hcall
    rw [hworld] at hlisting
    simp only [Session.noteRemoved] at hnoted
    constructor
    · intro dir other hmem
      rcases hlisting dir with hsame | ⟨-, hparent, hadded⟩
      · rw [hsame] at hmem
        exact h.children dir other hmem
      · rw [hadded] at hmem
        rcases List.mem_cons.mp hmem with rfl | hold
        · exact hparent
        · exact h.children dir other hold
    · intro dir
      rcases hlisting dir with hsame | ⟨⟨hroot, hunset, hdescribes, hreply⟩, hparent, hadded⟩
      · rw [hsame]
        exact h.nodup dir
      · rw [hadded]
        exact List.nodup_cons.mpr ⟨hguard hroot hunset hdescribes hreply dir hparent, h.nodup dir⟩
    · intro other hmem dir
      rw [hnoted, List.mem_filter] at hmem
      have hne : other ≠ path := by simpa using hmem.2
      have hold := h.removed other hmem.1 dir
      rcases hlisting dir with hsame | ⟨-, -, hadded⟩
      · rwa [hsame]
      · rw [hadded, List.mem_cons, not_or]
        exact ⟨hne, hold⟩
  | unlink path replies =>
    refine hshorter (fun _ _ h => by cases h) fun other hmem hfresh dir hparent => ?_
    simp only [Session.noteRemoved] at hnoted
    rw [hnoted] at hmem
    split at hmem
    · rename_i hret
      rcases List.mem_cons.mp hmem with rfl | hold
      · have hstatus := (dfsUnlink_ret other replies).mp hret
        rw [← Exec.done.inj hstep]
        exact dfsUnlink_unlisted hsound (h.nodup dir) hparent hstatus (hguard hstatus dir hparent)
      · exact absurd hold hfresh
    · exact absurd hmem hfresh
  | rmdir path replies =>
    refine hshorter (fun _ _ h => by cases h) fun other hmem hfresh dir hparent => ?_
    simp only [Session.noteRemoved] at hnoted
    rw [hnoted] at hmem
    split at hmem
    · rename_i hret
      rcases List.mem_cons.mp hmem with rfl | hold
      · have hstatus := (dfsRmdir_ret other replies).mp hret
        have hsub := Session.step_listing hsound hstep (fun _ _ h => by cases h) dir
        exact fun hlisted => hguard hstatus dir hparent (hsub.subset hlisted)
      · exact absurd hold hfresh
    · exact absurd hmem hfresh
  | opendir | create | «open» | mkdir | mknod | read | write | release | rename | gc =>
    refine hshorter (fun _ _ h => by cases h) fun other hmem hfresh => ?_
    rw [hnoted] at hmem
    exact absurd hmem hfresh

/-- The listings reached by requests that all meet a guard, from nothing removed. -/
def Listings.Reached (env : Env) (guard : Listings → Op → Prop) : Listings → Prop :=
  GuardedRuns.Reaches (GuardedRuns.recorded (Session.step env) fun s op _ => s.noteRemoved env op) guard
    fun t => t.1.Initial ∧ t.2 = []

/-- In every run that keeps the lists in order, each directory lists its own paths, none twice, and none
that was removed. -/
theorem reached_listings_coherent {env : Env} {t : Listings} (h : Listings.Reached env (KeepsListings env) t) :
    t.Coherent := by
  refine GuardedRuns.Reaches.invariant Listings.Coherent ?_ ?_ h
  · rintro t ⟨hinit, hnothing⟩
    have hempty : ∀ dir, t.1.world.listing dir = [] := fun dir => World.listing_of_none (hinit.table dir)
    constructor
    · intro dir path hmem
      rw [hempty] at hmem
      cases hmem
    · intro dir
      rw [hempty]
      exact List.nodup_nil
    · intro path hmem
      rw [hnothing] at hmem
      cases hmem
  · intro t op t' hreached hcoherent hguard hstep
    obtain ⟨hnext, hnoted⟩ := GuardedRuns.recorded_eq_done.mp hstep
    exact Session.step_coherent (Session.Reached.sound hreached.unrecorded) hcoherent hguard hnext hnoted

/-- A store with a directory and a file in it. -/
def Remote.directory : Remote :=
  ((∅ : Remote).insert "/d/f".toList ⟨.reg, [65], none, none⟩).insert "/d".toList ⟨.dir, [], none, none⟩

/-- Every call of an opendir succeeds. -/
def OpendirReplies.granted : OpendirReplies := ⟨fun _ => .success, true, true, true⟩

/-- A file that was looked up in an open directory and unlinked is no longer listed. -/
theorem reached_listings_coherent_unlink :
    ∃ t : Listings, "/d/f".toList ∈ t.2 ∧ (t.1.world.entry "/d".toList).isSome = true ∧ t.Coherent := by
  have hreached : ∃ t : Listings, "/d/f".toList ∈ t.2 ∧ (t.1.world.entry "/d".toList).isSome = true ∧
      Listings.Reached Env.plain (KeepsListings Env.plain) t := by
    refine ⟨_, ?_, ?_, .step (i := .unlink "/d/f".toList ⟨fun _ => .granted, true, .reg⟩)
      (.step (i := .getattr "/d/f".toList .granted)
        (.step (s := (.start .empty .directory, [])) (i := .opendir "/d".toList .granted)
          (.start ⟨Session.start_initial .., rfl⟩) trivial rfl) ?_ rfl) ?_ rfl⟩
    · decide
    · rfl
    · intro _ _ _ _ dir hparent
      obtain rfl : "/d".toList = dir := Option.some.inj hparent
      decide
    · intro _ dir hparent _
      obtain rfl : "/d".toList = dir := Option.some.inj hparent
      refine ⟨fun hnone => (by cases hnone), fun pe hentry => ?_⟩
      obtain rfl := Option.some.inj hentry
      rfl
  obtain ⟨t, hmem, hentry, h⟩ := hreached
  exact ⟨t, hmem, hentry, reached_listings_coherent h⟩

/-- A removed directory is still listed by its parent. -/
theorem removed_directory_listed :
    ∃ t : Listings, Listings.Reached Env.plain GuardedRuns.unguarded t ∧ ¬ t.Coherent := by
  refine ⟨_, .step (i := .rmdir "/d/s".toList ⟨fun _ => .granted, .reg⟩)
    (.step (i := .getattr "/d/s".toList .granted)
      (.step (s := (.start .empty (Remote.directory.insert "/d/s".toList ⟨.dir, [], none, none⟩), []))
        (i := .opendir "/d".toList .granted) (.start ⟨Session.start_initial .., rfl⟩) trivial rfl) trivial rfl)
    trivial rfl, fun h => ?_⟩
  exact absurd (h.removed "/d/s".toList (by decide) "/d".toList) (by decide)

end Dropletfs
