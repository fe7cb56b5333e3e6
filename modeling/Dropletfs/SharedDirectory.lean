import Dropletfs.EntryFrame
import Dropletfs.RequestHistories

/-!
# The directory that requests share

`dfs_readdir` and `rename_directory` change to a directory and then list `.`, in two calls
on one context. Here any number of requests run side by side, a call of one of them at a
time. Each fills or moves exactly the entries of its own directories as long as no other
request changes to another directory in between.
-/

namespace Dropletfs

namespace World

/-- Removing a path from the list of a directory does not change the current directory. -/
theorem removeDirentOf_cwd (w : World) (dir : Option CStr) (path : CStr) (junk : Filetype) :
    (w.removeDirentOf dir path junk).cwd = w.cwd := by
  unfold removeDirentOf
  split
  · rfl
  · unfold modify
    split <;> rfl

/-- Removing a path does not change the current directory. -/
theorem remove_cwd (w : World) (path : CStr) : (w.remove path).cwd = w.cwd := by
  unfold remove
  split
  · rfl
  · unfold free
    split <;> rfl

end World

namespace Interleaving

open Parties (Prog)

/-- A request of FUSE. -/
inductive Asked where
  | readdir (path : CStr)
  | rename (junkType : Ftype) (junkEntryType : CStr → Ftype) (depth : ℕ) (ring : Ring) (old new : CStr)

/-- The function that serves a request. -/
def Asked.serve (env : Env) : Asked → Request ℤ
  | .readdir path => dfsReaddir env path
  | .rename junkType junkEntryType depth ring old new => dfsRename env junkType junkEntryType depth ring old new

/-- With these calls a request has filled exactly the entries of its directory, or moved exactly those of its
directory and of the directories below. -/
def Asked.DealsExactly : Asked → History → Prop
  | .readdir path, made => DirectoryRead path made
  | .rename _ _ _ _ old new, made => PathRenamed old (renameTarget old new) made

/-- Requests running side by side, each with the directory it has changed to but not listed yet, and with the calls
it has made. -/
abbrev Running (ι : Type) := Parties.State ι World (Option CStr × History) Call Answer ℤ

section System

variable {ι : Type} {env : Env}

/-- Every request is about to be served. -/
structure Starts (env : Env) (asked : ι → Asked) (s : Running ι) : Prop where
  view : ∀ i, s.view i = (none, [])
  prog : ∀ i, s.prog i = (asked i).serve env

/-- No request changes to a directory while another one still has to list a different directory, and none formats
a string over one of its thread that is in use. -/
structure Undisturbed (s : Running ι) (next : ι × StepReply) : Prop where
  chdir : ∀ dir k, s.prog next.1 = .call (.chdir dir) k →
    dplChdir next.2.call.status dir s.shared.remote = .success →
      ∀ j, j ≠ next.1 → ∀ meant k', s.prog j = .call (.opendir meant) k' → meant = dir
  format : ∀ k, s.prog next.1 ≠ .call (.format true) k

/-- A request that lists a directory next is in that directory. -/
def InPlace (s : Running ι) : Prop := ∀ j meant k, s.prog j = .call (.opendir meant) k → s.shared.cwd = meant

/-- A request deals exactly with its directories if its calls are answered as they should be. -/
theorem Asked.serve_makes (asked : Asked) (entered : Option CStr) :
    (asked.serve env).Makes listing (fun _ made _ => asked.DealsExactly made) entered := by
  cases asked with
  | readdir path => exact dfsReaddir_makes path
  | rename junkType junkEntryType depth ring old new => exact dfsRename_makes junkType junkEntryType depth ring old new

/-- Changing to a directory makes it the current one. -/
theorem perform_chdir (env : Env) {w : World} {dir : CStr} {r : StepReply}
    (h : dplChdir r.call.status dir w.remote = .success) : (perform env w (.chdir dir) r).2.cwd = dir := by
  simp only [perform, answered, h, if_true]

/-- Nothing else changes the current directory. -/
theorem perform_cwd {w : World} {c : Call} {r : StepReply}
    (h : ∀ dir, c = .chdir dir → dplChdir r.call.status dir w.remote ≠ .success) :
    (perform env w c r).2.cwd = w.cwd := by
  cases c with
  | chdir dir => simp only [perform, answered, h dir rfl, if_false]
  | removeDirent dir path => exact World.removeDirentOf_cwd ..
  | forget path =>
    simp only [perform, answered]
    split
    · rfl
    · exact (World.removeDirentOf_cwd ..).trans (World.remove_cwd ..)
  | _ => rfl

/-- A call is answered as it should be, if it is made in the directory it means to list and writes over no string
in use. -/
theorem perform_serves {w : World} {c : Call} {r : StepReply} (hplace : ∀ dir, c = .opendir dir → w.cwd = dir)
    (hformat : c ≠ .format true) : (perform env w c r).1.Serves c := by
  cases c with
  | opendir dir => exact congrArg w.remote.children (hplace dir rfl)
  | format reuses =>
    cases reuses with
    | true => exact absurd rfl hformat
    | false => rfl
  | fcopy old new =>
    intro hsuccess
    simp only [perform, answered, dplFcopy] at hsuccess ⊢
    cases hlookup : w.remote.lookup old with
    | none =>
      rw [hlookup] at hsuccess
      exact absurd ((Status.onExisting_eq_success _ _).mp hsuccess).2 Bool.false_ne_true
    | some obj =>
      rw [hlookup] at hsuccess
      refine ⟨obj, hlookup, ?_⟩
      simp only [r.call.applied_of_success hsuccess, if_true]
  | unlink path =>
    intro hsuccess
    simp only [perform, answered, dplUnlink] at hsuccess ⊢
    obtain ⟨hstatus, hpresent⟩ := (Status.onExisting_eq_success _ _).mp hsuccess
    refine ⟨hpresent, ?_⟩
    simp only [r.call.applied_of_success hstatus, if_true]
  | _ => trivial

/-- A request has a directory to list only if it has just changed to it, or failed to list it. -/
theorem track_eq_some {entered : Option CStr} {w : World} {c : Call} {r : StepReply} {meant : CStr}
    (hmay : listing.may entered c) (h : listing.track entered c (perform env w c r).1 = some meant) :
    c = .chdir meant ∧ dplChdir r.call.status meant w.remote = .success ∨ c = .opendir meant := by
  cases c with
  | chdir dir =>
    simp only [listing, perform, answered] at h
    split at h
    · rename_i hsuccess
      obtain rfl := Option.some.inj h
      exact .inl ⟨rfl, hsuccess⟩
    · cases h
  | opendir dir =>
    simp only [listing] at h hmay
    split at h
    · cases h
    · exact .inr (congrArg _ (Option.some.inj (hmay.symm.trans h)))
  | _ => cases h

variable [DecidableEq ι]

/-- A step that disturbs no other request leaves every request in place. -/
theorem inPlace_step {s : Running ι} {i : ι} {r : StepReply} {c : Call} {k : Answer → Request ℤ}
    {post : Option CStr × History → ℤ → Prop} (h : InPlace s) (hguard : Undisturbed s (i, r))
    (hprog : s.prog i = .call c k) (hmay : listing.logged.may (s.view i) c)
    (hgoes : (k (perform env s.shared c r).1).Meets listing.logged post
      (listing.logged.track (s.view i) c (perform env s.shared c r).1)) :
    InPlace (s.answered listing.logged i c k (perform env s.shared c r)) := by
  intro j meant k' hlists
  by_cases hj : j = i
  · subst hj
    rw [Parties.State.answered_prog_self] at hlists
    rw [hlists] at hgoes
    rcases track_eq_some hmay hgoes.1 with ⟨rfl, hsuccess⟩ | rfl
    · exact perform_chdir env hsuccess
    · exact (perform_cwd fun _ hc => by cases hc).trans (h j meant k hprog)
  · rw [Parties.State.answered_prog_of_ne hj] at hlists
    by_cases hchdir : ∃ dir, c = .chdir dir ∧ dplChdir r.call.status dir s.shared.remote = .success
    · obtain ⟨dir, rfl, hsuccess⟩ := hchdir
      have hmeant := hguard.chdir dir k hprog hsuccess j hj meant k' hlists
      exact (perform_chdir env hsuccess).trans hmeant.symm
    · have hstays : (perform env s.shared c r).2.cwd = s.shared.cwd :=
        perform_cwd fun dir hc hsuccess => hchdir ⟨dir, hc, hsuccess⟩
      exact hstays.trans (h j meant k' hlists)

/-- However the calls of the requests interleave, if no request changes to a directory while another one still has
to list a different one, and none formats a string over one in use, then the calls of a finished
`dfs_readdir` fill exactly the entries of its directory, and those of a finished `dfs_rename` move exactly the
entries of its directory and of the directories below. -/
theorem reached_deals_exactly (env : Env) (asked : ι → Asked) (s : Running ι)
    (h : GuardedRuns.Reaches (Parties.step (perform env) listing.logged) Undisturbed (Starts env asked) s) (i : ι)
    (ret : ℤ) (hdone : s.prog i = .done ret) : (asked i).DealsExactly (s.view i).2 := by
  have hmeets := Parties.reached_meets InPlace (fun i g _ => (asked i).DealsExactly g.2) ?_ ?_ ?_ h
  · have hown := hmeets.2 i
    rw [hdone] at hown
    exact hown
  · rintro s ⟨hview, hprog⟩
    have hserved : ∀ i, (s.prog i).Meets listing.logged (fun g _ => (asked i).DealsExactly g.2) (s.view i) := by
      intro i
      rw [hprog i, hview i]
      refine ((asked i).serve_makes none []).mono fun g _ hg => ?_
      obtain ⟨made, hpast, hexact⟩ := hg
      rw [hpast]
      exact hexact
    refine ⟨fun j meant k hlists => ?_, hserved⟩
    -- a request that starts has not changed to a directory yet
    have hmay := hserved j
    rw [hlists, hview j] at hmay
    cases hmay.1
  · intro s i r c k hplace hguard hprog hmay
    refine perform_serves (fun dir hc => ?_) fun hc => ?_
    · subst hc
      exact hplace i dir k hprog
    · subst hc
      exact hguard.format k hprog
  · intro s i r c k hplace hguard hprog hmay hgoes
    exact inPlace_step hplace hguard hprog hmay hgoes

/-- The store and the local files in the two runs below: the directories `/a`, with a file `x`, and `/b`, with a file
`y`. -/
def twoDirectories : World :=
  { World.start .empty ((((∅ : Remote).insert "/a".toList ⟨.dir, [], none, none⟩).insert "/b".toList
      ⟨.dir, [], none, none⟩ |>.insert "/a/x".toList ⟨.reg, [7], none, none⟩).insert "/b/y".toList
      ⟨.reg, [8], none, none⟩) with table := fun _ => some 0 }

/-- The listing of `/a`, and the rename of `/b` or, if it is not to be renamed, its listing. -/
def bothAsked (renamed : Bool) : Bool → Asked
  | false => .readdir "/a".toList
  | true => if renamed then .rename .other (fun _ => .other) 2 .start "/b".toList "/c".toList
      else .readdir "/b".toList

/-- Both requests, about to be served. -/
def bothRequests (renamed : Bool) : Running Bool where
  shared := twoDirectories
  view _ := (none, [])
  prog i := (bothAsked renamed i).serve Env.plain

/-- A call that succeeds. -/
def StepReply.granted : StepReply := ⟨.granted, true, .reg⟩

/-- The calls of two requests in this order, all of which succeed. -/
def granted (order : List Bool) : List (Bool × StepReply) := order.map fun i => (i, .granted)

/-- A test for steps of two requests that disturb neither. -/
def calm (s : Running Bool) (next : Bool × StepReply) : Bool :=
  match s.prog next.1, s.prog !next.1 with
  | .call (.chdir dir) _, .call (.opendir meant) _ => meant = dir
  | .call (.format reuses) _, _ => !reuses
  | _, _ => true

/-- The test is right. -/
theorem undisturbed_of_calm (s : Running Bool) (next : Bool × StepReply) (h : calm s next = true) :
    Undisturbed s next where
  chdir := by
    rintro dir k hchdir - j hj meant k' hlists
    obtain rfl : j = !next.1 := Bool.eq_not.mpr hj
    simp only [calm, hchdir, hlists, decide_eq_true_eq] at h
    exact h
  format := by
    intro k hformat
    simp [calm, hformat] at h

/-- Listing one directory while the other one is renamed, each listed before the other is changed to. -/
theorem reached_deals_exactly_side_by_side :
    ∃ s : Running Bool, s.prog false = .done 0 ∧ s.prog true = .done 0 ∧
      s.shared.remote.lookup "/c/y".toList = some ⟨.reg, [8], none, none⟩ ∧
      DirectoryRead "/a".toList (s.view false).2 ∧ PathRenamed "/b".toList "/c".toList (s.view true).2 := by
  have hrun : ∃ s, GuardedRuns.run (Parties.step (perform Env.plain) listing.logged) calm
      (granted [false, true, true, true, false, false, true, false, true, false, true, true, true, true, true, true,
        true, true, true, true, true, false, true]) (bothRequests true) = .done s ∧
      s.prog false = .done 0 ∧ s.prog true = .done 0 ∧
      s.shared.remote.lookup "/c/y".toList = some ⟨.reg, [8], none, none⟩ := ⟨_, rfl, rfl, rfl, rfl⟩
  obtain ⟨s, hrun, hfirst, hsecond, hstored⟩ := hrun
  have hreached : GuardedRuns.Reaches (Parties.step (perform Env.plain) listing.logged) Undisturbed
      (Starts Env.plain (bothAsked true)) s :=
    GuardedRuns.Reaches.run undisturbed_of_calm (.start ⟨fun _ => rfl, fun _ => rfl⟩) hrun
  exact ⟨s, hfirst, hsecond, hstored, reached_deals_exactly Env.plain (bothAsked true) s hreached false _ hfirst,
    reached_deals_exactly Env.plain (bothAsked true) s hreached true _ hsecond⟩

/-- When the second request changes to its directory before the first one has listed its own, the first fills an
entry of the other directory. -/
theorem readdir_disturbed :
    ∃ s : Running Bool, GuardedRuns.Reaches (Parties.step (perform Env.plain) listing.logged) GuardedRuns.unguarded
      (Starts Env.plain (bothAsked false)) s ∧
      ∃ ret, s.prog false = .done ret ∧ ¬ DirectoryRead "/a".toList (s.view false).2 := by
  have hrun : ∃ (s : Running Bool) (looked entered listed read filled ended : Answer),
      GuardedRuns.run (Parties.step (perform Env.plain) listing.logged) (fun _ _ => true)
        (granted [false, false, true, true, false, false, false, false]) (bothRequests false) = .done s ∧
      s.prog false = .done 0 ∧
      (s.view false).2 = [(.lookup "/a".toList, looked), (.chdir "/a".toList, entered),
        (.opendir "/a".toList, listed), (.readdir, read), (.fill "y".toList, filled), (.readdir, ended)] ∧
      listed.before.children "/a".toList = ["x".toList] := ⟨_, _, _, _, _, _, _, rfl, rfl, rfl, rfl⟩
  obtain ⟨s, looked, entered, listed, read, filled, ended, hrun, hdone, hmade, hown⟩ := hrun
  refine ⟨s, .run (fun _ _ _ => trivial) (.start ⟨fun _ => rfl, fun _ => rfl⟩) hrun, 0, hdone, fun hread => ?_⟩
  rw [hmade] at hread
  obtain ⟨answer, hanswer, hmem⟩ := hread.fills_own (.fill "y".toList, filled) (by simp) rfl
  obtain rfl : answer = listed := by simpa using hanswer
  rw [hown] at hmem
  exact absurd hmem (by decide)

end System

end Interleaving

end Dropletfs
