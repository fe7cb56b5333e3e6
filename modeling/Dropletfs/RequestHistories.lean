import Dropletfs.Interleaving

/-!
# What requests call, and in which order

The calls of a request with their answers, in the order they were made. Reading a directory
passes its entries to the filler one after the other. Moving a directory moves its entries
one after the other: a file by copying its object and removing it from its old path, a
directory by moving its own entries. Both are said of the entries that the directory had in
the store when it was listed, which need not be the names that the listing gave.
-/

namespace Dropletfs.Interleaving

open Parties (Prog Tried)

/-- Calls with their answers, in the order they were made. -/
abbrev History := List (Call × Answer)

/-- The attempts of a wrapper, and the answer to the last of them. -/
abbrev Attempted (retriable : Status → Bool) (call : Call) : History → Answer → Prop :=
  Tried (fun answer => retriable answer.status) call

/-- A directory is changed to and then listed: the calls, and the entries it then has in the store. -/
inductive Listed (dir : CStr) : History → List CStr → Prop
  | listed {entering listing : History} {entered answer : Answer} :
      Attempted Status.retriableChdir (.chdir dir) entering entered → entered.status = .success →
      Attempted Status.retriable (.opendir dir) listing answer → answer.status = .success →
      Listed dir (entering ++ listing) (answer.before.children dir)

/-- A directory cannot be changed to, or it cannot be listed then. -/
inductive Unlisted (dir : CStr) : History → Prop
  | notEntered {entering : History} {entered : Answer} :
      Attempted Status.retriableChdir (.chdir dir) entering entered → entered.status ≠ .success → Unlisted dir entering
  | notListed {entering listing : History} {entered answer : Answer} :
      Attempted Status.retriableChdir (.chdir dir) entering entered → entered.status = .success →
      Attempted Status.retriable (.opendir dir) listing answer → answer.status ≠ .success →
      Unlisted dir (entering ++ listing)

/-- Names are passed to the filler one after the other, up to the last one or to a failure. -/
inductive Filled : List CStr → History → Prop
  | ended {a : Answer} : Filled [] [(.readdir, a)]
  | left {names : List CStr} {a : Answer} : a.status ≠ .success → Filled names [(.readdir, a)]
  | full {name : CStr} {names : List CStr} {a b : Answer} : a.status = .success → b.status ≠ .success →
      Filled (name :: names) [(.readdir, a), (.fill name, b)]
  | filled {name : CStr} {names : List CStr} {a b : Answer} {rest : History} : a.status = .success →
      b.status = .success → Filled names rest → Filled (name :: names) ((.readdir, a) :: (.fill name, b) :: rest)

/-- A directory is read: it is not known or cannot be listed, or its own entries are filled. -/
inductive DirectoryRead (dir : CStr) : History → Prop
  | unknown {looked : Answer} : looked.status ≠ .success → DirectoryRead dir [(.lookup dir, looked)]
  | unlisted {looked : Answer} {entering : History} : Unlisted dir entering →
      DirectoryRead dir ((.lookup dir, looked) :: entering)
  | filled {looked : Answer} {entering filling : History} {own : List CStr} : Listed dir entering own →
      Filled own filling → DirectoryRead dir ((.lookup dir, looked) :: (entering ++ filling))

/-- A path is unlinked: its object is removed and the path is forgotten, or the call fails. -/
inductive PathUnlinked (path : CStr) : History → Prop
  | kept {trying : History} {a : Answer} : Attempted Status.retriable (.unlink path) trying a →
      a.status ≠ .success → PathUnlinked path trying
  | unlinked {trying : History} {reuses : Bool} {a b c : Answer} :
      Attempted Status.retriable (.unlink path) trying a → a.status = .success → a.Removes path →
      PathUnlinked path (trying ++ [(.format reuses, b), (.forget path, c)])

/-- A file is moved: its object is copied and the old path is unlinked, or the copy fails. -/
inductive FileMoved (old new : CStr) : History → Prop
  | notCopied {copying : History} {a : Answer} : Attempted Status.retriable (.fcopy old new) copying a →
      a.status ≠ .success → FileMoved old new copying
  | copied {copying unlinking : History} {dir : Option CStr} {a b : Answer} :
      Attempted Status.retriable (.fcopy old new) copying a → a.status = .success → a.Copies old new →
      PathUnlinked old unlinking → FileMoved old new (copying ++ (.removeDirent dir old, b) :: unlinking)

/-- A new directory is there, or it is made. -/
inductive Prepared (dir : CStr) : History → Prop
  | present {looking : History} {found : Answer} : Attempted Status.retriable (.namei dir) looking found →
      found.status = .success → Prepared dir looking
  | made {looking making : History} {found a : Answer} : Attempted Status.retriable (.namei dir) looking found →
      found.status = .enoent → Attempted Status.retriable (.mkdir dir) making a →
      ¬ (a.status ≠ .success ∧ a.status ≠ .enoent) → Prepared dir (looking ++ making)

/-- It cannot be found out whether a new directory is there, or it cannot be made. -/
inductive Unprepared (dir : CStr) : History → Prop
  | unknown {looking : History} {found : Answer} : Attempted Status.retriable (.namei dir) looking found →
      found.status ≠ .success ∧ found.status ≠ .enoent → Unprepared dir looking
  | notMade {looking making : History} {found a : Answer} : Attempted Status.retriable (.namei dir) looking found →
      found.status = .enoent → Attempted Status.retriable (.mkdir dir) making a →
      a.status ≠ .success ∧ a.status ≠ .enoent → Unprepared dir (looking ++ making)

mutual

/-- An entry is moved as what its lookup found, or as either if it found nothing. -/
inductive EntryMoved : Option Ftype → CStr → CStr → History → Prop
  | file {found : Option Ftype} {src dst : CStr} {moving : History} : found ≠ some .dir → FileMoved src dst moving →
      EntryMoved found src dst moving
  | directory {found : Option Ftype} {src dst : CStr} {moving : History} : found = none ∨ found = some .dir →
      DirectoryMoved src dst moving → EntryMoved found src dst moving

/-- The entries of a directory are moved one after the other, up to the last one, or until the listing fails or
it cannot be found out what an entry is. -/
inductive EntriesMoved : CStr → CStr → List CStr → History → Prop
  | ended {old new : CStr} {a : Answer} : EntriesMoved old new [] [(.readdir, a)]
  | left {old new : CStr} {names : List CStr} {a : Answer} : a.status ≠ .success →
      EntriesMoved old new names [(.readdir, a)]
  | passed {old new name : CStr} {names : List CStr} {a : Answer} {rest : History} : skipped name = true →
      a.status = .success → EntriesMoved old new names rest →
      EntriesMoved old new (name :: names) ((.readdir, a) :: rest)
  | unknown {old new name : CStr} {names : List CStr} {reuses reuses' : Bool} {a b c found : Answer}
      {looking : History} : skipped name = false → a.status = .success →
      Attempted Status.retriable (.namei (entryPath old name)) looking found →
      found.status ≠ .success ∧ found.status ≠ .enoent →
      EntriesMoved old new (name :: names) ((.readdir, a) :: (.format reuses, b) :: (.format reuses', c) :: looking)
  | moved {old new name : CStr} {names : List CStr} {reuses reuses' : Bool} {a b c found : Answer}
      {looking moving rest : History} : skipped name = false → a.status = .success →
      Attempted Status.retriable (.namei (entryPath old name)) looking found →
      ¬ (found.status ≠ .success ∧ found.status ≠ .enoent) →
      EntryMoved found.found (entryPath old name) (entryPath new name) moving → EntriesMoved old new names rest →
      EntriesMoved old new (name :: names)
        ((.readdir, a) :: (.format reuses, b) :: (.format reuses', c) :: (looking ++ (moving ++ rest)))

/-- A directory is moved: its new path cannot be had or it cannot be listed, or its own entries are moved, and then
it may be removed. -/
inductive DirectoryMoved : CStr → CStr → History → Prop
  | unprepared {old new : CStr} {making : History} : Unprepared new making → DirectoryMoved old new making
  | unlisted {old new : CStr} {making entering : History} : Prepared new making → Unlisted old entering →
      DirectoryMoved old new (making ++ entering)
  | listed {old new : CStr} {making entering moving removing : History} {own : List CStr} : Prepared new making →
      Listed old entering own → EntriesMoved old new own moving →
      (∀ step ∈ removing, step.1 = .rmdir old ∨ step.1 = .removeDirent (some old) old) →
      DirectoryMoved old new ((making ++ entering) ++ (moving ++ removing))

end

/-- A path is renamed: it is looked up, and moved unless it is neither a file nor a directory. -/
inductive PathRenamed (old new : CStr) : History → Prop
  | refused {looking : History} {found : Answer} : Attempted Status.retriable (.namei old) looking found →
      found.found = none ∨ found.found = some .other → PathRenamed old new looking
  | moved {looking moving : History} {found : Answer} : Attempted Status.retriable (.namei old) looking found →
      found.found ≠ some .other → EntryMoved found.found old new moving → PathRenamed old new (looking ++ moving)

section Wrappers

variable {env : Env} {entered : Option CStr}

/-- Any call but the listing of a directory may be made. -/
theorem listing_may {call : Call} (h : ∀ dir, call ≠ .opendir dir) (entered : Option CStr) :
    listing.may entered call := by
  cases call with
  | opendir dir => exact absurd rfl (h dir)
  | _ => trivial

/-- A single call other than a listing. -/
theorem request_makes {call : Call} (h : ∀ dir, call ≠ .opendir dir) :
    (Prog.request call : Request Answer).Makes listing (fun _ made answer => made = [(call, answer)]) entered :=
  .request (listing_may h entered) fun _ _ => rfl

/-- A wrapper around a call other than a listing. -/
theorem timeout_makes {retriable : Status → Bool} {call : Call} (h : ∀ dir, call ≠ .opendir dir) :
    (timeout env retriable call).Makes listing (fun _ made answer =>
      Attempted retriable call made answer ∧ answer.Serves call) entered :=
  .retry (fun _ => True) (fun entered _ => listing_may h entered) (fun _ _ _ _ _ => trivial)
    (fun _ _ _ _ hserves htried => ⟨htried, hserves⟩) _ trivial

/-- After changing to a directory the request has entered it. -/
theorem dfsChdirTimeout_makes (dir : CStr) :
    (dfsChdirTimeout env dir).Makes listing (fun entered made answer =>
      Attempted Status.retriableChdir (.chdir dir) made answer ∧ (answer.status = .success → entered = some dir))
      entered := by
  refine .retry (fun _ => True) (fun _ _ => trivial) (fun _ _ _ _ _ => trivial) ?_ _ trivial
  intro entered answer made _ _ htried
  refine ⟨htried, fun hsuccess => ?_⟩
  simp only [listing, hsuccess, if_true]

/-- A listing of the directory that the request has entered is that of its entries. -/
theorem dfsOpendirTimeout_makes (dir : CStr) :
    (dfsOpendirTimeout env dir).Makes listing (fun _ made answer =>
      Attempted Status.retriable (.opendir dir) made answer ∧ answer.names = answer.before.children dir)
      (some dir) := by
  refine .retry (fun entered => entered = some dir) (fun _ h => h) ?_ (fun _ _ _ _ hown htried => ⟨htried, hown⟩) _ rfl
  intro entered answer hentered _ hagain
  have hfailed : answer.status ≠ .success := by
    intro hsuccess
    rw [hsuccess] at hagain
    cases hagain
  simp only [listing, hfailed, if_false]
  exact hentered

/-- The attempts of a wrapper are all of its call. -/
theorem Attempted.call {retriable : Status → Bool} {call : Call} {made : History} {answer : Answer}
    (h : Attempted retriable call made answer) (step : Call × Answer) (hstep : step ∈ made) : step.1 = call :=
  (h.of_mem hstep).1

/-- Changing to a directory and listing it is all that is called until it is listed. -/
theorem Listed.call {dir : CStr} {made : History} {own : List CStr} (h : Listed dir made own) (step : Call × Answer)
    (hstep : step ∈ made) : step.1 = .chdir dir ∨ step.1 = .opendir dir := by
  cases h with
  | listed hchdir _ hopendir _ =>
    rcases List.mem_append.mp hstep with hstep | hstep
    · exact .inl (hchdir.call step hstep)
    · exact .inr (hopendir.call step hstep)

/-- Nor is anything else called when it cannot be listed. -/
theorem Unlisted.call {dir : CStr} {made : History} (h : Unlisted dir made) (step : Call × Answer)
    (hstep : step ∈ made) : step.1 = .chdir dir ∨ step.1 = .opendir dir := by
  cases h with
  | notEntered hchdir => exact .inl (hchdir.call step hstep)
  | notListed hchdir _ hopendir _ =>
    rcases List.mem_append.mp hstep with hstep | hstep
    · exact .inl (hchdir.call step hstep)
    · exact .inr (hopendir.call step hstep)

/-- The filler gets names of the list only. -/
theorem Filled.own {names : List CStr} {made : History} (h : Filled names made) {name : CStr} (step : Call × Answer)
    (hstep : step ∈ made) (hcall : step.1 = .fill name) : name ∈ names := by
  induction h with
  | ended =>
    obtain rfl := List.mem_singleton.mp hstep
    cases hcall
  | left =>
    obtain rfl := List.mem_singleton.mp hstep
    cases hcall
  | full =>
    simp only [List.mem_cons, List.not_mem_nil, or_false] at hstep
    rcases hstep with rfl | rfl
    · cases hcall
    · cases hcall
      exact List.mem_cons_self
  | filled _ _ _ ih =>
    simp only [List.mem_cons] at hstep
    rcases hstep with rfl | rfl | hstep
    · cases hcall
    · cases hcall
      exact List.mem_cons_self
    · exact List.mem_cons_of_mem _ (ih hstep)

/-- What is filled when a directory is read is an entry that the directory had when it was listed. -/
theorem DirectoryRead.fills_own {dir name : CStr} {made : History} (h : DirectoryRead dir made)
    (step : Call × Answer) (hstep : step ∈ made) (hcall : step.1 = .fill name) :
    ∃ answer, (.opendir dir, answer) ∈ made ∧ name ∈ answer.before.children dir := by
  cases h with
  | unknown =>
    obtain rfl := List.mem_singleton.mp hstep
    cases hcall
  | unlisted hunlisted =>
    rcases List.mem_cons.mp hstep with rfl | hstep
    · cases hcall
    · have hother := hunlisted.call step hstep
      rw [hcall] at hother
      simp at hother
  | @filled looked entering filling own hlisted hfilled =>
    simp only [List.mem_cons, List.mem_append] at hstep
    rcases hstep with rfl | hstep | hstep
    · cases hcall
    · have hother := hlisted.call step hstep
      rw [hcall] at hother
      simp at hother
    · have hown := hfilled.own step hstep hcall
      cases hlisted with
      | @listed _ listing _ answer _ _ htried _ =>
        have hlast : ((.opendir dir, answer) : Call × Answer) ∈ listing := htried.last_mem
        exact ⟨answer, by simp [hlast], hown⟩

end Wrappers

section Readdir

variable {env : Env} {entered : Option CStr}

/-- The names are passed to the filler. -/
theorem fillEntries_makes (names : List CStr) :
    (fillEntries names).Makes listing (fun _ made _ => Filled names made) entered := by
  induction names generalizing entered with
  | nil =>
    refine .bind (request_makes (by simp)) fun _ made _ hmade => .done ?_
    rw [hmade]
    exact .ended
  | cons name names ih =>
    refine .bind (request_makes (by simp)) fun _ made a hmade => ?_
    rw [hmade]
    split
    · rename_i hfailed
      exact .done (.left hfailed)
    · rename_i hread
      refine .bind (request_makes (by simp)) fun _ more b hmore => ?_
      rw [hmore]
      split
      · rename_i hfailed
        exact .done (.full (not_not.mp hread) hfailed)
      · rename_i hfilled
        exact ih.mono fun _ rest _ hrest => .filled (not_not.mp hread) (not_not.mp hfilled) hrest

/-- `dfs_readdir` fills the entries of its own directory. -/
theorem dfsReaddir_makes (path : CStr) :
    (dfsReaddir env path).Makes listing (fun _ made _ => DirectoryRead path made) entered := by
  refine .bind (request_makes (by simp)) fun _ made looked hmade => ?_
  rw [hmade]
  split
  · rename_i hunknown
    exact .done (.unknown hunknown)
  · refine .bind (dfsChdirTimeout_makes path) fun entered entering a hentering => ?_
    obtain ⟨hchdir, hentered⟩ := hentering
    split
    · rename_i hfailed
      refine .done ?_
      rw [List.append_nil]
      exact .unlisted (.notEntered hchdir hfailed)
    · rename_i hsuccess
      rw [hentered (not_not.mp hsuccess)]
      refine .bind (dfsOpendirTimeout_makes path) fun _ listing b hlisting => ?_
      obtain ⟨hopendir, hown⟩ := hlisting
      split
      · rename_i hfailed
        have hunlisted : Unlisted path (entering ++ listing) :=
          .notListed hchdir (not_not.mp hsuccess) hopendir hfailed
        refine .done ?_
        rw [List.append_nil]
        exact .unlisted hunlisted
      · rename_i hlisted
        refine .bind (fillEntries_makes b.names) fun _ filling _ hfilled => .done ?_
        rw [hown] at hfilled
        have hread : DirectoryRead path ((.lookup path, looked) :: ((entering ++ listing) ++ filling)) :=
          .filled (.listed hchdir (not_not.mp hsuccess) hopendir (not_not.mp hlisted)) hfilled
        simpa using hread

end Readdir

section Rename

variable {env : Env} {entered : Option CStr}

/-- The slot that is written over is not in use. -/
theorem format_makes (ring : Ring) :
    (Prog.request (.format (reuses ring)) : Request Answer).Makes listing
      (fun _ made answer => made = [(.format (reuses ring), answer)] ∧ reuses ring = false) entered :=
  .request trivial fun _ hfree => ⟨rfl, hfree⟩

/-- Formatting a string. -/
theorem printf_makes {ring : Ring} {dir : StrPtr} {name text : CStr} (hdir : Held ring dir text) :
    (printf ring dir name).Makes listing (fun _ made formatted =>
      (∃ answer, made = [(.format (reuses ring), answer)]) ∧ reuses ring = false ∧
        formatted = (SlotRing.next tmpstrNb ring.current, ring.push (tmpstrPrintf (slashed text name)))) entered := by
  refine .bind (format_makes ring) fun _ made answer hmade => ?_
  obtain ⟨rfl, hfree⟩ := hmade
  refine .ofExec fun formatted hdone => ⟨⟨answer, rfl⟩, hfree, ?_⟩
  unfold Ring.printf at hdone
  split at hdone
  · cases hdone
  · obtain rfl := Exec.done.inj hdone
    rw [hdir.deref]
    rfl

/-- `dfs_unlink` formats one string at most. -/
theorem dfsUnlink_makes (ring : Ring) (path : CStr) :
    (dfsUnlink env ring path).Makes listing (fun _ made result => PathUnlinked path made ∧ Keeps ring result.2)
      entered := by
  refine .bind (timeout_makes (by simp)) fun _ trying a htrying => ?_
  obtain ⟨htried, hremoves⟩ := htrying
  split
  · rename_i hfailed
    refine .done ⟨?_, .refl ring⟩
    rw [List.append_nil]
    exact .kept htried hfailed
  · rename_i hsuccess
    refine .bind (format_makes ring) fun _ made b hmade => ?_
    obtain ⟨rfl, hfree⟩ := hmade
    refine .bind (request_makes (by simp)) fun _ made c hmade => .done ⟨?_, .push hfree _⟩
    rw [hmade]
    exact .unlinked htried (not_not.mp hsuccess) (hremoves (not_not.mp hsuccess))

/-- `rename_file` moves one file, and formats one string at most. -/
theorem renameFile_makes (ring : Ring) (old new : CStr) :
    (renameFile env ring old new).Makes listing (fun _ made result => FileMoved old new made ∧ Keeps ring result.2)
      entered := by
  refine .bind (timeout_makes (by simp)) fun _ copying a hcopying => ?_
  obtain ⟨hcopied, hcopies⟩ := hcopying
  split
  · rename_i hfailed
    refine .done ⟨?_, .refl ring⟩
    rw [List.append_nil]
    exact .notCopied hcopied hfailed
  · rename_i hsuccess
    refine .bind (request_makes (by simp)) fun _ made b hmade => ?_
    rw [hmade]
    refine (dfsUnlink_makes ring old).mono fun _ unlinking _ hunlinked => ⟨?_, hunlinked.2⟩
    exact .copied hcopied (not_not.mp hsuccess) (hcopies (not_not.mp hsuccess)) hunlinked.1

/-- An entry is moved by its type, which its lookup found or left as it was. -/
theorem renameEntry_makes {recurse : Ring → StrPtr → StrPtr → Request (ℤ × Ring)}
    (hrecurse : ∀ ring src dst entered, (recurse ring src dst).Makes listing (fun _ made result =>
      DirectoryMoved (ring.deref src) (ring.deref dst) made ∧ Keeps ring result.2) entered)
    (ring : Ring) (found : Option Ftype) (type : Ftype) (src dst : StrPtr) :
    (renameEntry env recurse ring (found.getD type) src dst).Makes listing (fun _ made result =>
      EntryMoved found (ring.deref src) (ring.deref dst) made ∧ Keeps ring result.2) entered := by
  unfold renameEntry
  split
  · rename_i hdir
    refine (hrecurse ring src dst entered).mono fun _ _ _ hmoved => ⟨.directory ?_ hmoved.1, hmoved.2⟩
    cases found with
    | none => exact .inl rfl
    | some type => exact .inr (congrArg some hdir)
  · rename_i hfile
    refine (renameFile_makes ring _ _).mono fun _ _ _ hmoved => ⟨.file ?_ hmoved.1, hmoved.2⟩
    rintro rfl
    exact hfile rfl

/-- The loop moves the entries listed. -/
theorem renameEntries_makes {recurse : Ring → StrPtr → StrPtr → Request (ℤ × Ring)}
    (hrecurse : ∀ ring src dst entered, (recurse ring src dst).Makes listing (fun _ made result =>
      DirectoryMoved (ring.deref src) (ring.deref dst) made ∧ Keeps ring result.2) entered)
    {old new : StrPtr} {oldPath newPath : CStr} (names : List CStr) (type : Ftype) (ret : ℤ) (ring : Ring)
    (hold : Held ring old oldPath) (hnew : Held ring new newPath) :
    (renameEntries env recurse old new names type ret ring).Makes listing
      (fun _ made result => EntriesMoved oldPath newPath names made ∧ Keeps ring result.2) entered := by
  induction names generalizing type ret ring entered with
  | nil =>
    refine .bind (request_makes (by simp)) fun _ made a hmade => .done ⟨?_, .refl ring⟩
    rw [hmade]
    exact .ended
  | cons name names ih =>
    refine .bind (request_makes (by simp)) fun _ made a hmade => ?_
    rw [hmade]
    split
    · rename_i hfailed
      exact .done ⟨.left hfailed, .refl ring⟩
    · rename_i hread
      split
      · rename_i hskipped
        refine (ih type ret ring hold hnew).mono fun _ rest result hrest => ⟨?_, hrest.2⟩
        exact .passed hskipped (not_not.mp hread) hrest.1
      · rename_i hskipped
        have hnotSkipped : skipped name = false := Bool.not_eq_true _ |>.mp hskipped
        refine .bind (printf_makes hold) fun _ _ _ hformatted => ?_
        obtain ⟨⟨b, rfl⟩, hfree, rfl⟩ := hformatted
        refine .bind (printf_makes (hnew.keeps (.push hfree _))) fun _ _ _ hformatted => ?_
        obtain ⟨⟨c, rfl⟩, hfree', rfl⟩ := hformatted
        obtain ⟨hkeeps, hsrc, hdst⟩ := @entryPaths_formed ring oldPath newPath name hfree hfree'
        refine .bind (timeout_makes (by simp)) fun _ looking found hlooking => ?_
        have hlooked : Attempted Status.retriable (.namei (entryPath oldPath name)) looking found := by
          rw [← hsrc]
          exact hlooking.1
        split
        · rename_i hunknown
          refine .done ⟨?_, hkeeps⟩
          rw [List.append_nil]
          exact .unknown hnotSkipped (not_not.mp hread) hlooked hunknown
        · rename_i hknown
          refine .bind (renameEntry_makes hrecurse _ _ _ _ _) fun _ moving result hmoving => ?_
          obtain ⟨hmoved, hkept⟩ := hmoving
          have hmoved' : EntryMoved found.found (entryPath oldPath name) (entryPath newPath name) moving := by
            rw [← hsrc, ← hdst]
            exact hmoved
          have hkept' := hkeeps.trans hkept
          refine (ih _ _ _ (hold.keeps hkept') (hnew.keeps hkept')).mono fun _ rest result hrest => ?_
          refine ⟨?_, hkept'.trans hrest.2⟩
          change EntriesMoved oldPath newPath (name :: names)
            ((.readdir, a) :: (.format _, b) :: (.format _, c) :: (looking ++ (moving ++ rest)))
          exact .moved hnotSkipped (not_not.mp hread) hlooked hknown hmoved' hrest.1

/-- After its lookup the new directory is made if there is none, and then it is there unless that fails. -/
theorem makeMissing_makes {new : CStr} {looking : History} {found : Answer}
    (hlooked : Attempted Status.retriable (.namei new) looking found)
    (hknown : ¬ (found.status ≠ .success ∧ found.status ≠ .enoent)) :
    (makeMissing env new found.status).Makes listing (fun _ making ret =>
      (ret = 0 → Prepared new (looking ++ making)) ∧ (ret ≠ 0 → Unprepared new (looking ++ making))) entered := by
  unfold makeMissing
  split
  · rename_i hmissing
    refine .bind (timeout_makes (by simp)) fun _ making a hmade => .done ?_
    rw [List.append_nil]
    split
    · rename_i hfailed
      exact ⟨fun hret => by simp at hret, fun _ => .notMade hlooked hmissing hmade.1 hfailed⟩
    · rename_i hsuccess
      exact ⟨fun _ => .made hlooked hmissing hmade.1 hsuccess, fun hret => absurd rfl hret⟩
  · rename_i hpresent
    refine .done ⟨fun _ => ?_, fun hret => absurd rfl hret⟩
    rw [List.append_nil]
    exact .present hlooked (by_contra fun hfailed => hknown ⟨hfailed, hpresent⟩)

/-- Only the old directory is removed. -/
theorem dfsRmdir_makes (path : CStr) :
    (dfsRmdir env path).Makes listing (fun _ made _ =>
      ∀ step ∈ made, step.1 = .rmdir path ∨ step.1 = .removeDirent (some path) path) entered := by
  refine .bind (timeout_makes (by simp)) fun _ made _ hmade => ?_
  split
  · refine .done fun step hstep => .inl (hmade.1.call step ?_)
    rwa [List.append_nil] at hstep
  · refine .bind (request_makes (by simp)) fun _ more _ hmore => .done fun step hstep => ?_
    rw [hmore, List.append_nil] at hstep
    rcases List.mem_append.mp hstep with hstep | hstep
    · exact .inl (hmade.1.call step hstep)
    · obtain rfl := List.mem_singleton.mp hstep
      exact .inr rfl

/-- The first half of the rename of a directory: it is left before the directory is listed, or the listing is that
of the old path. -/
inductive Entered (old new : CStr) : History → Except ℤ (Ftype × List CStr) → Prop
  | left {made : History} {ret : ℤ} : DirectoryMoved old new made → Entered old new made (.error ret)
  | listed {making entering : History} {type : Ftype} {names : List CStr} : Prepared new making →
      Listed old entering names → Entered old new (making ++ entering) (.ok (type, names))

/-- The listing that the rename of a directory goes through is that of its old path. -/
theorem enterDirectory_makes (old new : CStr) (junkEntryType : CStr → Ftype) :
    (enterDirectory env old new junkEntryType).Makes listing (fun _ made result => Entered old new made result)
      entered := by
  refine .bind (timeout_makes (by simp)) fun _ looking found hlooking => ?_
  obtain ⟨hlooked, -⟩ := hlooking
  split
  · rename_i hunknown
    refine .done (.left ?_)
    rw [List.append_nil]
    exact .unprepared (.unknown hlooked hunknown)
  · rename_i hknown
    refine .bind (makeMissing_makes hlooked hknown) fun _ making ret hmaking => ?_
    split
    · rename_i hret
      refine .done (.left ?_)
      rw [List.append_nil]
      exact .unprepared (hmaking.2 hret)
    · rename_i hret
      have hprepared := hmaking.1 (not_not.mp hret)
      refine .bind (dfsChdirTimeout_makes old) fun entered entering a hentering => ?_
      obtain ⟨hchdir, hentered⟩ := hentering
      split
      · rename_i hfailed
        refine .done (.left ?_)
        rw [List.append_nil, ← List.append_assoc]
        exact .unlisted hprepared (.notEntered hchdir hfailed)
      · rename_i hsuccess
        rw [hentered (not_not.mp hsuccess)]
        refine .bind (dfsOpendirTimeout_makes old) fun _ listing b hlisting => ?_
        obtain ⟨hopendir, hown⟩ := hlisting
        split
        · rename_i hfailed
          refine .done (.left ?_)
          rw [List.append_nil, ← List.append_assoc]
          exact .unlisted hprepared (.notListed hchdir (not_not.mp hsuccess) hopendir hfailed)
        · rename_i hlisted
          have hlisting := Listed.listed hchdir (not_not.mp hsuccess) hopendir (not_not.mp hlisted)
          rw [← hown] at hlisting
          refine .done ?_
          rw [List.append_nil, ← List.append_assoc]
          exact .listed hprepared hlisting

/-- The rename of a directory moves its own entries, and so do the renames of the directories below. -/
theorem renameDirectory_makes (junkEntryType : CStr → Ftype) (depth : ℕ) (ring : Ring) (old new : StrPtr)
    (entered : Option CStr) :
    (renameDirectory env junkEntryType depth ring old new).Makes listing (fun _ made result =>
      DirectoryMoved (ring.deref old) (ring.deref new) made ∧ Keeps ring result.2) entered := by
  induction depth generalizing ring old new entered with
  | zero => exact fun _ => trivial
  | succ depth ih =>
    refine .bind (enterDirectory_makes _ _ _) fun _ made result hentered => ?_
    cases hentered with
    | left hmoved =>
      refine .done ⟨?_, .refl ring⟩
      rw [List.append_nil]
      exact hmoved
    | @listed making entering type names hmaking hlisted =>
      obtain ⟨hold, hnew⟩ := held_enter ring old new
      refine .bind (renameEntries_makes ih names type 0 _ hold hnew) fun _ moving result hmoving => ?_
      obtain ⟨ret, ring'⟩ := result
      obtain ⟨hmoved, hkeeps⟩ := hmoving
      have hpath : ring'.deref old = ring.deref old := (hold.keeps hkeeps).deref
      simp only
      split
      · refine .done ⟨?_, hkeeps.leave⟩
        exact .listed hmaking hlisted hmoved fun _ hstep => by cases hstep
      · refine .bind (dfsRmdir_makes _) fun _ removing _ hremoving => .done ⟨?_, hkeeps.leave⟩
        rw [hpath] at hremoving
        rw [List.append_nil]
        exact .listed hmaking hlisted hmoved hremoving

/-- `dfs_rename` moves what its old path is: a file, or a directory with its own entries. -/
theorem dfsRename_makes (junkType : Ftype) (junkEntryType : CStr → Ftype) (depth : ℕ) (ring : Ring) (old new : CStr) :
    (dfsRename env junkType junkEntryType depth ring old new).Makes listing
      (fun _ made _ => PathRenamed old (renameTarget old new) made) entered := by
  refine .bind (timeout_makes (by simp)) fun _ looking found hlooking => ?_
  obtain ⟨hlooked, -⟩ := hlooking
  split
  · rename_i hreg
    refine .bind (renameFile_makes _ _ _) fun _ moving _ hmoved => .done ?_
    rw [List.append_nil]
    refine .moved hlooked ?_ (.file ?_ hmoved.1)
    · intro h
      rw [h] at hreg
      cases hreg
    · intro h
      rw [h] at hreg
      cases hreg
  · rename_i hdir
    refine .bind (renameDirectory_makes _ _ _ _ _ _) fun _ moving _ hmoved => .done ?_
    rw [List.append_nil]
    refine .moved hlooked ?_ (.directory ?_ hmoved.1)
    · intro h
      rw [h] at hdir
      cases hdir
    · cases hfound : found.found with
      | none => exact .inl rfl
      | some type =>
        rw [hfound] at hdir
        exact .inr (congrArg some hdir)
  · rename_i hother
    refine .done ?_
    rw [List.append_nil]
    refine .refused hlooked ?_
    cases hfound : found.found with
    | none => exact .inl rfl
    | some type =>
      rw [hfound] at hother
      exact .inr (congrArg some hother)

end Rename

end Dropletfs.Interleaving
