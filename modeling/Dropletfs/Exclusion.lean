import Dropletfs.Handles
import Dropletfs.MovedPaths
import Dropletfs.Precedence

/-!
# Files excluded from the upload

`dfs_create` marks the entry of a path that matches the exclusion pattern, and `dfs_release`
does not upload the file of a marked entry. The mark stays with the entry as long as it is
there. No other request looks at the pattern, and the program only compiles the pattern that
comes from the environment.
-/

namespace Dropletfs

open Interleaving (entryPath)

/-- The path that a call creates or sends data to. -/
def Event.target : Event → Option CStr
  | .mknod path => some path
  | .fcopy _ new => some new
  | .openwrite path _ _ => some path
  | _ => none

/-- The state has issued no call that creates the path or sends data to it. -/
def World.Silent (w : World) (path : CStr) : Prop := ∀ event ∈ w.trace, event.target ≠ some path

section Settings

variable {host : Host}

/-- The parser stores the pattern of the file, but does not compile it. -/
theorem assignKey_unset {key : ConfKey} {value : CStr} {p p' : ConfParser} {ok : Bool}
    (hunset : p.settings.regex.set = false) (h : assignKey host key value p = .done (p', ok)) :
    p'.settings.regex.set = false := by
  cases key with
  | compressionMethod | number | exclusionPattern | encryptionMethod =>
    obtain ⟨rfl, -⟩ := Prod.mk.inj (Exec.done.inj h)
    exact hunset
  | cacheDir =>
    obtain ⟨⟨s, made⟩, hset, hdone⟩ := Exec.bind_eq_done.mp h
    obtain ⟨rfl, -⟩ := Prod.mk.inj (Exec.done.inj hdone)
    unfold confSetFullCacheDir at hset
    simp only at hset
    split at hset
    · obtain ⟨dir, -, hdone⟩ := Exec.bind_eq_done.mp hset
      obtain ⟨rfl, -⟩ := Prod.mk.inj (Exec.done.inj hdone)
      exact hunset
    · obtain ⟨rfl, -⟩ := Prod.mk.inj (Exec.done.inj hset)
      exact hunset
  | logLevel =>
    by_cases hvalue : value = []
    · simp only [assignKey, if_pos hvalue] at h
      cases h
    · simp only [assignKey, if_neg hvalue] at h
      obtain ⟨rfl, -⟩ := Prod.mk.inj (Exec.done.inj h)
      exact hunset
  | profilingLogfile =>
    by_cases hvalue : value = []
    · simp only [assignKey, if_pos hvalue] at h
      obtain ⟨rfl, -⟩ := Prod.mk.inj (Exec.done.inj h)
      exact hunset
    · simp only [assignKey, if_neg hvalue] at h
      obtain ⟨logfile, -, hdone⟩ := Exec.bind_eq_done.mp h
      obtain ⟨rfl, -⟩ := Prod.mk.inj (Exec.done.inj hdone)
      exact hunset

/-- Comparing a line with the keys compiles no pattern. -/
theorem parseKeys_unset {keys : List ConfKey} {p p' : ConfParser} {ok : Bool}
    (hunset : p.settings.regex.set = false) (h : parseKeys host keys p = .done (p', ok)) :
    p'.settings.regex.set = false := by
  induction keys generalizing p with
  | nil =>
    obtain ⟨rfl, -⟩ := Prod.mk.inj (Exec.done.inj h)
    exact hunset
  | cons key keys ih =>
    obtain ⟨⟨p₁, ok₁⟩, hkey, hrest⟩ := Exec.bind_eq_done.mp h
    have hunset₁ : p₁.settings.regex.set = false := by
      unfold parseKey at hkey
      split at hkey
      · split at hkey
        · obtain ⟨rfl, -⟩ := Prod.mk.inj (Exec.done.inj hkey)
          exact hunset
        · exact assignKey_unset hunset hkey
      · obtain ⟨rfl, -⟩ := Prod.mk.inj (Exec.done.inj hkey)
        exact hunset
    simp only at hrest
    split at hrest
    · exact ih hunset₁ hrest
    · obtain ⟨rfl, -⟩ := Prod.mk.inj (Exec.done.inj hrest)
      exact hunset₁

/-- Reading the file compiles no pattern. -/
theorem parseStrings_unset {bufs : List CStr} {p p' : ConfParser} {ok : Bool}
    (hunset : p.settings.regex.set = false) (h : parseStrings host bufs p = .done (p', ok)) :
    p'.settings.regex.set = false := by
  induction bufs generalizing p with
  | nil =>
    obtain ⟨rfl, -⟩ := Prod.mk.inj (Exec.done.inj h)
    exact hunset
  | cons buf bufs ih =>
    obtain ⟨⟨p₁, ok₁⟩, hline, hrest⟩ := Exec.bind_eq_done.mp h
    have hunset₁ : p₁.settings.regex.set = false := by
      unfold parseLine at hline
      split at hline
      · obtain ⟨rfl, -⟩ := Prod.mk.inj (Exec.done.inj hline)
        exact hunset
      · simp only at hline
        split at hline
        · obtain ⟨rfl, -⟩ := Prod.mk.inj (Exec.done.inj hline)
          exact hunset
        · refine parseKeys_unset ?_ hline
          exact hunset
    simp only at hrest
    split at hrest
    · exact ih hunset₁ hrest
    · obtain ⟨rfl, -⟩ := Prod.mk.inj (Exec.done.inj hrest)
      exact hunset₁

/-- The file part of the constructor compiles no pattern. -/
theorem confCtorFile_unset {s s' : Settings} (hunset : s.regex.set = false)
    (h : confCtorFile host s = .done s') : s'.regex.set = false := by
  unfold confCtorFile at h
  split at h
  · obtain rfl := Exec.done.inj h
    exact hunset
  · obtain ⟨⟨s₁, made⟩, hset, hrest⟩ := Exec.bind_eq_done.mp h
    have hunset₁ : s₁.regex.set = false := by
      unfold confSetFullCacheDir at hset
      simp only at hset
      split at hset
      · obtain ⟨dir, -, hdone⟩ := Exec.bind_eq_done.mp hset
        obtain ⟨rfl, -⟩ := Prod.mk.inj (Exec.done.inj hdone)
        exact hunset
      · obtain ⟨rfl, -⟩ := Prod.mk.inj (Exec.done.inj hset)
        exact hunset
    simp only at hrest
    split at hrest
    · obtain ⟨⟨s₂, ok⟩, hfile, hdone⟩ := Exec.bind_eq_done.mp hrest
      obtain rfl := Exec.done.inj hdone
      unfold parseFile at hfile
      split at hfile
      · obtain ⟨rfl, -⟩ := Prod.mk.inj (Exec.done.inj hfile)
        exact hunset₁
      · obtain ⟨⟨p, ok₁⟩, hstrings, hdone⟩ := Exec.bind_eq_done.mp hfile
        obtain ⟨rfl, -⟩ := Prod.mk.inj (Exec.done.inj hdone)
        exact parseStrings_unset hunset₁ hstrings
    · obtain rfl := Exec.done.inj hrest
      exact hunset₁

/-- The pattern that is applied is the one of the environment, if it is a regular expression. -/
theorem confCtor_applied {rootDir : Option CStr} {debug : ℤ} {s : Settings}
    (h : confCtor host rootDir debug = .done s) :
    s.regex.applied = (host.envValue ConfKey.exclusionPattern.envVar).filter host.regcomp := by
  obtain ⟨s₁, hdefault, h⟩ := Exec.bind_eq_done.mp h
  obtain ⟨s₂, hfile, h⟩ := Exec.bind_eq_done.mp h
  obtain ⟨s₃, henv, h⟩ := Exec.bind_eq_done.mp h
  obtain rfl := Exec.done.inj h
  obtain ⟨hundefined, -⟩ | ⟨s₀, hdone, hfactory, -⟩ := confCtorDefault_factory host rootDir
  · rw [hundefined] at hdefault
    cases hdefault
  obtain rfl : s₀ = s₁ := Exec.done.inj (hdone.symm.trans hdefault)
  have hunset := confCtorFile_unset hfactory.unset hfile
  obtain ⟨hundefined, -⟩ | ⟨s₄, hdone₄, hover, -⟩ := envOverrideConf_overridden host hunset
  · rw [hundefined] at henv
    cases henv
  obtain rfl : s₄ = s₃ := Exec.done.inj (hdone₄.symm.trans henv)
  exact hover.exclusionPattern

/-- The pattern the user configured: the variable if it is set, otherwise the last one of the file. -/
def Host.exclusionPattern (host : Host) : Option CStr :=
  match host.getenv ConfKey.exclusionPattern.envVar with
  | some pattern => some pattern
  | none => do
    let home ← host.getenv "HOME".toList
    let text ← host.fopen (tmpstrPrintf (slashed home ".dplfsrc".toList))
    let lines := (readStrings text).map fun buf => buf.takeWhile (· ≠ '\n')
    lastNonEmpty (valuesOf .exclusionPattern (writtenAssignments lines))

/-- The path matches the pattern the user configured, which is a regular expression. -/
def Host.Excludes (host : Host) (regexec : CStr → CStr → Bool) (path : CStr) : Prop :=
  ∃ pattern, host.exclusionPattern = some pattern ∧ host.regcomp pattern = true ∧ regexec pattern path = true

/-- An excluded path matches in the program too when the pattern comes from the environment. -/
theorem reMatcher_of_excludes {regexec : CStr → CStr → Bool} {path : CStr} {rootDir : Option CStr} {debug : ℤ}
    {s : Settings} (hbuilt : confCtor host rootDir debug = .done s) (hexcludes : host.Excludes regexec path)
    (hvariable : (host.envValue ConfKey.exclusionPattern.envVar).isSome = true) :
    reMatcher (s.conf regexec).regex path = true := by
  obtain ⟨pattern, hpattern, hvalid, hmatch⟩ := hexcludes
  have hvalue : host.envValue ConfKey.exclusionPattern.envVar = some pattern := by
    unfold Host.exclusionPattern at hpattern
    unfold Host.envValue at hvariable ⊢
    cases hset : host.getenv ConfKey.exclusionPattern.envVar with
    | none =>
      rw [hset] at hvariable
      cases hvariable
    | some value =>
      rw [hset] at hpattern hvariable
      obtain rfl := Option.some.inj hpattern
      rw [Option.filter_some] at hvariable ⊢
      split at hvariable
      · rename_i hnonempty
        rw [if_pos hnonempty]
      · cases hvariable
  have happlied := confCtor_applied hbuilt
  rw [hvalue, Option.filter_some, if_pos hvalid, ConfRegex.applied] at happlied
  cases hset : s.regex.set with
  | false =>
    rw [hset] at happlied
    cases happlied
  | true =>
    rw [hset, if_pos rfl] at happlied
    simp [reMatcher, Settings.conf, hset, happlied, hmatch]

end Settings

section Marks

variable {env : Env} {w w' : World}

/-- The entries that were there have kept their exclusion marks. -/
def World.KeepsMarks (w w' : World) : Prop :=
  ∀ addr < w.nextAddr, ∀ pe', w'.heap addr = some pe' → ∃ pe, w.heap addr = some pe ∧ pe'.exclude = pe.exclude

/-- A new entry leaves the marks of the others. -/
theorem World.Grown.keepsMarks {path : CStr} (h : w.Grown path w') : w.KeepsMarks w' := by
  intro addr hlt pe' hheap
  cases h with
  | same => exact ⟨pe', hheap, rfl⟩
  | more =>
    simp only [World.insert, Function.update_apply, if_neg (Nat.ne_of_lt hlt)] at hheap
    exact ⟨pe', hheap, rfl⟩

/-- A quiet change leaves the marks. -/
theorem World.KeepsMarks.quiet {w₁ : World} (h : w.KeepsMarks w₁) (hquiet : w₁.Quiet w') : w.KeepsMarks w' := by
  intro addr hlt pe' hheap
  obtain ⟨pe₁, hheap₁, hcore⟩ := hquiet.heap_after hheap
  obtain ⟨pe, hbefore, hexclude⟩ := h addr hlt pe₁ hheap₁
  exact ⟨pe, hbefore, (congrArg Core.exclude hcore).trans hexclude⟩

/-- Storing an entry with the same mark leaves the marks. -/
theorem World.KeepsMarks.put {w₁ : World} {addr : ℕ} {pe pe' : Pentry} {fs : LocalFs} (h : w.KeepsMarks w₁)
    (hheap : w₁.heap addr = some pe) (hexclude : pe'.exclude = pe.exclude) :
    w.KeepsMarks (({ w₁ with fs := fs } : World).put addr pe') := by
  intro other hlt qe hqe
  by_cases hother : other = addr
  · subst hother
    rw [World.put_heap_self] at hqe
    obtain rfl := Option.some.inj hqe
    obtain ⟨pe₀, hbefore, hsame⟩ := h other hlt pe hheap
    exact ⟨pe₀, hbefore, hexclude.trans hsame⟩
  · rw [World.put_heap_ne _ _ hother] at hqe
    exact h other hlt qe hqe

/-- Opening a path leaves the marks. -/
theorem dfsOpen_keepsMarks {path : CStr} {flags : BitVec 32} {replies : OpenReplies} {opened : Opened}
    (hopen : dfsOpen env w path flags replies = .done opened) : w.KeepsMarks opened.world := by
  have hheld : ∀ (pe : Pentry) semPost mode, (pe.held semPost mode).exclude = pe.exclude := by
    intro pe semPost mode
    unfold Pentry.held Pentry.incRefcount
    split <;> split <;> rfl
  cases dfsOpen_outcome hopen with
  | noEntry => exact fun addr _ pe' hheap => ⟨pe', hheap, rfl⟩
  | @lockFailed addr w₁ pe pe' hfound _ _ hwait =>
    obtain ⟨rfl, -⟩ := Pentry.decRefcount_eq hwait
    have hkeeps : w.KeepsMarks { w₁ with fs := w₁.fs } := (findOrPopulate_grown hfound.lookup).keepsMarks
    refine hkeeps.put hfound.heap ?_
    unfold Pentry.incRefcount
    split <;> rfl
  | failed hfound _ hmode =>
    obtain ⟨fd, flag, metadata, digest, rfl⟩ := openByMode_entry hmode
    exact (findOrPopulate_grown hfound.lookup).keepsMarks.put hfound.heap (hheld _ _ _)
  | succeeded hfound _ hmode =>
    obtain ⟨fd, flag, metadata, digest, rfl⟩ := openByMode_entry hmode
    exact (findOrPopulate_grown hfound.lookup).keepsMarks.put hfound.heap (hheld _ _ _)

/-- An open of a path that has an entry hands out that entry. -/
theorem dfsOpen_addr {path : CStr} {flags : BitVec 32} {replies : OpenReplies} {opened : Opened} {addr addr' : ℕ}
    (hopen : dfsOpen env w path flags replies = .done opened) (hfh : opened.fh = some addr')
    (htable : w.table path = some addr) : addr' = addr := by
  have hfound : ∀ {a : ℕ} {w₁ : World} {pe : Pentry}, Found w path replies a w₁ pe → a = addr := by
    intro a w₁ pe h
    rcases findOrPopulate_cases h.lookup with ⟨hsame, -⟩ | ⟨hnone, -, -⟩
    · exact Option.some.inj (hsame.symm.trans htable)
    · rw [hnone] at htable
      cases htable
  cases dfsOpen_outcome hopen with
  | noEntry => cases hfh
  | lockFailed h => exact Option.some.inj hfh ▸ hfound h
  | failed h => exact Option.some.inj hfh ▸ hfound h
  | succeeded h => exact Option.some.inj hfh ▸ hfound h

/-- A relation that only looks at the mark. -/
theorem tolerates_marks : ToleratesCounting fun pe pe' : Pentry => pe'.exclude = pe.exclude where
  refl _ := rfl
  trans h₁ h₂ := h₂.trans h₁
  erased _ _ := rfl
  counted _ _ _ _ := rfl

/-- One request changes no mark but that of a path it creates, which it marks if the path matches. -/
theorem Session.step_marks {s s' : Session} {op : Op} {addr : ℕ} {pe' : Pentry} (hsound : s.world.Sound env)
    (hlt : addr < s.world.nextAddr) (hstep : s.step env op = .done s') (hheap : s'.world.heap addr = some pe') :
    (∃ pe, s.world.heap addr = some pe ∧ pe'.exclude = pe.exclude) ∨
      ∃ path mode flags replies, op = .create path mode flags replies ∧ s'.world.table path = some addr ∧
        pe'.exclude = reMatcher env.conf.regex path := by
  cases hadds : op.adds with
  | false =>
    have hchanged := Session.step_reduced tolerates_marks hsound hadds hstep
    exact .inl (hchanged.heap addr pe' hheap)
  | true =>
    cases op with
    | getattr path replies =>
      obtain ⟨looked, hcall, hdone⟩ := Exec.bind_eq_done.mp hstep
      obtain rfl := Exec.done.inj hdone
      obtain ⟨-, w₁, hgrown, hquiet⟩ := dfsGetattr_grown hcall
      exact .inl (hgrown.keepsMarks.quiet hquiet addr hlt pe' hheap)
    | opendir path replies =>
      obtain rfl := Exec.done.inj hstep
      exact .inl ((dfsOpendir_grown env s.world path replies).keepsMarks addr hlt pe' hheap)
    | «open» path flags replies =>
      obtain ⟨opened, hcall, hdone⟩ := Exec.bind_eq_done.mp hstep
      obtain rfl := Exec.done.inj hdone
      exact .inl (dfsOpen_keepsMarks hcall addr hlt pe' hheap)
    | create path mode flags replies =>
      obtain ⟨created, hcall, hdone⟩ := Exec.bind_eq_done.mp hstep
      obtain rfl := Exec.done.inj hdone
      cases dfsCreate_outcome hcall with
      | refused => exact .inl ⟨pe', hheap, rfl⟩
      | noEntry _ hopen =>
        have hkept := dfsOpen_keepsMarks hopen
        exact .inl (hkept addr hlt pe' hheap)
      | @entry opened _ addr₁ pe _ hopen hfh hheap₁ hentry =>
        obtain ⟨-, fs, remote, trace, metadata, -, -, hworld⟩ := createEntry_frame hentry
        have hheap' : (created.world).heap addr = some pe' := hheap
        rw [hworld] at hheap'
        by_cases haddr : addr = addr₁
        · subst haddr
          rw [World.put_heap_self] at hheap'
          obtain rfl := Option.some.inj hheap'
          refine .inr ⟨path, mode, flags, replies, rfl, ?_, rfl⟩
          show created.world.table path = some addr
          rw [hworld]
          exact dfsOpen_table hopen hfh
        · rw [World.put_heap_ne _ _ haddr] at hheap'
          exact .inl (dfsOpen_keepsMarks hopen addr hlt pe' hheap')
    | mkdir | mknod | read | write | release | unlink | rmdir | rename | gc => cases hadds

end Marks

section Renames

variable {env : Env} {w w' : World} {path : CStr}

/-- No file is moved to the path: it is not what a file is renamed to, and a directory that is renamed has no entry, at
any depth, that is given the path. -/
def MovesElsewhere (env : Env) (w : World) (depth : ℕ) (ring : Ring) (old new path : CStr)
    (replies : RenameReplies) : Prop :=
  match renameType env w old replies with
  | .reg => new ≠ path
  | .dir => w.remote.Roomy depth ring old new ∧ ∀ src dst name, w.remote.Gives old new src dst →
      name ∈ w.remote.children src → skipped name = false → entryPath dst name ≠ path
  | .other => True

/-- Calls about other paths leave a state silent. -/
theorem World.Silent.more {issued : List Event} (h : w.Silent path) (htrace : w'.trace = w.trace ++ issued)
    (hissued : ∀ event ∈ issued, event.target ≠ some path) : w'.Silent path := by
  intro event hmem
  rw [htrace] at hmem
  rcases List.mem_append.mp hmem with hbefore | hnew
  · exact h event hbefore
  · exact hissued event hnew

/-- A file that is moved elsewhere. -/
theorem renameFile_silent {old new : CStr} {replies : RenameReplies} (h : w.Silent path) (hnew : new ≠ path) :
    (renameFile env w old new replies).2.Silent path := by
  obtain ⟨removed, htrace, hremoved⟩ := renameFile_trace env w old new replies
  refine h.more htrace fun event hmem => ?_
  have hcopied : (Event.fcopy old new).target ≠ some path := fun heq => hnew (Option.some.inj heq)
  rcases hremoved with rfl | rfl <;>
    simp only [List.append_nil, List.cons_append, List.nil_append, List.mem_cons, List.not_mem_nil, or_false] at hmem
  · rcases hmem with rfl | rfl
    · exact nofun
    · exact hcopied
  · rcases hmem with rfl | rfl | rfl
    · exact nofun
    · exact hcopied
    · exact nofun

/-- A rename that moves no file to the path issues nothing for it. -/
theorem dfsRename_silent {depth : ℕ} {ring : Ring} {s' : Renaming} {old new : CStr} {replies : RenameReplies} {ret : ℤ}
    (h : w.Silent path) (helsewhere : MovesElsewhere env w depth ring old (renameTarget old new) path replies)
    (hrename : dfsRename env depth ⟨w, ring⟩ old new replies = .done (ret, s')) : s'.world.Silent path := by
  obtain ⟨⟨ret₁, s₁⟩, hcall, hdone⟩ := Exec.bind_eq_done.mp hrename
  obtain ⟨-, rfl⟩ := Prod.mk.inj (Exec.done.inj hdone)
  change renameByType env depth ⟨w, ring⟩ (renameType env w old replies) old (renameTarget old new) replies =
    .done (ret₁, s₁) at hcall
  unfold MovesElsewhere at helsewhere
  cases htype : renameType env w old replies with
  | reg =>
    rw [htype] at hcall helsewhere
    have hworld := (renameFileAt_caller env ⟨w, ring⟩ old (renameTarget old new) replies).2
    rw [Exec.done.inj hcall] at hworld
    rw [hworld]
    exact renameFile_silent h helsewhere
  | dir =>
    rw [htype] at hcall helsewhere
    obtain ⟨hroomy, hother⟩ := helsewhere
    refine renameDirectory_kept (P := fun w => w.Silent path) hroomy ⟨?_, ?_, ?_, ?_⟩ h hcall
    · exact fun _ _ hw => hw
    · intro w src dst _ hw
      have htrace : (dfsMkdir env w dst (replies.mkdir dst)).2.trace = w.trace ++ [.mkdir dst] := rfl
      refine hw.more htrace fun event hmem => ?_
      obtain rfl := List.mem_singleton.mp hmem
      exact fun hcreates => by cases hcreates
    · intro w src dst _ hw
      have htrace : (dfsRmdir env (w.log (.dfsRmdir src)) src (replies.rmdir src)).2.trace =
          w.trace ++ [.dfsRmdir src, .rmdir src] := by
        rw [dfsRmdir_trace]
        simp [World.log]
      refine hw.more htrace fun event hmem => ?_
      simp only [List.mem_cons, List.not_mem_nil, or_false] at hmem
      rcases hmem with rfl | rfl
      · exact fun hcreates => by cases hcreates
      · exact fun hcreates => by cases hcreates
    · intro w src dst name hgives hname hskipped hw
      exact renameFile_silent hw (hother src dst name hgives hname hskipped)
  | other =>
    rw [htype] at hcall
    rw [← (Prod.mk.inj (Exec.done.inj hcall)).2]
    exact h

end Renames

/-- The step keeps the path on the machine: it makes no object for it and moves no file to it, creates it
only under the pattern of the environment, and opens it for writing only when its entry is marked. -/
def Withholds (host : Host) (env : Env) (path : CStr) (s : Session) : Op → Prop
  | .mknod target _ => target ≠ path
  | .create target _ _ _ => target = path → (host.envValue ConfKey.exclusionPattern.envVar).isSome = true
  | .open target flags _ => target = path → isRdonly flags = true ∨
      ∃ addr pe, s.world.table path = some addr ∧ s.world.heap addr = some pe ∧ pe.exclude = true
  | .rename depth ring old new replies =>
    MovesElsewhere env s.world depth ring old (renameTarget old new) path replies
  | _ => True

/-- The program at its start, before any call. -/
def Session.Blank (s : Session) : Prop := s.Initial ∧ s.world.trace = []

/-- The entry behind a handle on the path that was not opened read-only is marked. -/
def Session.Marks (s : Session) (path : CStr) : Prop :=
  ∀ handle ∈ s.handles, handle.path = path → isRdonly handle.flags = false →
    ∀ pe, s.world.heap handle.addr = some pe → pe.exclude = true

/-- A step that keeps the path on the machine leaves the entry behind each such handle marked. -/
theorem Session.step_keepsMarked {host : Host} {env : Env} {path : CStr} {s s' : Session} {op : Op}
    (hsound : s.world.Sound env) (hfits : ∀ handle ∈ s'.handles, handle.Fits s'.world)
    (hlts : ∀ handle ∈ s.handles, handle.addr < s.world.nextAddr)
    (hmatch : (host.envValue ConfKey.exclusionPattern.envVar).isSome = true →
      reMatcher env.conf.regex path = true)
    (h : s.Marks path) (hwithholds : Withholds host env path s op) (hstep : s.step env op = .done s') :
    s'.Marks path := by
  rintro handle hmem rfl hwrites pe' hheap
  have hcreates : ∀ target mode flags replies, op = .create target mode flags replies →
      target = handle.path → reMatcher env.conf.regex target = true := by
    rintro target mode flags replies rfl rfl
    exact hmatch (hwithholds rfl)
  have hkept : ∀ addr < s.world.nextAddr, addr = handle.addr →
      (∀ pe, s.world.heap addr = some pe → pe.exclude = true) → pe'.exclude = true := by
    rintro addr hlt rfl hmarked
    rcases Session.step_marks hsound hlt hstep hheap with
      ⟨pe, hbefore, hsame⟩ | ⟨target, mode, flags, replies, hop, htable, hexclude⟩
    · rw [hsame]
      exact hmarked pe hbefore
    · rw [hexclude]
      exact hcreates target mode flags replies hop ((hfits handle hmem).path target htable)
  cases Session.step_handles hstep hmem with
  | before hold => exact hkept _ (hlts handle hold) rfl (h handle hold rfl hwrites)
  | @opened replies opened hop hcall _ hfh hworld =>
    subst hop
    rcases hwithholds rfl with hrdonly | ⟨addr, pe, htable, hbefore, hmarked⟩
    · rw [hwrites] at hrdonly
      cases hrdonly
    · refine hkept addr (hsound.table_lt _ _ htable) (dfsOpen_addr hcall hfh htable).symm ?_
      intro qe hqe
      rwa [← Option.some.inj (hbefore.symm.trans hqe)]
  | @created mode replies created hop hcall hret hfh hworld =>
    rw [hworld] at hheap
    cases dfsCreate_outcome hcall with
    | refused => cases hfh
    | noEntry => cases hfh
    | entry _ _ _ _ hentry =>
      obtain ⟨hfh', fs, remote, trace, metadata, -, -, hworld'⟩ := createEntry_frame hentry
      obtain rfl := Option.some.inj (hfh'.symm.trans hfh)
      rw [hworld', World.put_heap_self] at hheap
      rw [← Option.some.inj hheap]
      exact hcreates _ _ _ _ hop rfl

/-- A step that keeps the path on the machine issues nothing for it. -/
theorem Session.step_silent {host : Host} {env : Env} {path : CStr} {s s' : Session} {op : Op}
    (hmatch : (host.envValue ConfKey.exclusionPattern.envVar).isSome = true →
      reMatcher env.conf.regex path = true)
    (hmarks : s.Marks path) (h : s.world.Silent path) (hwithholds : Withholds host env path s op)
    (hstep : s.step env op = .done s') : s'.world.Silent path := by
  cases hop : op.isRename with
  | false =>
    obtain ⟨issued, hissues, htrace⟩ := Session.step_issues hop hstep
    refine h.more htrace fun event hnew => ?_
    cases hissues with
    | nothing => cases hnew
    | mkdir | unlink | rmdir =>
      obtain rfl := List.mem_singleton.mp hnew
      simp [Event.target]
    | mknod =>
      obtain rfl := List.mem_singleton.mp hnew
      exact fun htarget => hwithholds (Option.some.inj htarget)
    | @create target mode flags replies hexcluded =>
      obtain rfl := List.mem_singleton.mp hnew
      intro htarget
      obtain rfl := Option.some.inj htarget
      rw [hmatch (hwithholds rfl)] at hexcluded
      cases hexcluded
    | @release i replies handle pe size hget hheap hwrites hexclude =>
      obtain rfl := List.mem_singleton.mp hnew
      intro htarget
      rw [hmarks handle (List.mem_of_getElem? hget) (Option.some.inj htarget) hwrites pe hheap] at hexclude
      cases hexclude
  | true =>
    cases op with
    | rename depth ring old new replies =>
      obtain ⟨⟨ret, renamed⟩, hcall, hdone⟩ := Exec.bind_eq_done.mp hstep
      obtain rfl := Exec.done.inj hdone
      exact dfsRename_silent h hwithholds hcall
    | getattr | opendir | mkdir | mknod | create | «open» | read | write | release | unlink | rmdir | gc =>
      cases hop

/-- In every run whose steps keep an excluded path on the machine, no call creates it or sends data to it. -/
theorem excluded_stays (host : Host) (rootDir : Option CStr) (debug : ℤ) (settings : Settings)
    (regexec : CStr → CStr → Bool) (env : Env) (path : CStr) (s : Session)
    (hbuilt : confCtor host rootDir debug = .done settings) (henv : env.conf = settings.conf regexec)
    (hexcludes : host.Excludes regexec path)
    (hreached : GuardedRuns.Reaches (Session.step env) (Withholds host env path) Session.Blank s) :
    ∀ event ∈ s.world.trace, event.target ≠ some path := by
  have hmatch : (host.envValue ConfKey.exclusionPattern.envVar).isSome = true →
      reMatcher env.conf.regex path = true := by
    intro hvariable
    rw [henv]
    exact reMatcher_of_excludes hbuilt hexcludes hvariable
  have hmarked : s.Marks path ∧ s.world.Silent path := by
    refine GuardedRuns.Reaches.invariant (fun s => s.Marks path ∧ s.world.Silent path) ?_ ?_ hreached
    · rintro s ⟨hinitial, htrace⟩
      refine ⟨fun handle hmem => ?_, fun event hmem => ?_⟩
      · rw [hinitial.handles] at hmem
        cases hmem
      · rw [htrace] at hmem
        cases hmem
    · intro s op s' hreached ⟨hmarks, hsilent⟩ hwithholds hstep
      have hreached' : s.Reached env (Withholds host env path) := hreached.mono_init fun _ h => h.1
      have hsound := Session.Reached.sound hreached'
      have hfits := Session.Reached.fits hreached'
      refine ⟨Session.step_keepsMarked hsound (Session.step_all_fit hsound hfits hstep)
        (fun handle hmem => (hfits handle hmem).lt) hmatch hmarks hwithholds hstep, ?_⟩
      exact Session.step_silent hmatch hmarks hsilent hwithholds hstep
  exact hmarked.2

/-- A pattern that ends in `$` matches the paths that end in the text before it. -/
def endsIn (pattern path : CStr) : Bool := pattern.dropLast.isSuffixOf path

/-- A host with a pattern in the environment, for files that end in `tmp`. -/
def Host.excludingTmp : Host := Host.atHome [("DROPLETFS_EXCLUSION_PATTERN", "tmp$")] []

/-- The settings of that host. -/
def Settings.excludingTmp : Settings where
  __ := Settings.factory Host.excludingTmp
  cacheDir := "/tmp/b".toList
  regex := ⟨some "tmp$".toList, some "tmp$".toList, true⟩

/-- The program under these settings. -/
def Env.excludingTmp : Env := { Env.plain with conf := Settings.excludingTmp.conf endsIn }

/-- An excluded file is created, written and released, and stays on the machine. -/
theorem created_stays :
    ∃ s : Session, s.world.entry "/a.tmp".toList ≠ none ∧ s.handles = [] ∧
      s.world.fs.contentAt (cacheName Env.excludingTmp.conf "/a.tmp".toList) = some [65] ∧
      ∀ event ∈ s.world.trace, event.target ≠ some "/a.tmp".toList :=
  ⟨_, by decide, rfl, rfl, excluded_stays Host.excludingTmp none 0 Settings.excludingTmp endsIn Env.excludingTmp
    "/a.tmp".toList _ rfl rfl ⟨"tmp$".toList, by decide +kernel, rfl, by decide⟩
    (.step (i := .release 0 (.granted 4))
      (.step (i := .write 0 [65] 0 ⟨some 1, 1, by decide⟩)
        (.step (i := .create "/a.tmp".toList 0o100644#32 (oWronly ||| oCreat) (.granted 3))
          (.start ⟨Session.start_initial .empty ∅, rfl⟩) (fun _ => by decide +kernel) rfl) trivial rfl) trivial rfl)⟩

/-- A file of the store that matches the pattern is opened for writing. Its entry is not marked, and the release
uploads it. -/
theorem opened_excluded_uploaded :
    Host.excludingTmp.Excludes endsIn "/a.tmp".toList ∧
      confCtor Host.excludingTmp none 0 = .done Settings.excludingTmp ∧
      ∃ s : Session, GuardedRuns.Reaches (Session.step Env.excludingTmp) GuardedRuns.unguarded Session.Blank s ∧
        ∃ event ∈ s.world.trace, event.target = some "/a.tmp".toList :=
  ⟨⟨"tmp$".toList, by decide +kernel, rfl, by decide⟩, rfl, _,
    .step (i := .release 0 (.granted 4))
      (.step (i := .open "/a.tmp".toList oWronly (.granted 3))
        (.start ⟨Session.start_initial .empty ((∅ : Remote).insert "/a.tmp".toList ⟨.reg, [], none, none⟩), rfl⟩)
        trivial rfl) trivial rfl,
    .openwrite "/a.tmp".toList false 0, by decide, rfl⟩

end Dropletfs
