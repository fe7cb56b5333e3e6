import Dropletfs.Assignments

/-!
# Which assignment of a setting counts

A setting is documented to take the value of its environment variable, otherwise the last value
the configuration file gives it, otherwise its default. The assignments that the parser comes
to are compared with those that the file contains, which tells exactly when the settings are
the documented ones.
-/

namespace Dropletfs

/-- The documented settings that are integers. -/
def documentedNumbers : List ConfNumber :=
  [.zlibLevel, .gcLoopDelay, .gcAgeThreshold, .scLoopDelay, .scAgeThreshold]

/-- The variable of an integer setting. -/
def ConfNumber.envVar : ConfNumber → CStr
  | .zlibLevel => "DROPLETFS_ZLIB_LEVEL".toList
  | .maxRetry => "DROPLETFS_MAX_RETRY".toList
  | .gcLoopDelay => "DROPLETFS_GC_LOOP_DELAY".toList
  | .gcAgeThreshold => "DROPLETFS_GC_AGE_THRESHOLD".toList
  | .scLoopDelay => "DROPLETFS_SC_LOOP_DELAY".toList
  | .scAgeThreshold => "DROPLETFS_SC_AGE_THRESHOLD".toList
  | .cacheMaxSize => "DROPLETFS_CACHE_MAX_SIZE".toList
  | .profiling => "DROPLETFS_PROFILING".toList

/-- The variable of a setting, for the cache directory the one that the documentation names. -/
def ConfKey.envVar : ConfKey → CStr
  | .compressionMethod => "DROPLETFS_COMPRESSION_METHOD".toList
  | .number n => n.envVar
  | .cacheDir => "DROPLETFS_CACHE_DIR".toList
  | .exclusionPattern => "DROPLETFS_EXCLUSION_PATTERN".toList
  | .encryptionMethod => "DROPLETFS_ENCRYPTION_METHOD".toList
  | .logLevel => "DROPLETFS_LOG_LEVEL".toList
  | .profilingLogfile => "DROPLETFS_PROFILING_LOGFILE".toList

/-- The lines of a file as strings: a NUL ends a line. -/
def textLines (lines : List CStr) : List CStr := lines.map cString

/-- What the parser gets of them: it takes off the last character, which is not the newline after a NUL. -/
def parsedLines (lines : List CStr) : List CStr := lines.map fun line => (cString (line ++ ['\n'])).dropLast

/-- The value documented for a setting, if the environment or the file gives it one. -/
def chosen (host : Host) (lines : List CStr) (key : ConfKey) : Option CStr :=
  (host.envValue key.envVar).or (lastNonEmpty (valuesOf key (writtenAssignments (textLines lines))))

/-- Every documented setting has its documented value. -/
structure Precedence (host : Host) (lines : List CStr) (s : Settings) : Prop where
  compressionMethod : s.compressionMethod =
    (chosen host lines .compressionMethod).getD defaultCompressionMethod
  encryptionMethod : s.encryptionMethod =
    (chosen host lines .encryptionMethod).getD defaultEncryptionMethod
  number : ∀ n ∈ documentedNumbers,
    s.number n = ((chosen host lines (.number n)).map strtoulInt).getD n.factory
  exclusionPattern : s.regex.applied = chosen host lines .exclusionPattern
  cacheDir : s.cacheDir = slashed ((chosen host lines .cacheDir).getD defaultCacheDir) host.curBucket

/-- Where the environment does not decide, these assignments give the documented settings of the
file. The pattern takes effect only from the environment, and the cache directory only from the
file. -/
structure Gives (host : Host) (lines : List CStr) (ms : List Assignment) : Prop where
  compressionMethod : (host.envValue ConfKey.compressionMethod.envVar).isSome = true ∨
    (lastNonEmpty (valuesOf .compressionMethod ms)).getD defaultCompressionMethod =
      (lastNonEmpty (valuesOf .compressionMethod (writtenAssignments (textLines lines)))).getD defaultCompressionMethod
  encryptionMethod : (host.envValue ConfKey.encryptionMethod.envVar).isSome = true ∨
    (lastNonEmpty (valuesOf .encryptionMethod ms)).getD defaultEncryptionMethod =
      (lastNonEmpty (valuesOf .encryptionMethod (writtenAssignments (textLines lines)))).getD defaultEncryptionMethod
  number : ∀ n ∈ documentedNumbers, (host.envValue (ConfKey.number n).envVar).isSome = true ∨
    ((valuesOf (.number n) ms).getLast?.map strtoulInt).getD n.factory =
      ((lastNonEmpty (valuesOf (.number n) (writtenAssignments (textLines lines)))).map strtoulInt).getD n.factory
  exclusionPattern : ∀ pattern, chosen host lines .exclusionPattern = some pattern →
    (host.envValue ConfKey.exclusionPattern.envVar).isSome = true ∧ host.regcomp pattern = true
  cacheDir : directoryAfter host (directories ms) =
    slashed ((chosen host lines .cacheDir).getD defaultCacheDir) host.curBucket

/-- The configuration is built, and the assignments that the parser comes to give the documented
settings. -/
structure Undisturbed (host : Host) (rootDir : Option CStr) (lines : List CStr) : Prop where
  rootDir : ∀ dir, rootDir = some dir → dir.all (· = '/') = false
  survives : survives host [] (reachedAssignments host (parsedLines lines)) = true
  profilingLogfile : host.envValue ConfKey.profilingLogfile.envVar = none
  gives : Gives host lines (reachedAssignments host (parsedLines lines))

/-- The settings that the constructor starts from. -/
structure Factory (s : Settings) : Prop where
  compressionMethod : s.compressionMethod = defaultCompressionMethod
  encryptionMethod : s.encryptionMethod = defaultEncryptionMethod
  number : s.number = ConfNumber.factory
  cacheDir : s.cacheDir = defaultCacheDir
  unset : s.regex.set = false
  logfile : s.profilingLogfile.isLiteral = true

/-- The defaults with the bucket behind the cache directory are what no assignment gives. -/
theorem Factory.tracks {host : Host} {s : Settings} (h : Factory s) :
    Tracks host [] { s with cacheDir := directoryAfter host [] } where
  compressionMethod := h.compressionMethod
  encryptionMethod := h.encryptionMethod
  number n := by rw [h.number]; rfl
  cacheDir := rfl
  unset := h.unset
  logfile := h.logfile

/-- The default directory is not made of slashes. -/
theorem confSetFullCacheDir_factory (host : Host) {s : Settings} (h : Factory s) :
    confSetFullCacheDir host 0 s =
      .done ({ s with cacheDir := directoryAfter host [] }, host.mkdir 0) := by
  have hall : (directoryText host []).all (· = '/') = false := by
    simp [directoryText, tmpstrPrintf, tmpstrMax, slashed, defaultCacheDir]
  have htext : tmpstrPrintf (slashed s.cacheDir host.curBucket) = directoryText host [] := by
    rw [h.cacheDir]
    rfl
  unfold confSetFullCacheDir directoryAfter
  rw [htext, List.length_nil]
  cases host.mkdir 0 with
  | false => rfl
  | true =>
    simp only [removeTrailingSlashes, hall, if_true]
    rfl

/-- The file part of the constructor makes the assignments that the parser comes to. -/
theorem confCtorFile_tracks {host : Host} {s : Settings} (h : Factory s) {home : CStr} {lines : List CStr}
    (hhome : host.getenv "HOME".toList = some home)
    (hfile : host.fopen (tmpstrPrintf (slashed home ".dplfsrc".toList)) = some (fileText lines))
    (hlines : ∀ line ∈ lines, '\n' ∉ line ∧ line.length + 1 < tmpstrMax) :
    (confCtorFile host s = .undefined ∧ survives host [] (reachedAssignments host (parsedLines lines)) = false) ∨
    ∃ s', confCtorFile host s = .done s' ∧ survives host [] (reachedAssignments host (parsedLines lines)) = true ∧
      Tracks host (reachedAssignments host (parsedLines lines)) s' := by
  simp only [confCtorFile, hhome, confSetFullCacheDir_factory host h, Exec.done_bind, reachedAssignments]
  cases hmade : host.mkdir 0 with
  | false => exact .inr ⟨_, rfl, rfl, h.tracks⟩
  | true =>
    have hread : (readStrings (fileText lines)).map List.dropLast = parsedLines lines := by
      rw [readStrings, fgetsAll_fileText _ lines fun line hmem =>
        ⟨(hlines line hmem).1, by have := (hlines line hmem).2; omega⟩, List.map_map, List.map_map]
      rfl
    have htracks : Tracks host [] { s with cacheDir := directoryAfter host [] } := h.tracks
    have hparsed := parseStrings_parsed host (readStrings (fileText lines))
      (p := ⟨{ s with cacheDir := directoryAfter host [] }, [], 0, 0⟩) htracks rfl rfl hmade
    simp only [if_true, parseFile, hfile, parseContent]
    rw [List.nil_append, hread] at hparsed
    cases hrun : parseStrings host (readStrings (fileText lines))
        ⟨{ s with cacheDir := directoryAfter host [] }, [], 0, 0⟩ with
    | blocked => exact (hrun ▸ hparsed : Parsed host _ _ .blocked).elim
    | undefined => exact .inl ⟨rfl, (hrun ▸ hparsed : Parsed host _ _ .undefined)⟩
    | done r =>
      obtain ⟨p, ok⟩ := r
      obtain ⟨htracks, -, hsurvives, -⟩ := (hrun ▸ hparsed : Parsed host _ _ (.done (p, ok)))
      exact .inr ⟨p.settings, rfl, hsurvives, htracks⟩

/-- The constructor's defaults, unless the mount point is made of slashes. -/
theorem confCtorDefault_factory (host : Host) (rootDir : Option CStr) :
    (confCtorDefault host rootDir = .undefined ∧ ∃ dir, rootDir = some dir ∧ dir.all (· = '/') = true) ∨
    ∃ s, confCtorDefault host rootDir = .done s ∧ Factory s ∧
      ∀ dir, rootDir = some dir → dir.all (· = '/') = false := by
  cases rootDir with
  | none => exact .inr ⟨_, rfl, ⟨rfl, rfl, rfl, rfl, rfl, rfl⟩, by simp⟩
  | some dir =>
    cases hall : dir.all (· = '/') with
    | true =>
      refine .inl ⟨?_, dir, rfl, hall⟩
      simp only [confCtorDefault, confSetRootDir, removeTrailingSlashes, hall, if_true]
      rfl
    | false =>
      refine .inr ⟨{ Settings.factory host with rootDir := some (dir.rdropWhile (· = '/')) }, ?_, ?_,
        fun dir' hdir => (Option.some.inj hdir) ▸ hall⟩
      · simp only [confCtorDefault, confSetRootDir, removeTrailingSlashes, hall]
        rfl
      · exact ⟨rfl, rfl, rfl, rfl, rfl, rfl⟩

section Frames

variable {α : Type} {f : Settings → α}

/-- An integer variable changes nothing but the numbers. -/
theorem envGenericSetInt_keeps (hf : ∀ s number, f { s with number := number } = f s)
    (host : Host) (n : ConfNumber) (id : CStr) (s : Settings) : f (envGenericSetInt host n id s) = f s := by
  unfold envGenericSetInt
  split
  · rfl
  · exact hf _ _

/-- The variable of the log level changes nothing else. -/
theorem envSetLogLevel_keeps (hf : ∀ s level, f { s with logLevel := level } = f s)
    (host : Host) (s : Settings) : f (envSetLogLevel host s) = f s := by
  unfold envSetLogLevel
  split
  · rfl
  · exact hf _ _

/-- The variable of the pattern changes nothing but the expression. -/
theorem envSetExclusionPattern_keeps (hf : ∀ s regex, f { s with regex := regex } = f s)
    (host : Host) (s : Settings) : f (envSetExclusionPattern host s) = f s := by
  unfold envSetExclusionPattern
  split
  · rfl
  · exact hf _ _

end Frames

/-- An integer variable gives its value to its own setting, and leaves the others alone. -/
theorem envGenericSetInt_number (host : Host) (n n' : ConfNumber) (id : CStr) (s : Settings) :
    (envGenericSetInt host n id s).number n' =
      if n' = n then ((host.envValue id).map strtoulInt).getD (s.number n') else s.number n' := by
  unfold envGenericSetInt
  cases host.envValue id with
  | none => simp
  | some value =>
    rw [Option.map_some, Option.getD_some]
    exact Function.update_apply _ _ _ _

/-- When no pattern was set, the variable is the one that is applied, if it is a regular expression. -/
theorem envSetExclusionPattern_applied (host : Host) {s : Settings} (hunset : s.regex.set = false) :
    (envSetExclusionPattern host s).regex.applied =
      (host.envValue ConfKey.exclusionPattern.envVar).filter host.regcomp := by
  unfold envSetExclusionPattern Host.envValue ConfKey.envVar
  cases host.getenv "DROPLETFS_EXCLUSION_PATTERN".toList with
  | none => simp [ConfRegex.applied, hunset]
  | some value =>
    by_cases hempty : value = []
    · simp [reCtor, ConfRegex.applied, hempty, Option.filter_some]
    · cases hcomp : host.regcomp value <;>
        simp [reCtor, ConfRegex.applied, hempty, hcomp, Option.filter_some]

/-- The settings once the environment has been read. -/
structure Overridden (host : Host) (s s' : Settings) : Prop where
  compressionMethod : s'.compressionMethod =
    (host.envValue ConfKey.compressionMethod.envVar).getD s.compressionMethod
  encryptionMethod : s'.encryptionMethod =
    (host.envValue ConfKey.encryptionMethod.envVar).getD s.encryptionMethod
  number : ∀ n, s'.number n = ((host.envValue (ConfKey.number n).envVar).map strtoulInt).getD (s.number n)
  exclusionPattern : s'.regex.applied =
    (host.envValue ConfKey.exclusionPattern.envVar).filter host.regcomp
  cacheDir : s'.cacheDir = s.cacheDir

/-- All variables but the last override the settings, except for the cache directory. -/
theorem envOverrideConf_eq (host : Host) {s : Settings} (hunset : s.regex.set = false) :
    ∃ s', envOverrideConf host s = envSetProfilingLogfile host s' ∧ Overridden host s s' ∧
      s'.profilingLogfile = s.profilingLogfile := by
  refine ⟨envSetProfiling host
      (envSetEncryptionMethod host (envSetLogLevel host (envSetCacheMaxSize host (envSetExclusionPattern host
        (envSetScAgeThreshold host (envSetScLoopDelay host (envSetGcAgeThreshold host (envSetGcLoopDelay host
          (envSetMaxRetry host (envSetCompressionLevel host (envSetCompressionMethod host s))))))))))), rfl, ?_, ?_⟩ <;>
    simp only [envSetProfiling, envSetCacheMaxSize, envSetScAgeThreshold, envSetScLoopDelay,
      envSetGcAgeThreshold, envSetGcLoopDelay, envSetMaxRetry, envSetCompressionLevel]
  · constructor
    · simp only [envSetEncryptionMethod, envSetLogLevel_keeps (f := Settings.compressionMethod) fun _ _ => rfl,
        envSetExclusionPattern_keeps (f := Settings.compressionMethod) fun _ _ => rfl,
        envGenericSetInt_keeps (f := Settings.compressionMethod) fun _ _ => rfl]
      rfl
    · simp only [envSetEncryptionMethod, envSetLogLevel_keeps (f := Settings.encryptionMethod) fun _ _ => rfl,
        envSetExclusionPattern_keeps (f := Settings.encryptionMethod) fun _ _ => rfl,
        envGenericSetInt_keeps (f := Settings.encryptionMethod) fun _ _ => rfl]
      rfl
    · intro n
      simp only [envGenericSetInt_number, envSetEncryptionMethod,
        envSetLogLevel_keeps (f := Settings.number) fun _ _ => rfl,
        envSetExclusionPattern_keeps (f := Settings.number) fun _ _ => rfl]
      cases n <;> rfl
    · simp only [envGenericSetInt_keeps (f := Settings.regex) fun _ _ => rfl, envSetEncryptionMethod,
        envSetLogLevel_keeps (f := Settings.regex) fun _ _ => rfl]
      refine envSetExclusionPattern_applied host ?_
      simp only [envGenericSetInt_keeps (f := Settings.regex) fun _ _ => rfl]
      exact hunset
    · simp only [envSetEncryptionMethod, envSetLogLevel_keeps (f := Settings.cacheDir) fun _ _ => rfl,
        envSetExclusionPattern_keeps (f := Settings.cacheDir) fun _ _ => rfl,
        envGenericSetInt_keeps (f := Settings.cacheDir) fun _ _ => rfl]
      rfl
  · simp only [envSetEncryptionMethod, envSetLogLevel_keeps (f := Settings.profilingLogfile) fun _ _ => rfl,
      envSetExclusionPattern_keeps (f := Settings.profilingLogfile) fun _ _ => rfl,
      envGenericSetInt_keeps (f := Settings.profilingLogfile) fun _ _ => rfl]
    rfl

/-- Without its variable the logfile stays. -/
theorem envSetProfilingLogfile_none {host : Host} (s : Settings)
    (h : host.envValue ConfKey.profilingLogfile.envVar = none) : envSetProfilingLogfile host s = .done s := by
  rw [show ConfKey.profilingLogfile.envVar = "DROPLETFS_PROFILING_LOGFILE".toList from rfl] at h
  rw [envSetProfilingLogfile, h]

/-- With it the string of the logfile is written. -/
theorem envSetProfilingLogfile_some {host : Host} (s : Settings) {value : CStr}
    (h : host.envValue ConfKey.profilingLogfile.envVar = some value) :
    envSetProfilingLogfile host s =
      s.profilingLogfile.assign value >>= fun logfile => .done { s with profilingLogfile := logfile } := by
  rw [show ConfKey.profilingLogfile.envVar = "DROPLETFS_PROFILING_LOGFILE".toList from rfl] at h
  rw [envSetProfilingLogfile, h]

/-- The environment overrides the settings, except for the cache directory, unless it names a log
file for the profiler in the place of a literal. -/
theorem envOverrideConf_overridden (host : Host) {s : Settings} (hunset : s.regex.set = false) :
    (envOverrideConf host s = .undefined ∧
      (host.envValue ConfKey.profilingLogfile.envVar).isSome = true) ∨
    ∃ s', envOverrideConf host s = .done s' ∧ Overridden host s s' ∧
      (s.profilingLogfile.isLiteral = true → host.envValue ConfKey.profilingLogfile.envVar = none) := by
  obtain ⟨s₁, heq, hover, hlogfile⟩ := envOverrideConf_eq host hunset
  rw [heq]
  cases hvariable : host.envValue ConfKey.profilingLogfile.envVar with
  | none => exact .inr ⟨s₁, envSetProfilingLogfile_none s₁ hvariable, hover, fun _ => rfl⟩
  | some value =>
    rw [envSetProfilingLogfile_some s₁ hvariable]
    cases hliteral : s₁.profilingLogfile.isLiteral with
    | true => exact .inl ⟨by simp only [ConfStr.assign, hliteral, if_true, Exec.undefined_bind], rfl⟩
    | false =>
      refine .inr ⟨{ s₁ with profilingLogfile := .allocated value }, ?_, ?_, fun hwas => ?_⟩
      · simp only [ConfStr.assign, hliteral, Bool.false_eq_true, if_false, Exec.done_bind]
      · exact ⟨hover.compressionMethod, hover.encryptionMethod, hover.number, hover.exclusionPattern, hover.cacheDir⟩
      · rw [← hlogfile, hliteral] at hwas
        cases hwas

/-- A setting with a default is the documented one exactly when its variable is set or the lines
read give what the lines written give. -/
theorem overriding_iff {α : Type} (set reached written : Option α) (default : α) :
    set.getD (reached.getD default) = (set.or written).getD default ↔
      set.isSome = true ∨ reached.getD default = written.getD default := by
  cases set <;> simp

/-- No pattern is applied but the one of the variable. -/
theorem excluding_iff (set written : Option CStr) (regcomp : CStr → Bool) :
    set.filter regcomp = set.or written ↔
      ∀ pattern, set.or written = some pattern → set.isSome = true ∧ regcomp pattern = true := by
  cases set with
  | none => cases written <;> simp
  | some value => cases hcomp : regcomp value <;> simp [Option.filter_some, hcomp]

/-- The settings are the documented ones exactly when the assignments give them. -/
theorem Overridden.precedence_iff {host : Host} {lines : List CStr} {ms : List Assignment} {s s' : Settings}
    (htracks : Tracks host ms s) (h : Overridden host s s') :
    Precedence host lines s' ↔ Gives host lines ms := by
  have hnumber : ∀ n, s'.number n = ((chosen host lines (.number n)).map strtoulInt).getD n.factory ↔
      (host.envValue (ConfKey.number n).envVar).isSome = true ∨
        ((valuesOf (.number n) ms).getLast?.map strtoulInt).getD n.factory =
          ((lastNonEmpty (valuesOf (.number n) (writtenAssignments (textLines lines)))).map strtoulInt).getD
            n.factory := by
    intro n
    rw [h.number, htracks.number, chosen, Option.map_or, overriding_iff, Option.isSome_map]
  have hdir : s'.cacheDir = directoryAfter host (directories ms) := by rw [h.cacheDir, htracks.cacheDir]
  constructor
  · intro hp
    have hcompression := hp.compressionMethod
    have hencryption := hp.encryptionMethod
    have hexclusion := hp.exclusionPattern
    rw [h.compressionMethod, htracks.compressionMethod] at hcompression
    rw [h.encryptionMethod, htracks.encryptionMethod] at hencryption
    rw [h.exclusionPattern] at hexclusion
    exact ⟨(overriding_iff _ _ _ _).mp hcompression, (overriding_iff _ _ _ _).mp hencryption,
      fun n hn => (hnumber n).mp (hp.number n hn), (excluding_iff _ _ _).mp hexclusion, hdir ▸ hp.cacheDir⟩
  · intro hg
    refine ⟨?_, ?_, fun n hn => (hnumber n).mpr (hg.number n hn), ?_, hdir ▸ hg.cacheDir⟩
    · rw [h.compressionMethod, htracks.compressionMethod]
      exact (overriding_iff _ _ _ _).mpr hg.compressionMethod
    · rw [h.encryptionMethod, htracks.encryptionMethod]
      exact (overriding_iff _ _ _ _).mpr hg.encryptionMethod
    · rw [h.exclusionPattern]
      exact (excluding_iff _ _ _).mpr hg.exclusionPattern

/-- The settings are built as documented exactly when nothing disturbs the assignments. -/
theorem configured_iff (host : Host) (rootDir : Option CStr) (debug : ℤ) (home : CStr) (lines : List CStr)
    (hhome : host.getenv "HOME".toList = some home)
    (hfile : host.fopen (tmpstrPrintf (slashed home ".dplfsrc".toList)) = some (fileText lines))
    (hlines : ∀ line ∈ lines, '\n' ∉ line ∧ line.length + 1 < tmpstrMax) :
    (∃ s, confCtor host rootDir debug = .done s ∧ Precedence host lines s) ↔
      Undisturbed host rootDir lines := by
  obtain ⟨hdefault, dir, hdir, hall⟩ | ⟨s₁, hdefault, hfactory, hroot⟩ := confCtorDefault_factory host rootDir
  · constructor
    · rintro ⟨s, hrun, -⟩
      rw [confCtor, hdefault] at hrun
      cases hrun
    · intro h
      exact absurd (h.rootDir dir hdir) (by rw [hall]; decide)
  obtain ⟨hread, hdead⟩ | ⟨s₂, hread, halive, htracks⟩ := confCtorFile_tracks hfactory hhome hfile hlines
  · constructor
    · rintro ⟨s, hrun, -⟩
      rw [confCtor, hdefault, Exec.done_bind, hread] at hrun
      cases hrun
    · intro h
      exact absurd h.survives (by rw [hdead]; decide)
  obtain ⟨henv, hset⟩ | ⟨s₃, henv, hover, hnone⟩ := envOverrideConf_overridden host htracks.unset
  · constructor
    · rintro ⟨s, hrun, -⟩
      rw [confCtor, hdefault, Exec.done_bind, hread, Exec.done_bind, henv] at hrun
      cases hrun
    · intro h
      rw [h.profilingLogfile] at hset
      cases hset
  have hrun : confCtor host rootDir debug = .done { s₃ with debug := debug } := by
    rw [confCtor, hdefault, Exec.done_bind, hread, Exec.done_bind, henv, Exec.done_bind]
  have hover' : Overridden host s₂ { s₃ with debug := debug } :=
    ⟨hover.compressionMethod, hover.encryptionMethod, hover.number, hover.exclusionPattern, hover.cacheDir⟩
  have hgives : Precedence host lines { s₃ with debug := debug } ↔ _ := hover'.precedence_iff htracks
  constructor
  · rintro ⟨s, hrun', hprecedence⟩
    rw [hrun] at hrun'
    cases hrun'
    exact ⟨hroot, halive, hnone htracks.logfile, hgives.mp hprecedence⟩
  · intro h
    exact ⟨_, hrun, hgives.mpr h.gives⟩

/-- A host whose home directory holds a configuration file of these lines, with these variables. -/
def Host.atHome (vars : List (String × String)) (lines : List CStr) : Host where
  getenv id := (("HOME", "/h") :: vars).findSome? fun (name, value) =>
    if name.toList = id then some value.toList else none
  fopen path := if path = "/h/.dplfsrc".toList then some (fileText lines) else none
  mkdir _ := true
  regcomp _ := true
  curBucket := "b".toList

/-- A file sets the compression level and the cache directory, and the environment the rest. -/
theorem configured_at_home :
    ∃ s, confCtor (Host.atHome [("DROPLETFS_EXCLUSION_PATTERN", "tmp$")]
        ["zlib_level = 6".toList, "cache_dir = /data".toList]) (some "/mnt".toList) 0 = .done s ∧
      Precedence (Host.atHome [("DROPLETFS_EXCLUSION_PATTERN", "tmp$")]
        ["zlib_level = 6".toList, "cache_dir = /data".toList])
        ["zlib_level = 6".toList, "cache_dir = /data".toList] s :=
  (configured_iff (Host.atHome [("DROPLETFS_EXCLUSION_PATTERN", "tmp$")]
      ["zlib_level = 6".toList, "cache_dir = /data".toList]) (some "/mnt".toList) 0
    "/h".toList ["zlib_level = 6".toList, "cache_dir = /data".toList]
    (by decide +kernel) (by decide +kernel) (by decide +kernel)).mpr
    { rootDir := fun dir hdir => by
        obtain rfl := Option.some.inj hdir
        decide
      survives := by decide +kernel
      profilingLogfile := by decide +kernel
      gives :=
        { compressionMethod := by decide +kernel
          encryptionMethod := by decide +kernel
          number := by decide +kernel
          exclusionPattern := fun pattern _ => ⟨by decide +kernel, rfl⟩
          cacheDir := by decide +kernel } }

/-- The variable that the documentation names for the cache directory is never read. -/
theorem cacheDir_variable_ignored :
    (Host.atHome [("DROPLETFS_CACHE_DIR", "/data")] []).getenv "HOME".toList = some "/h".toList ∧
    (Host.atHome [("DROPLETFS_CACHE_DIR", "/data")] []).fopen "/h/.dplfsrc".toList = some (fileText []) ∧
    ∃ s, confCtor (Host.atHome [("DROPLETFS_CACHE_DIR", "/data")] []) none 0 = .done s ∧
      s.cacheDir = "/tmp/b".toList ∧
      ¬ Precedence (Host.atHome [("DROPLETFS_CACHE_DIR", "/data")] []) [] s := by
  refine ⟨by decide +kernel, by decide +kernel, _, rfl, rfl, fun h => ?_⟩
  exact absurd h.cacheDir (by decide +kernel)

end Dropletfs
