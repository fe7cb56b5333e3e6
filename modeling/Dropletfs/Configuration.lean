import Dropletfs.Entry
import Dropletfs.Library.Exec
import Mathlib.Data.List.DropRight

/-!
# The configuration

The settings are built once, before the file system is mounted: the defaults first, then the
lines of the file `.dplfsrc` in the home directory, then the environment variables. A line of
the file is compared with every key in turn. The line sits in one string of the per-thread
ring, and each `cache_dir` line takes another string of the ring while it is being read.
-/

namespace Dropletfs

/-- The settings kept in an integer. -/
inductive ConfNumber where
  | zlibLevel
  | maxRetry
  | gcLoopDelay
  | gcAgeThreshold
  | scLoopDelay
  | scAgeThreshold
  | cacheMaxSize
  | profiling
  deriving DecidableEq, Repr

/-- The keys `parse_token` compares a line with. -/
inductive ConfKey where
  | compressionMethod
  | number (n : ConfNumber)
  | cacheDir
  | exclusionPattern
  | encryptionMethod
  | logLevel
  | profilingLogfile
  deriving DecidableEq, Repr

/-- The name of an integer setting in the file. -/
def ConfNumber.name : ConfNumber → CStr
  | .zlibLevel => "zlib_level".toList
  | .maxRetry => "max_retry".toList
  | .gcLoopDelay => "gc_loop_delay".toList
  | .gcAgeThreshold => "gc_age_threshold".toList
  | .scLoopDelay => "sc_loop_delay".toList
  | .scAgeThreshold => "sc_age_threshold".toList
  | .cacheMaxSize => "cache_max_size".toList
  | .profiling => "profiling".toList

/-- The name of a setting in the file. -/
def ConfKey.name : ConfKey → CStr
  | .compressionMethod => "compression_method".toList
  | .number n => n.name
  | .cacheDir => "cache_dir".toList
  | .exclusionPattern => "exclusion_pattern".toList
  | .encryptionMethod => "encryption_method".toList
  | .logLevel => "log_level".toList
  | .profilingLogfile => "profiling_logfile".toList

/-- `! strncasecmp(token, KEY, KEY_LEN)`. -/
def ConfKey.names (key : ConfKey) (token : CStr) : Bool := strncasecmpEq key.name token

/-- The keys that `parse_token` compares before `cache_dir`, in its order. -/
def earlyKeys : List ConfKey :=
  [.compressionMethod, .number .zlibLevel, .number .maxRetry, .number .gcLoopDelay,
    .number .gcAgeThreshold, .number .scLoopDelay, .number .scAgeThreshold]

/-- The keys that `parse_token` compares after `cache_dir`, in its order. -/
def lateKeys : List ConfKey :=
  [.exclusionPattern, .encryptionMethod, .number .cacheMaxSize, .logLevel, .number .profiling,
    .profilingLogfile]

/-- All the keys, in the order of `parse_token`. -/
def confKeys : List ConfKey := earlyKeys ++ .cacheDir :: lateKeys

/-- The default of an integer setting. -/
def ConfNumber.factory : ConfNumber → ℤ
  | .zlibLevel => 3
  | .maxRetry => 5
  | .gcLoopDelay => 60
  | .gcAgeThreshold => 900
  | .scLoopDelay => 0
  | .scAgeThreshold => 0
  | .cacheMaxSize => 10 * 1024 * 1024
  | .profiling => 0

/-- `DEFAULT_CACHE_DIR`. -/
def defaultCacheDir : CStr := "/tmp".toList

/-- `DEFAULT_COMPRESSION_METHOD`. -/
def defaultCompressionMethod : CStr := "NONE".toList

/-- `DEFAULT_ENCRYPTION_METHOD`. -/
def defaultEncryptionMethod : CStr := "NONE".toList

/-- `DEFAULT_LOG_LEVEL`, which is `LOG_ERR`. -/
def defaultLogLevel : ℤ := 3

/-- `str_to_log_level`. -/
def strToLogLevel (str : CStr) : ℤ :=
  if str = "LOG_EMERG".toList then 0
  else if str = "LOG_ALERT".toList then 1
  else if str = "LOG_CRIT".toList then 2
  else if str = "LOG_ERR".toList then 3
  else if str = "LOG_WARNING".toList then 4
  else if str = "LOG_NOTICE".toList then 5
  else if str = "LOG_INFO".toList then 6
  else if str = "LOG_DEBUG".toList then 7
  else defaultLogLevel

/-- `struct re`, with the pattern that was compiled into `rx`. -/
structure ConfRegex where
  str : Option CStr
  rx : Option CStr
  set : Bool
  deriving DecidableEq, Repr

/-- A string of the configuration, by where it lives: nowhere yet, in the program itself, or in the heap. -/
inductive ConfStr where
  | unset
  | literal (text : CStr)
  | allocated (text : CStr)
  deriving DecidableEq, Repr

/-- The string is one of the program itself. -/
def ConfStr.isLiteral : ConfStr → Bool
  | .literal _ => true
  | _ => false

/-- `free` what there is, if anything, and put a copy of the value in its place. -/
def ConfStr.assign (old : ConfStr) (value : CStr) : Exec ConfStr :=
  -- `free` of a string literal
  if old.isLiteral then .undefined else .done (.allocated value)

/-- `struct conf`. All its strings are allocated but the log file of the profiler, which is a literal when the
constructor is through with the defaults. -/
structure Settings where
  rootDir : Option CStr
  cacheDir : CStr
  compressionMethod : CStr
  number : ConfNumber → ℤ
  logLevel : ℤ
  regex : ConfRegex
  encryptionMethod : CStr
  debug : ℤ
  profilingLogfile : ConfStr

/-- What the configuration is built from: the environment, the files, the replies of the calls
to `mkdir` in their order (`EEXIST` is as good as success), the patterns that `regcomp`
accepts, and the bucket. -/
structure Host where
  getenv : CStr → Option CStr
  fopen : CStr → Option CStr
  mkdir : ℕ → Bool
  regcomp : CStr → Bool
  curBucket : CStr

/-- `re_ctor` with the flags of the program. -/
def reCtor (host : Host) (re : ConfRegex) (pattern : Option CStr) : ConfRegex :=
  let re := { re with set := false }
  match pattern with
  | none => re
  | some pattern =>
    if pattern = [] then re
    else if host.regcomp pattern then ⟨some pattern, some pattern, true⟩
    else re

/-- `re_dtor`. -/
def reDtor (re : ConfRegex) : ConfRegex := { re with str := none, rx := none }

/-- The pattern that `re_matcher` applies. -/
def ConfRegex.applied (re : ConfRegex) : Option CStr := if re.set then re.rx else none

/-- Replace the trailing slashes by NUL. The loop leaves the string when there is nothing else
in it. -/
def removeTrailingSlashes (s : CStr) : Exec CStr :=
  if s.all (· = '/') then .undefined else .done (s.rdropWhile (· = '/'))

/-- `conf_set_root_dir`. -/
def confSetRootDir (s : Settings) (rootDir : Option CStr) : Exec Settings :=
  match rootDir with
  | none => .done s
  | some dir => removeTrailingSlashes dir >>= fun dir => .done { s with rootDir := some dir }

/-- `conf_set_full_cache_dir`, whose call of `mkdir` has the given number. -/
def confSetFullCacheDir (host : Host) (call : ℕ) (s : Settings) : Exec (Settings × Bool) :=
  let cache := tmpstrPrintf (slashed s.cacheDir host.curBucket)
  if host.mkdir call then
    removeTrailingSlashes cache >>= fun dir => .done ({ s with cacheDir := dir }, true)
  else .done ({ s with cacheDir := cache }, false)

/-- What `parse_int` and `parse_str` find behind the `=` of a line. -/
def assigned (token : CStr) : Option CStr :=
  match token.dropWhile (· != '=') with
  | [] => none
  | _ :: value => some (value.dropWhile isSpace)

/-- `strtoul` converted to `int`. -/
def strtoulInt (value : CStr) : ℤ := Int.bmod (strtoull value) (2 ^ 32)

/-- `parse_str` keeps what it had when the value is empty. -/
def storeStr (value old : CStr) : CStr := if value = [] then old else value

/-- The settings, what is left of the line from the key on, how many spaces came before it, and
how many strings of the ring were taken since the one that holds the line. -/
structure ConfParser where
  settings : Settings
  token : CStr
  skipped : ℕ
  taken : ℕ

/-- What the line reads as from the key on, once the string that holds it has been formatted
over with another text. -/
def formattedOver (cache : CStr) (skipped : ℕ) (token : CStr) : CStr :=
  if skipped ≤ cache.length then cache.drop skipped else token

/-- The value of a line goes to the setting of its key. The result tells whether the parser
goes on. -/
def assignKey (host : Host) (key : ConfKey) (value : CStr) (p : ConfParser) : Exec (ConfParser × Bool) :=
  let s := p.settings
  match key with
  | .compressionMethod =>
    .done ({ p with settings := { s with compressionMethod := storeStr value s.compressionMethod } }, true)
  | .number n =>
    .done ({ p with settings := { s with number := Function.update s.number n (strtoulInt value) } }, true)
  | .cacheDir =>
    let s := { s with cacheDir := storeStr value s.cacheDir }
    let taken := p.taken + 1
    let token :=
      -- after a full round the ring hands out the string that holds the line
      if taken % tmpstrNb = 0 then
        formattedOver (tmpstrPrintf (slashed s.cacheDir host.curBucket)) p.skipped p.token
      else p.token
    confSetFullCacheDir host taken s >>= fun (s, made) =>
      .done ({ p with settings := s, token := token, taken := taken }, made)
  | .exclusionPattern =>
    let str := if value = [] then s.regex.str else some value
    .done ({ p with settings := { s with regex := { s.regex with str := str } } }, true)
  | .encryptionMethod =>
    .done ({ p with settings := { s with encryptionMethod := storeStr value s.encryptionMethod } }, true)
  | .logLevel =>
    -- `strcmp` on a null pointer
    if value = [] then .undefined
    else
      let level := strToLogLevel value
      let level := if level > 7 ∨ level < 0 then defaultLogLevel else level
      .done ({ p with settings := { s with logLevel := level } }, true)
  | .profilingLogfile =>
    if value = [] then .done (p, true)
    else
      s.profilingLogfile.assign value >>= fun logfile =>
        .done ({ p with settings := { s with profilingLogfile := logfile } }, true)

/-- One comparison of `parse_token`, with what it leads to. -/
def parseKey (host : Host) (key : ConfKey) (p : ConfParser) : Exec (ConfParser × Bool) :=
  if key.names p.token then
    match assigned p.token with
    | none => .done (p, false)
    | some value => assignKey host key value p
  else .done (p, true)

/-- Compare the line with these keys, until one of them fails. -/
def parseKeys (host : Host) : List ConfKey → ConfParser → Exec (ConfParser × Bool)
  | [], p => .done (p, true)
  | key :: keys, p => parseKey host key p >>= fun (p, ok) =>
    if ok then parseKeys host keys p else .done (p, false)

/-- `parse_token`. -/
def parseToken (host : Host) (p : ConfParser) : Exec (ConfParser × Bool) := parseKeys host confKeys p

/-- `parse_line`. -/
def parseLine (host : Host) (line : CStr) (p : ConfParser) : Exec (ConfParser × Bool) :=
  if line = [] then .done (p, true)
  else
    let token := line.dropWhile isSpace
    if token.head? = some '#' then .done (p, true)
    else parseToken host { p with token := token, skipped := line.length - token.length }

/-- A character goes in front of the first string. -/
def extendFirst (c : Char) : List CStr → List CStr
  | [] => [[c]]
  | line :: lines => (c :: line) :: lines

/-- The strings that successive calls of `fgets` read, the first of at most `left` characters
and the others of at most `most`. -/
def fgetsAll (most : ℕ) : ℕ → CStr → List CStr
  | _, [] => []
  | left, c :: rest =>
    if c = '\n' ∨ left ≤ 1 then [c] :: fgetsAll most most rest
    else extendFirst c (fgetsAll most (left - 1) rest)

/-- The loop of `parse_file`, which replaces the last character of each string by NUL. -/
def parseStrings (host : Host) : List CStr → ConfParser → Exec (ConfParser × Bool)
  | [], p => .done (p, true)
  | buf :: bufs, p => parseLine host buf.dropLast p >>= fun (p, ok) =>
    if ok then parseStrings host bufs p else .done (p, false)

/-- The strings that the loop of `parse_file` finds in its buffer, for a file of any bytes. -/
def readStrings (content : List Char) : List CStr :=
  (fgetsAll (tmpstrMax - 1) (tmpstrMax - 1) content).map cString

/-- `parse_file` on a file of any bytes. -/
def parseContent (host : Host) (content : List Char) (s : Settings) : Exec (Settings × Bool) :=
  parseStrings host (readStrings content) ⟨s, [], 0, 0⟩ >>= fun (p, ok) => .done (p.settings, ok)

/-- `parse_file`. Without a file the settings stay as they are. -/
def parseFile (host : Host) (path : CStr) (s : Settings) : Exec (Settings × Bool) :=
  match host.fopen path with
  | none => .done (s, true)
  | some content => parseContent host content s

/-- The factory settings, in a structure that was filled with zeros. -/
def Settings.factory (host : Host) : Settings where
  rootDir := none
  cacheDir := defaultCacheDir
  compressionMethod := defaultCompressionMethod
  number := ConfNumber.factory
  logLevel := defaultLogLevel
  regex := reCtor host ⟨none, none, false⟩ none
  encryptionMethod := defaultEncryptionMethod
  debug := 0
  profilingLogfile := .literal "/tmp/dplfs_trace.log".toList

/-- `conf_ctor_default`. -/
def confCtorDefault (host : Host) (rootDir : Option CStr) : Exec Settings :=
  confSetRootDir (Settings.factory host) rootDir

/-- A variable of the environment, when it is set and not empty. -/
def Host.envValue (host : Host) (id : CStr) : Option CStr := (host.getenv id).filter (· ≠ [])

/-- `env_generic_set_int`. -/
def envGenericSetInt (host : Host) (n : ConfNumber) (id : CStr) (s : Settings) : Settings :=
  match host.envValue id with
  | none => s
  | some value => { s with number := Function.update s.number n (strtoulInt value) }

/-- `env_generic_set_str`: the new value of the field. -/
def envGenericSetStr (host : Host) (id old : CStr) : CStr := (host.envValue id).getD old

/-- `env_set_gc_loop_delay`. -/
def envSetGcLoopDelay (host : Host) : Settings → Settings :=
  envGenericSetInt host .gcLoopDelay "DROPLETFS_GC_LOOP_DELAY".toList

/-- `env_set_gc_age_threshold`. -/
def envSetGcAgeThreshold (host : Host) : Settings → Settings :=
  envGenericSetInt host .gcAgeThreshold "DROPLETFS_GC_AGE_THRESHOLD".toList

/-- `env_set_sc_loop_delay`. -/
def envSetScLoopDelay (host : Host) : Settings → Settings :=
  envGenericSetInt host .scLoopDelay "DROPLETFS_SC_LOOP_DELAY".toList

/-- `env_set_sc_age_threshold`. -/
def envSetScAgeThreshold (host : Host) : Settings → Settings :=
  envGenericSetInt host .scAgeThreshold "DROPLETFS_SC_AGE_THRESHOLD".toList

/-- `env_set_compression_method`. -/
def envSetCompressionMethod (host : Host) (s : Settings) : Settings :=
  { s with
    compressionMethod := envGenericSetStr host "DROPLETFS_COMPRESSION_METHOD".toList s.compressionMethod }

/-- `env_set_compression_level`. -/
def envSetCompressionLevel (host : Host) : Settings → Settings :=
  envGenericSetInt host .zlibLevel "DROPLETFS_ZLIB_LEVEL".toList

/-- `env_set_max_retry`. -/
def envSetMaxRetry (host : Host) : Settings → Settings :=
  envGenericSetInt host .maxRetry "DROPLETFS_MAX_RETRY".toList

/-- `env_set_cache_max_size`. -/
def envSetCacheMaxSize (host : Host) : Settings → Settings :=
  envGenericSetInt host .cacheMaxSize "DROPLETFS_CACHE_MAX_SIZE".toList

/-- `env_set_profiling`. -/
def envSetProfiling (host : Host) : Settings → Settings :=
  envGenericSetInt host .profiling "DROPLETFS_PROFILING".toList

/-- `env_set_profiling_logfile`, which frees what it finds in the field. -/
def envSetProfilingLogfile (host : Host) (s : Settings) : Exec Settings :=
  match host.envValue "DROPLETFS_PROFILING_LOGFILE".toList with
  | none => .done s
  | some value =>
    s.profilingLogfile.assign value >>= fun logfile => .done { s with profilingLogfile := logfile }

/-- `env_set_log_level`. -/
def envSetLogLevel (host : Host) (s : Settings) : Settings :=
  match host.envValue "DROPLETFS_LOG_LEVEL".toList with
  | none => s
  | some value => { s with logLevel := strToLogLevel value }

/-- `env_set_exclusion_pattern`, which also takes a variable that is set to nothing. -/
def envSetExclusionPattern (host : Host) (s : Settings) : Settings :=
  match host.getenv "DROPLETFS_EXCLUSION_PATTERN".toList with
  | none => s
  | some value => { s with regex := reCtor host (reDtor s.regex) (some value) }

/-- `env_set_encryption_method`. -/
def envSetEncryptionMethod (host : Host) (s : Settings) : Settings :=
  { s with
    encryptionMethod := envGenericSetStr host "DROPLETFS_ENCRYPTION_METHOD".toList s.encryptionMethod }

/-- `env_override_conf`. -/
def envOverrideConf (host : Host) (s : Settings) : Exec Settings :=
  let s := envSetCompressionMethod host s
  let s := envSetCompressionLevel host s
  let s := envSetMaxRetry host s
  let s := envSetGcLoopDelay host s
  let s := envSetGcAgeThreshold host s
  let s := envSetScLoopDelay host s
  let s := envSetScAgeThreshold host s
  let s := envSetExclusionPattern host s
  let s := envSetCacheMaxSize host s
  let s := envSetLogLevel host s
  let s := envSetEncryptionMethod host s
  let s := envSetProfiling host s
  envSetProfilingLogfile host s

/-- The file part of `conf_ctor`: the bucket is added to the default directory first, and no
failure after that keeps the settings from being used. -/
def confCtorFile (host : Host) (s : Settings) : Exec Settings :=
  match host.getenv "HOME".toList with
  | none => .done s
  | some home =>
    let path := tmpstrPrintf (slashed home ".dplfsrc".toList)
    confSetFullCacheDir host 0 s >>= fun (s, made) =>
      if made then parseFile host path s >>= fun (s, _) => .done s else .done s

/-- `conf_ctor`. -/
def confCtor (host : Host) (rootDir : Option CStr) (debug : ℤ) : Exec Settings :=
  confCtorDefault host rootDir >>= fun s =>
  confCtorFile host s >>= fun s =>
  envOverrideConf host s >>= fun s => .done { s with debug := debug }

/-- The settings that the file operations read, with the program's regular expressions. -/
def Settings.conf (s : Settings) (regexec : CStr → CStr → Bool) : Conf where
  cacheDir := s.cacheDir
  compressionMethod := s.compressionMethod
  zlibLevel := s.number .zlibLevel
  maxRetry := s.number .maxRetry
  gcAgeThreshold := s.number .gcAgeThreshold
  regex := ⟨s.regex.set, fun path => s.regex.rx.any fun pattern => regexec pattern path⟩
  encryptionMethod := s.encryptionMethod

end Dropletfs
