import Dropletfs.Configuration

/-!
# The assignments the parser comes to

The parser is followed through the file by the list of the assignments it comes to. That list
is a function of the lines: the parser stops at a line that names a key without assigning to
it, and at a cache directory that cannot be made. The settings are those that the list gives.
-/

namespace Dropletfs

/-- A key of the file with the value that a line gives it. -/
abbrev Assignment := ConfKey × CStr

/-- The part of a line that is compared with the keys: nothing when the line is a comment. -/
def lineToken (line : CStr) : CStr :=
  let token := line.dropWhile isSpace
  if token.head? = some '#' then [] else token

/-- The assignments to some of the keys that a text makes. -/
def assignmentsOf (keys : List ConfKey) (token : CStr) : List Assignment :=
  match assigned token with
  | none => []
  | some value => (keys.filter (·.names token)).map (·, value)

/-- The assignments that the lines of a file contain. -/
def writtenAssignments (lines : List CStr) : List Assignment :=
  lines.flatMap fun line => assignmentsOf confKeys (lineToken line)

/-- The values given to one key, in order. -/
def valuesOf (key : ConfKey) (ms : List Assignment) : List CStr :=
  (ms.filter fun m => decide (m.1 = key)).map Prod.snd

/-- The last of some values that is not empty. -/
def lastNonEmpty (values : List CStr) : Option CStr := (values.filter (· ≠ [])).getLast?

/-- The text of a file made of these lines. -/
def fileText (lines : List CStr) : CStr := lines.flatMap (· ++ ['\n'])

/-- The name that `conf_set_full_cache_dir` formats after these values of `cache_dir`, the latest
first: an empty one counts as the directory there was. -/
def directoryText (host : Host) : List CStr → CStr
  | [] => tmpstrPrintf (slashed defaultCacheDir host.curBucket)
  | value :: older =>
    let dir := storeStr value ((directoryText host older).rdropWhile (· = '/'))
    tmpstrPrintf (slashed dir host.curBucket)

/-- The cache directory after these values, the latest first. -/
def directoryAfter (host : Host) (latest : List CStr) : CStr :=
  if host.mkdir latest.length then (directoryText host latest).rdropWhile (· = '/')
  else directoryText host latest

/-- The values given to the cache directory, the latest first. -/
def directories (ms : List Assignment) : List CStr := (valuesOf .cacheDir ms).reverse

/-- The line names a key and has no `=`. -/
def stops (keys : List ConfKey) (token : CStr) : Bool :=
  (assigned token).isNone && keys.any (·.names token)

/-- The line behind the assignment that made the latest of these values of `cache_dir`. -/
def remainingToken (host : Host) (dirs : List CStr) (token : CStr) (skipped : ℕ) : CStr :=
  if dirs.length % tmpstrNb = 0 then formattedOver (directoryText host dirs) skipped token else token

/-- The assignments made by one line after these values of `cache_dir`, and whether the parser
goes on behind it. -/
def reachedLine (host : Host) (dirs : List CStr) (token : CStr) (skipped : ℕ) : List Assignment × Bool :=
  if stops confKeys token then ([], false)
  else
    match (assigned token).filter fun _ => ConfKey.cacheDir.names token with
    | none => (assignmentsOf confKeys token, true)
    | some value =>
      let head := assignmentsOf earlyKeys token ++ [(.cacheDir, value)]
      let dirs := value :: dirs
      let rest := remainingToken host dirs token skipped
      if host.mkdir dirs.length = false ∨ stops lateKeys rest = true then (head, false)
      else (head ++ assignmentsOf lateKeys rest, true)

/-- The assignments that the parser comes to in these lines. -/
def reachedLines (host : Host) : List CStr → List CStr → List Assignment
  | _, [] => []
  | dirs, line :: lines =>
    match reachedLine host dirs (lineToken line) (line.length - (lineToken line).length) with
    | (ms, true) => ms ++ reachedLines host (directories ms ++ dirs) lines
    | (ms, false) => ms

/-- The assignments that the parser comes to in a file: none when the default directory could
not be made. -/
def reachedAssignments (host : Host) (lines : List CStr) : List Assignment :=
  if host.mkdir 0 then reachedLines host [] lines else []

/-- An assignment that comes after these ones does not leave the defined part of the language. -/
def harmless (host : Host) (older : List Assignment) : Assignment → Bool
  | (.logLevel, value) => value ≠ []
  | (.profilingLogfile, value) => value = []
  | (.cacheDir, value) =>
    let dirs := value :: directories older
    !(host.mkdir dirs.length && (directoryText host dirs).all (· = '/'))
  | _ => true

/-- None of the assignments does, coming after these ones. -/
def survives (host : Host) : List Assignment → List Assignment → Bool
  | _, [] => true
  | older, m :: ms => harmless host older m && survives host (older ++ [m]) ms

/-- A further assignment adds its value to those of its key. -/
theorem valuesOf_append (key : ConfKey) (ms ms' : List Assignment) :
    valuesOf key (ms ++ ms') = valuesOf key ms ++ valuesOf key ms' := by
  rw [valuesOf, List.filter_append, List.map_append]
  rfl

/-- One assignment gives a value to its own key only. -/
theorem valuesOf_single (key key' : ConfKey) (value : CStr) :
    valuesOf key [(key', value)] = if key' = key then [value] else [] := by
  by_cases hkey : key' = key <;> simp [valuesOf, hkey]

/-- The values given to the cache directory are those before, behind the later ones. -/
theorem directories_append (ms ms' : List Assignment) :
    directories (ms ++ ms') = directories ms' ++ directories ms := by
  rw [directories, valuesOf_append, List.reverse_append]
  rfl

/-- A further value is the last one unless it is empty. -/
theorem lastNonEmpty_append (values : List CStr) (value default : CStr) :
    (lastNonEmpty (values ++ [value])).getD default =
      storeStr value ((lastNonEmpty values).getD default) := by
  by_cases hvalue : value = [] <;> simp [lastNonEmpty, storeStr, hvalue, List.filter_append]

/-- Assignments are harmless together when the first ones are, and the others after them. -/
theorem survives_append (host : Host) (older ms ms' : List Assignment) :
    survives host older (ms ++ ms') = (survives host older ms && survives host (older ++ ms) ms') := by
  induction ms generalizing older with
  | nil => simp [survives]
  | cons m ms ih => simp [survives, ih, Bool.and_assoc]

/-- The settings are those that the assignments so far give. -/
structure Tracks (host : Host) (ms : List Assignment) (s : Settings) : Prop where
  compressionMethod : s.compressionMethod =
    (lastNonEmpty (valuesOf .compressionMethod ms)).getD defaultCompressionMethod
  encryptionMethod : s.encryptionMethod =
    (lastNonEmpty (valuesOf .encryptionMethod ms)).getD defaultEncryptionMethod
  number : ∀ n, s.number n = ((valuesOf (.number n) ms).getLast?.map strtoulInt).getD n.factory
  cacheDir : s.cacheDir = directoryAfter host (directories ms)
  unset : s.regex.set = false
  logfile : s.profilingLogfile.isLiteral = true

/-- The outcome of a call of the parser after these assignments: either one of them leaves the
defined part of the language, or the settings are those that they give. -/
def Parsed (host : Host) (ms : List Assignment) (goal : ConfParser → Bool → Prop) :
    Exec (ConfParser × Bool) → Prop
  | .done (p, ok) => Tracks host ms p.settings ∧ p.taken = (directories ms).length ∧
    survives host [] ms = true ∧ goal p ok
  | .undefined => survives host [] ms = false
  | .blocked => False

/-- Calls of the parser are followed one after the other. -/
theorem Parsed.bind {host : Host} {ms ms' : List Assignment} {goal goal' : ConfParser → Bool → Prop}
    {call : Exec (ConfParser × Bool)} {next : ConfParser × Bool → Exec (ConfParser × Bool)}
    (hcall : Parsed host ms goal call)
    (hnext : ∀ p ok, Tracks host ms p.settings → p.taken = (directories ms).length →
      survives host [] ms = true → goal p ok → Parsed host (ms ++ ms') goal' (next (p, ok))) :
    Parsed host (ms ++ ms') goal' (call >>= next) := by
  cases call with
  | done r =>
    obtain ⟨p, ok⟩ := r
    obtain ⟨htracks, htaken, hsurvives, hgoal⟩ := hcall
    exact hnext p ok htracks htaken hsurvives hgoal
  | blocked => exact hcall.elim
  | undefined =>
    have hdead : survives host [] ms = false := hcall
    show survives host [] (ms ++ ms') = false
    rw [survives_append, hdead]
    rfl

/-- What is known of the outcome can be weakened. -/
theorem Parsed.imp {host : Host} {ms : List Assignment} {goal goal' : ConfParser → Bool → Prop}
    {call : Exec (ConfParser × Bool)} (hcall : Parsed host ms goal call)
    (himp : ∀ p ok, p.taken = (directories ms).length → goal p ok → goal' p ok) :
    Parsed host ms goal' call := by
  cases call with
  | done r =>
    obtain ⟨p, ok⟩ := r
    obtain ⟨htracks, htaken, hsurvives, hgoal⟩ := hcall
    exact ⟨htracks, htaken, hsurvives, himp p ok htaken hgoal⟩
  | blocked => exact hcall.elim
  | undefined => exact hcall

/-- An assignment to a key other than the cache directory leaves the cache directories. -/
theorem directories_other (ms : List Assignment) {key : ConfKey} (hkey : key ≠ .cacheDir) (value : CStr) :
    directories (ms ++ [(key, value)]) = directories ms := by
  rw [directories_append, directories, valuesOf_single, if_neg hkey]
  rfl

/-- An assignment to the cache directory is the latest one. -/
theorem directories_cacheDir (ms : List Assignment) (value : CStr) :
    directories (ms ++ [(.cacheDir, value)]) = value :: directories ms := by
  rw [directories_append, directories, valuesOf_single, if_pos rfl]
  rfl

/-- An assignment to another key leaves the values of a key. -/
theorem valuesOf_other (ms : List Assignment) {key key' : ConfKey} (hkey : key' ≠ key) (value : CStr) :
    valuesOf key (ms ++ [(key', value)]) = valuesOf key ms := by
  rw [valuesOf_append, valuesOf_single, if_neg hkey, List.append_nil]

/-- An assignment to a key adds to its values. -/
theorem valuesOf_self (ms : List Assignment) (key : ConfKey) (value : CStr) :
    valuesOf key (ms ++ [(key, value)]) = valuesOf key ms ++ [value] := by
  rw [valuesOf_append, valuesOf_single, if_pos rfl]

/-- The compression method follows its assignments. -/
theorem Tracks.assignCompressionMethod {host : Host} {ms : List Assignment} {s : Settings}
    (h : Tracks host ms s) (value : CStr) :
    Tracks host (ms ++ [(.compressionMethod, value)])
      { s with compressionMethod := storeStr value s.compressionMethod } where
  compressionMethod := by rw [valuesOf_self, lastNonEmpty_append, ← h.compressionMethod]
  encryptionMethod := by rw [valuesOf_other ms (by decide), ← h.encryptionMethod]
  number n := by rw [valuesOf_other ms (by simp), ← h.number]
  cacheDir := by rw [directories_other ms (by decide), ← h.cacheDir]
  unset := h.unset
  logfile := h.logfile

/-- The encryption method follows its assignments. -/
theorem Tracks.assignEncryptionMethod {host : Host} {ms : List Assignment} {s : Settings}
    (h : Tracks host ms s) (value : CStr) :
    Tracks host (ms ++ [(.encryptionMethod, value)])
      { s with encryptionMethod := storeStr value s.encryptionMethod } where
  compressionMethod := by rw [valuesOf_other ms (by decide), ← h.compressionMethod]
  encryptionMethod := by rw [valuesOf_self, lastNonEmpty_append, ← h.encryptionMethod]
  number n := by rw [valuesOf_other ms (by simp), ← h.number]
  cacheDir := by rw [directories_other ms (by decide), ← h.cacheDir]
  unset := h.unset
  logfile := h.logfile

/-- An integer setting takes every value it is assigned, the empty one too. -/
theorem Tracks.assignNumber {host : Host} {ms : List Assignment} {s : Settings}
    (h : Tracks host ms s) (n : ConfNumber) (value : CStr) :
    Tracks host (ms ++ [(.number n, value)])
      { s with number := Function.update s.number n (strtoulInt value) } where
  compressionMethod := by rw [valuesOf_other ms (by simp), ← h.compressionMethod]
  encryptionMethod := by rw [valuesOf_other ms (by simp), ← h.encryptionMethod]
  number n' := by
    by_cases hn : n' = n
    · subst n'
      rw [valuesOf_self, List.getLast?_concat, Option.map_some, Option.getD_some]
      exact Function.update_self _ _ _
    · rw [valuesOf_other ms (by simpa using fun h => hn h.symm), ← h.number]
      exact Function.update_of_ne hn _ _
  cacheDir := by rw [directories_other ms (by simp), ← h.cacheDir]
  unset := h.unset
  logfile := h.logfile

/-- The other keys change none of the settings that are followed. -/
theorem Tracks.assignOther {host : Host} {ms : List Assignment} {s s' : Settings} {key : ConfKey}
    (h : Tracks host ms s) (value : CStr)
    (hkey : key = .exclusionPattern ∨ key = .logLevel ∨ key = .profilingLogfile)
    (hcompression : s'.compressionMethod = s.compressionMethod)
    (hencryption : s'.encryptionMethod = s.encryptionMethod) (hnumber : s'.number = s.number)
    (hdir : s'.cacheDir = s.cacheDir) (hset : s'.regex.set = s.regex.set)
    (hlogfile : s'.profilingLogfile = s.profilingLogfile) :
    Tracks host (ms ++ [(key, value)]) s' where
  compressionMethod := by
    rw [hcompression, valuesOf_other ms (by rcases hkey with rfl | rfl | rfl <;> decide), h.compressionMethod]
  encryptionMethod := by
    rw [hencryption, valuesOf_other ms (by rcases hkey with rfl | rfl | rfl <;> decide), h.encryptionMethod]
  number n := by
    rw [hnumber, valuesOf_other ms (by rcases hkey with rfl | rfl | rfl <;> simp), h.number]
  cacheDir := by
    rw [hdir, directories_other ms (by rcases hkey with rfl | rfl | rfl <;> decide), h.cacheDir]
  unset := by rw [hset, h.unset]
  logfile := by rw [hlogfile, h.logfile]

/-- An assignment to a key other than the cache directory lets the parser go on with the same line. -/
theorem assignKey_plain (host : Host) {key : ConfKey} (value : CStr) {p : ConfParser}
    {ms : List Assignment} (hkey : key ≠ .cacheDir) (htracks : Tracks host ms p.settings)
    (htaken : p.taken = (directories ms).length) (hsurvives : survives host [] ms = true) :
    Parsed host (ms ++ [(key, value)])
      (fun p' ok => ok = true ∧ p'.token = p.token ∧ p'.skipped = p.skipped)
      (assignKey host key value p) := by
  have halive : survives host [] (ms ++ [(key, value)]) = harmless host ms (key, value) := by
    simp [survives_append, hsurvives, survives]
  have hcount : p.taken = (directories (ms ++ [(key, value)])).length := by
    rw [directories_other ms hkey, htaken]
  cases key with
  | cacheDir => exact absurd rfl hkey
  | compressionMethod => exact ⟨htracks.assignCompressionMethod value, hcount, halive, rfl, rfl, rfl⟩
  | encryptionMethod => exact ⟨htracks.assignEncryptionMethod value, hcount, halive, rfl, rfl, rfl⟩
  | number n => exact ⟨htracks.assignNumber n value, hcount, halive, rfl, rfl, rfl⟩
  | exclusionPattern =>
    exact ⟨htracks.assignOther value (.inl rfl) rfl rfl rfl rfl rfl rfl, hcount, halive, rfl, rfl, rfl⟩
  | logLevel =>
    by_cases hvalue : value = []
    · simp only [assignKey, if_pos hvalue]
      have hharmless : harmless host ms (.logLevel, value) = false := by simp [harmless, hvalue]
      exact halive.trans hharmless
    · simp only [assignKey, if_neg hvalue]
      have hharmless : harmless host ms (.logLevel, value) = true := by simp [harmless, hvalue]
      exact ⟨htracks.assignOther value (.inr (.inl rfl)) rfl rfl rfl rfl rfl rfl, hcount,
        halive.trans hharmless, rfl, rfl, rfl⟩
  | profilingLogfile =>
    by_cases hvalue : value = []
    · simp only [assignKey, if_pos hvalue]
      have hharmless : harmless host ms (.profilingLogfile, value) = true := by simp [harmless, hvalue]
      exact ⟨htracks.assignOther value (.inr (.inr rfl)) rfl rfl rfl rfl rfl rfl, hcount,
        halive.trans hharmless, rfl, rfl, rfl⟩
    · simp only [assignKey, if_neg hvalue, ConfStr.assign, htracks.logfile, if_true, Exec.undefined_bind]
      have hharmless : harmless host ms (.profilingLogfile, value) = false := by simp [harmless, hvalue]
      exact halive.trans hharmless

/-- An assignment to the cache directory. The parser goes on when the directory could be made, and
the line it goes on with may have been formatted over. -/
theorem assignKey_cacheDir (host : Host) (value : CStr) {p : ConfParser} {ms : List Assignment}
    (htracks : Tracks host ms p.settings) (htaken : p.taken = (directories ms).length)
    (hsurvives : survives host [] ms = true) (hmade : host.mkdir p.taken = true) :
    Parsed host (ms ++ [(.cacheDir, value)])
      (fun p' ok => ok = host.mkdir p'.taken ∧ p'.skipped = p.skipped ∧
        p'.token = remainingToken host (value :: directories ms) p.token p.skipped)
      (assignKey host .cacheDir value p) := by
  have hdirs := directories_cacheDir ms value
  have hold : p.settings.cacheDir = (directoryText host (directories ms)).rdropWhile (· = '/') := by
    rw [htracks.cacheDir, directoryAfter, ← htaken, hmade]
    rfl
  have htext : tmpstrPrintf (slashed (storeStr value p.settings.cacheDir) host.curBucket) =
      directoryText host (value :: directories ms) := by
    rw [directoryText, hold]
  have hcount : p.taken + 1 = (directories (ms ++ [(.cacheDir, value)])).length := by
    rw [hdirs, List.length_cons, htaken]
  have hlength : (value :: directories ms).length = p.taken + 1 := by rw [htaken]; rfl
  have halive : survives host [] (ms ++ [(.cacheDir, value)]) =
      !(host.mkdir (p.taken + 1) && (directoryText host (value :: directories ms)).all (· = '/')) := by
    rw [survives_append, hsurvives, ← hlength]
    simp [survives, harmless]
  have hset : ∀ dir, dir = directoryAfter host (value :: directories ms) →
      Tracks host (ms ++ [(.cacheDir, value)]) { p.settings with cacheDir := dir } := by
    intro dir hdir
    refine ⟨?_, ?_, ?_, by rw [hdirs]; exact hdir, htracks.unset, htracks.logfile⟩
    · rw [valuesOf_other ms (by decide), ← htracks.compressionMethod]
    · rw [valuesOf_other ms (by decide), ← htracks.encryptionMethod]
    · intro n
      rw [valuesOf_other ms (by simp), ← htracks.number]
  have htoken : (if (p.taken + 1) % tmpstrNb = 0 then
      formattedOver (directoryText host (value :: directories ms)) p.skipped p.token else p.token) =
      remainingToken host (value :: directories ms) p.token p.skipped := by
    rw [remainingToken, hlength]
  simp only [assignKey, confSetFullCacheDir, htext, htoken]
  cases hmkdir : host.mkdir (p.taken + 1) with
  | false =>
    have hafter : directoryText host (value :: directories ms) =
        directoryAfter host (value :: directories ms) := by
      rw [directoryAfter, hlength, hmkdir]
      rfl
    refine ⟨hset _ hafter, hcount, by rw [halive, hmkdir]; rfl, hmkdir.symm, rfl, rfl⟩
  | true =>
    have hafter : (directoryText host (value :: directories ms)).rdropWhile (· = '/') =
        directoryAfter host (value :: directories ms) := by
      rw [directoryAfter, hlength, hmkdir]
      rfl
    cases hall : (directoryText host (value :: directories ms)).all (· = '/') with
    | true =>
      simp only [removeTrailingSlashes, hall, if_true, Exec.undefined_bind]
      show survives host [] _ = false
      rw [halive, hmkdir, hall]
      rfl
    | false =>
      simp only [removeTrailingSlashes, hall, if_true]
      exact ⟨hset _ hafter, hcount, by rw [halive, hall, hmkdir]; rfl, hmkdir.symm, rfl, rfl⟩

/-- No key names the empty text. -/
theorem names_nil (key : ConfKey) : key.names [] = false := by
  cases key with
  | number n => cases n <;> decide
  | _ => decide

/-- A line that names a key without an `=` stops the parser, and nothing is assigned. -/
theorem parseKeys_stops (host : Host) {keys : List ConfKey} {p : ConfParser}
    (h : stops keys p.token = true) : parseKeys host keys p = .done (p, false) := by
  rw [stops, Bool.and_eq_true, Option.isNone_iff_eq_none] at h
  obtain ⟨hassigned, hany⟩ := h
  induction keys with
  | nil => exact absurd hany (by simp)
  | cons key keys ih =>
    by_cases hnames : key.names p.token = true
    · simp [parseKeys, parseKey, hnames, hassigned]
    · rw [Bool.not_eq_true] at hnames
      rw [List.any_cons, hnames, Bool.false_or] at hany
      simpa [parseKeys, parseKey, hnames] using ih hany

/-- The keys before `cache_dir`, or those after it, make the assignments of the line to them. -/
theorem parseKeys_plain (host : Host) {keys : List ConfKey} {p : ConfParser} {ms : List Assignment}
    (hkeys : ConfKey.cacheDir ∉ keys) (hgoes : stops keys p.token = false)
    (htracks : Tracks host ms p.settings) (htaken : p.taken = (directories ms).length)
    (hsurvives : survives host [] ms = true) :
    Parsed host (ms ++ assignmentsOf keys p.token)
      (fun p' ok => ok = true ∧ p'.token = p.token ∧ p'.skipped = p.skipped)
      (parseKeys host keys p) := by
  induction keys generalizing p ms with
  | nil =>
    have hnothing : assignmentsOf [] p.token = [] := by
      unfold assignmentsOf
      split <;> rfl
    rw [hnothing, List.append_nil]
    exact ⟨htracks, htaken, hsurvives, rfl, rfl, rfl⟩
  | cons key keys ih =>
    rw [List.mem_cons, not_or] at hkeys
    have hrest : stops keys p.token = false := by
      rw [stops, Bool.and_eq_false_iff] at hgoes ⊢
      exact hgoes.imp id fun h => (Bool.or_eq_false_iff.mp h).2
    by_cases hnames : key.names p.token = true
    · cases hassigned : assigned p.token with
      | none => simp [stops, hassigned, hnames] at hgoes
      | some value =>
        have hsplit : assignmentsOf (key :: keys) p.token =
            [(key, value)] ++ assignmentsOf keys p.token := by
          simp [assignmentsOf, hassigned, hnames]
        have hfirst := assignKey_plain host value (Ne.symm hkeys.1) htracks htaken hsurvives
        rw [hsplit, ← List.append_assoc, parseKeys, parseKey, if_pos hnames, hassigned]
        refine hfirst.bind fun p' ok htracks' htaken' hsurvives' hgoal => ?_
        obtain ⟨rfl, htoken, hskipped⟩ := hgoal
        have hnext := ih hkeys.2 (by rw [htoken]; exact hrest) htracks' htaken' hsurvives'
        rw [htoken, hskipped] at hnext
        exact hnext
    · have hsame : assignmentsOf (key :: keys) p.token = assignmentsOf keys p.token := by
        unfold assignmentsOf
        rw [List.filter_cons, if_neg hnames]
      rw [hsame, parseKeys, parseKey, if_neg hnames]
      exact ih hkeys.2 hrest htracks htaken hsurvives

/-- Keys are compared in order. -/
theorem parseKeys_append (host : Host) (keys keys' : List ConfKey) (p : ConfParser) :
    parseKeys host (keys ++ keys') p =
      parseKeys host keys p >>= fun (p, ok) => if ok then parseKeys host keys' p else .done (p, false) := by
  induction keys generalizing p with
  | nil => rfl
  | cons key keys ih =>
    rw [List.cons_append, parseKeys, parseKeys]
    cases parseKey host key p with
    | blocked => rfl
    | undefined => rfl
    | done r =>
      obtain ⟨p, ok⟩ := r
      cases ok with
      | false => rfl
      | true => exact ih p

/-- A line that stops none of the keys stops no part of them. -/
theorem stops_of_subset {keys keys' : List ConfKey} {token : CStr} (hsub : keys ⊆ keys')
    (h : stops keys' token = false) : stops keys token = false := by
  rw [stops, Bool.and_eq_false_iff] at h ⊢
  refine h.imp id fun hany => ?_
  rw [List.any_eq_false] at hany ⊢
  exact fun key hkey => hany key (hsub hkey)

/-- A line that does not name the cache directory makes the assignments to the other keys. -/
theorem assignmentsOf_other {token : CStr} (hnot : ConfKey.cacheDir.names token = false) :
    assignmentsOf confKeys token = assignmentsOf earlyKeys token ++ assignmentsOf lateKeys token := by
  unfold assignmentsOf
  cases assigned token with
  | none => rfl
  | some value => simp [confKeys, hnot]

/-- A line that is not an assignment to the cache directory. -/
theorem parseToken_other (host : Host) {p : ConfParser} {ms : List Assignment}
    (hgoes : stops confKeys p.token = false) (hnot : ConfKey.cacheDir.names p.token = false)
    (htracks : Tracks host ms p.settings) (htaken : p.taken = (directories ms).length)
    (hsurvives : survives host [] ms = true) :
    Parsed host (ms ++ assignmentsOf confKeys p.token) (fun _ ok => ok = true) (parseToken host p) := by
  have hearly : stops earlyKeys p.token = false := stops_of_subset (by simp [confKeys]) hgoes
  have hlate : stops lateKeys p.token = false := stops_of_subset (by simp [confKeys]) hgoes
  rw [assignmentsOf_other hnot, ← List.append_assoc, parseToken, confKeys, parseKeys_append]
  have hfirst := parseKeys_plain host (by decide) hearly htracks htaken hsurvives
  refine hfirst.bind fun p' ok htracks' htaken' hsurvives' hgoal => ?_
  obtain ⟨rfl, htoken, -⟩ := hgoal
  rw [← htoken] at hlate hnot
  have hlast := parseKeys_plain host (by decide) hlate htracks' htaken' hsurvives'
  have hskip : parseKeys host (.cacheDir :: lateKeys) p' = parseKeys host lateKeys p' := by
    rw [parseKeys, parseKey, hnot]
    rfl
  rw [htoken] at hlast
  show Parsed host _ _ (parseKeys host (.cacheDir :: lateKeys) p')
  rw [hskip]
  exact hlast.imp fun _ _ _ hgoal => hgoal.1

/-- Assignments to other keys add no cache directory. -/
theorem directories_assignmentsOf {keys : List ConfKey} (hkeys : ConfKey.cacheDir ∉ keys) (token : CStr) :
    directories (assignmentsOf keys token) = [] := by
  unfold assignmentsOf
  cases assigned token with
  | none => rfl
  | some value =>
    have hnone : ∀ m ∈ (keys.filter (·.names token)).map (·, value), m.1 ≠ ConfKey.cacheDir := by
      intro m hm hkey
      obtain ⟨key, hmem, rfl⟩ := List.mem_map.mp hm
      exact hkeys (hkey ▸ (List.mem_filter.mp hmem).1)
    simp only [directories, valuesOf]
    rw [List.filter_eq_nil_iff.mpr fun m hm => by simpa using hnone m hm]
    rfl

/-- A line that is an assignment to the cache directory. -/
theorem parseToken_cacheDir (host : Host) {p : ConfParser} {ms : List Assignment} {value : CStr}
    (hassigned : assigned p.token = some value) (hnames : ConfKey.cacheDir.names p.token = true)
    (htracks : Tracks host ms p.settings) (htaken : p.taken = (directories ms).length)
    (hsurvives : survives host [] ms = true) (hmade : host.mkdir p.taken = true) :
    Parsed host (ms ++ (reachedLine host (directories ms) p.token p.skipped).1)
      (fun p' ok => ok = (reachedLine host (directories ms) p.token p.skipped).2 ∧
        (ok = true → host.mkdir p'.taken = true)) (parseToken host p) := by
  have hgoes : ∀ keys, stops keys p.token = false := by
    intro keys
    rw [stops, hassigned]
    rfl
  have hdirs : directories (ms ++ assignmentsOf earlyKeys p.token) = directories ms := by
    rw [directories_append, directories_assignmentsOf (by decide), List.nil_append]
  have hfirst := parseKeys_plain host (by decide) (hgoes earlyKeys) htracks htaken hsurvives
  have hline : reachedLine host (directories ms) p.token p.skipped =
      if host.mkdir (value :: directories ms).length = false ∨
          stops lateKeys (remainingToken host (value :: directories ms) p.token p.skipped) = true then
        (assignmentsOf earlyKeys p.token ++ [(.cacheDir, value)], false)
      else (assignmentsOf earlyKeys p.token ++ [(.cacheDir, value)] ++
        assignmentsOf lateKeys (remainingToken host (value :: directories ms) p.token p.skipped), true) := by
    unfold reachedLine
    rw [if_neg (by rw [hgoes]; decide), hassigned, Option.filter_some, hnames]
    rfl
  have hsecond : ∀ p', Tracks host (ms ++ assignmentsOf earlyKeys p.token) p'.settings →
      p'.taken = (directories (ms ++ assignmentsOf earlyKeys p.token)).length →
      survives host [] (ms ++ assignmentsOf earlyKeys p.token) = true → p'.token = p.token →
      p'.skipped = p.skipped →
      Parsed host (ms ++ assignmentsOf earlyKeys p.token ++ [(.cacheDir, value)])
        (fun p'' ok => ok = host.mkdir p''.taken ∧
          p''.token = remainingToken host (value :: directories ms) p.token p.skipped)
        (parseKey host .cacheDir p') := by
    intro p' htracks' htaken' hsurvives' htoken hskipped
    have hmade' : host.mkdir p'.taken = true := by rw [htaken', hdirs, ← htaken, hmade]
    have hassign := assignKey_cacheDir host value htracks' htaken' hsurvives' hmade'
    rw [hdirs, htoken, hskipped] at hassign
    rw [parseKey, htoken, if_pos hnames, hassigned]
    exact hassign.imp fun _ _ _ hgoal => ⟨hgoal.1, hgoal.2.2⟩
  have hcount : (directories (ms ++ assignmentsOf earlyKeys p.token ++ [(.cacheDir, value)])).length =
      (value :: directories ms).length := by
    rw [directories_cacheDir, hdirs]
  rw [parseToken, confKeys, parseKeys_append]
  by_cases hends : host.mkdir (value :: directories ms).length = false ∨
      stops lateKeys (remainingToken host (value :: directories ms) p.token p.skipped) = true
  · rw [hline, if_pos hends, ← List.append_assoc]
    refine hfirst.bind fun p' ok htracks' htaken' hsurvives' hgoal => ?_
    obtain ⟨rfl, htoken, hskipped⟩ := hgoal
    have hkey := hsecond p' htracks' htaken' hsurvives' htoken hskipped
    show Parsed host _ _ (parseKeys host (.cacheDir :: lateKeys) p')
    rw [parseKeys]
    rw [← List.append_nil (ms ++ assignmentsOf earlyKeys p.token ++ [(ConfKey.cacheDir, value)])]
    refine hkey.bind fun p'' ok htracks'' htaken'' hsurvives'' hgoal => ?_
    obtain ⟨hok, htoken'⟩ := hgoal
    rw [List.append_nil]
    cases ok with
    | false => exact ⟨htracks'', htaken'', hsurvives'', rfl, fun h => absurd h (by decide)⟩
    | true =>
      have hstops : stops lateKeys p''.token = true := by
        rw [htoken']
        refine hends.resolve_left ?_
        rw [← hcount, ← htaken'', ← hok]
        decide
      show Parsed host _ _ (parseKeys host lateKeys p'')
      rw [parseKeys_stops host hstops]
      exact ⟨htracks'', htaken'', hsurvives'', rfl, fun h => absurd h (by decide)⟩
  · rw [hline, if_neg hends, ← List.append_assoc, ← List.append_assoc]
    rw [not_or, Bool.not_eq_false, Bool.not_eq_true] at hends
    rw [List.append_assoc (ms ++ assignmentsOf earlyKeys p.token)]
    refine hfirst.bind fun p' ok htracks' htaken' hsurvives' hgoal => ?_
    obtain ⟨rfl, htoken, hskipped⟩ := hgoal
    have hkey := hsecond p' htracks' htaken' hsurvives' htoken hskipped
    show Parsed host _ _ (parseKeys host (.cacheDir :: lateKeys) p')
    rw [parseKeys, ← List.append_assoc]
    refine hkey.bind fun p'' ok htracks'' htaken'' hsurvives'' hgoal => ?_
    obtain ⟨hok, htoken'⟩ := hgoal
    have hmade'' : host.mkdir p''.taken = true := by rw [htaken'', hcount, hends.1]
    rw [hmade''] at hok
    subst hok
    have hlast := parseKeys_plain host (by decide) (htoken' ▸ hends.2) htracks'' htaken'' hsurvives''
    rw [htoken'] at hlast
    refine hlast.imp fun p₃ ok htaken₃ hgoal => ⟨hgoal.1, fun _ => ?_⟩
    rw [htaken₃, directories_append, directories_assignmentsOf (by decide), List.nil_append, ← htaken'',
      hmade'']

/-- One line: its assignments are made, as far as the parser comes. -/
theorem parseToken_parsed (host : Host) {p : ConfParser} {ms : List Assignment}
    (htracks : Tracks host ms p.settings) (htaken : p.taken = (directories ms).length)
    (hsurvives : survives host [] ms = true) (hmade : host.mkdir p.taken = true) :
    Parsed host (ms ++ (reachedLine host (directories ms) p.token p.skipped).1)
      (fun p' ok => ok = (reachedLine host (directories ms) p.token p.skipped).2 ∧
        (ok = true → host.mkdir p'.taken = true)) (parseToken host p) := by
  cases hstops : stops confKeys p.token with
  | true =>
    have hline : reachedLine host (directories ms) p.token p.skipped = ([], false) := by
      unfold reachedLine
      rw [if_pos hstops]
    rw [hline, List.append_nil, parseToken, parseKeys_stops host hstops]
    exact ⟨htracks, htaken, hsurvives, rfl, fun h => absurd h (by decide)⟩
  | false =>
    cases hassigned : (assigned p.token).filter (fun _ => ConfKey.cacheDir.names p.token) with
    | some value =>
      rw [Option.filter_eq_some_iff] at hassigned
      exact parseToken_cacheDir host hassigned.1 hassigned.2 htracks htaken hsurvives hmade
    | none =>
      have hline : reachedLine host (directories ms) p.token p.skipped =
          (assignmentsOf confKeys p.token, true) := by
        unfold reachedLine
        rw [if_neg (by rw [hstops]; decide), hassigned]
      have hnot : ConfKey.cacheDir.names p.token = false := by
        cases hvalue : assigned p.token with
        | none =>
          rw [stops, hvalue, Option.isNone_none, Bool.true_and, List.any_eq_false] at hstops
          exact Bool.eq_false_iff.mpr (hstops .cacheDir (by simp [confKeys]))
        | some value => simpa [hvalue, Option.filter_some] using hassigned
      have hdirs : directories (assignmentsOf confKeys p.token) = [] := by
        rw [assignmentsOf_other hnot, directories_append, directories_assignmentsOf (by decide),
          directories_assignmentsOf (by decide)]
        rfl
      rw [hline]
      refine (parseToken_other host hstops hnot htracks htaken hsurvives).imp fun p' ok htaken' hok => ?_
      refine ⟨hok, fun _ => ?_⟩
      rw [htaken', directories_append, hdirs, List.nil_append, ← htaken, hmade]

/-- Nothing is assigned by a text that is empty. -/
theorem reachedLine_nil (host : Host) (dirs : List CStr) (skipped : ℕ) :
    reachedLine host dirs [] skipped = ([], true) := by
  have hgoes : stops confKeys [] = false := by
    rw [stops, Bool.and_eq_false_iff, List.any_eq_false]
    exact .inr fun key _ => by rw [names_nil]; decide
  unfold reachedLine
  rw [if_neg (by rw [hgoes]; decide)]
  rfl

/-- One line, with the spaces before it and the comments. -/
theorem parseLine_parsed (host : Host) (line : CStr) {p : ConfParser} {ms : List Assignment}
    (htracks : Tracks host ms p.settings) (htaken : p.taken = (directories ms).length)
    (hsurvives : survives host [] ms = true) (hmade : host.mkdir p.taken = true) :
    Parsed host
      (ms ++ (reachedLine host (directories ms) (lineToken line) (line.length - (lineToken line).length)).1)
      (fun p' ok =>
        ok = (reachedLine host (directories ms) (lineToken line) (line.length - (lineToken line).length)).2 ∧
        (ok = true → host.mkdir p'.taken = true)) (parseLine host line p) := by
  unfold parseLine
  by_cases hempty : line = []
  · rw [if_pos hempty, hempty, lineToken, List.dropWhile_nil]
    rw [if_neg (by simp), reachedLine_nil, List.append_nil]
    exact ⟨htracks, htaken, hsurvives, rfl, fun _ => hmade⟩
  · rw [if_neg hempty]
    by_cases hcomment : (line.dropWhile isSpace).head? = some '#'
    · simp only [lineToken, if_pos hcomment, reachedLine_nil, List.append_nil]
      exact ⟨htracks, htaken, hsurvives, rfl, fun _ => hmade⟩
    · simp only [lineToken, if_neg hcomment]
      exact parseToken_parsed host (p := ⟨p.settings, line.dropWhile isSpace, _, p.taken⟩)
        htracks htaken hsurvives hmade

/-- The strings read from a file: the assignments that the parser comes to are made. -/
theorem parseStrings_parsed (host : Host) (bufs : List CStr) {p : ConfParser} {ms : List Assignment}
    (htracks : Tracks host ms p.settings) (htaken : p.taken = (directories ms).length)
    (hsurvives : survives host [] ms = true) (hmade : host.mkdir p.taken = true) :
    Parsed host (ms ++ reachedLines host (directories ms) (bufs.map List.dropLast)) (fun _ _ => True)
      (parseStrings host bufs p) := by
  induction bufs generalizing p ms with
  | nil =>
    rw [List.map_nil, reachedLines, List.append_nil]
    exact ⟨htracks, htaken, hsurvives, trivial⟩
  | cons buf bufs ih =>
    have hfirst := parseLine_parsed host buf.dropLast htracks htaken hsurvives hmade
    rw [List.map_cons, parseStrings, reachedLines]
    cases hline : reachedLine host (directories ms) (lineToken buf.dropLast)
        (buf.dropLast.length - (lineToken buf.dropLast).length) with
    | mk reached goes =>
      rw [hline] at hfirst
      cases goes with
      | false =>
        rw [← List.append_nil reached, ← List.append_assoc]
        refine hfirst.bind fun p' ok htracks' htaken' hsurvives' hgoal => ?_
        obtain ⟨rfl, -⟩ := hgoal
        rw [List.append_nil]
        exact ⟨htracks', htaken', hsurvives', trivial⟩
      | true =>
        show Parsed host (ms ++ (reached ++ _)) _ _
        rw [← List.append_assoc]
        refine hfirst.bind fun p' ok htracks' htaken' hsurvives' hgoal => ?_
        obtain ⟨rfl, hgoes⟩ := hgoal
        have hrest := ih htracks' htaken' hsurvives' (hgoes rfl)
        rw [directories_append] at hrest
        exact hrest

/-- `fgets` reads a line that fits with its newline. -/
theorem fgetsAll_line (most : ℕ) {left : ℕ} {line : CStr} (rest : CStr) (hline : '\n' ∉ line)
    (hfits : line.length < left) :
    fgetsAll most left (line ++ '\n' :: rest) = (line ++ ['\n']) :: fgetsAll most most rest := by
  induction line generalizing left with
  | nil => simp [fgetsAll]
  | cons c line ih =>
    rw [List.mem_cons, not_or] at hline
    rw [List.length_cons] at hfits
    have hnot : ¬(c = '\n' ∨ left ≤ 1) := by
      rintro (hc | hleft)
      · exact hline.1 hc.symm
      · omega
    rw [List.cons_append, fgetsAll, if_neg hnot, ih hline.2 (by omega)]
    rfl

/-- `fgets` reads the lines of a file one by one when they fit. -/
theorem fgetsAll_fileText (most : ℕ) (lines : List CStr)
    (hlines : ∀ line ∈ lines, '\n' ∉ line ∧ line.length < most) :
    fgetsAll most most (fileText lines) = lines.map (· ++ ['\n']) := by
  induction lines with
  | nil => rfl
  | cons line lines ih =>
    obtain ⟨hline, hfits⟩ := hlines line List.mem_cons_self
    have htext : fileText (line :: lines) = line ++ '\n' :: fileText lines := by simp [fileText]
    rw [htext, fgetsAll_line most _ hline hfits, ih fun l hl => hlines l (List.mem_cons_of_mem _ hl)]
    rfl

end Dropletfs
