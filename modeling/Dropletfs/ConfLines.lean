import Dropletfs.Assignments

/-!
# One line of the configuration file

A line is compared with all the keys, by the characters that come first, and every key it
starts with takes its value. `profiling` starts `profiling_logfile`, and no other key starts
another one. A line `key = value` therefore goes to the setting of its key, and a line of
`profiling_logfile` also to `profiling`.
-/

namespace Dropletfs

/-- What a setting of the file holds. -/
inductive ConfValue where
  | number (n : ℤ)
  | text (s : CStr)
  | pattern (s : Option CStr)
  | file (s : ConfStr)
  deriving DecidableEq, Repr

/-- The field of `struct conf` that a key names. -/
def Settings.held (s : Settings) : ConfKey → ConfValue
  | .compressionMethod => .text s.compressionMethod
  | .number n => .number (s.number n)
  | .cacheDir => .text s.cacheDir
  | .exclusionPattern => .pattern s.regex.str
  | .encryptionMethod => .text s.encryptionMethod
  | .logLevel => .number s.logLevel
  | .profilingLogfile => .file s.profilingLogfile

/-- What the field of a key other than `cache_dir` holds once it was assigned a value. -/
def Settings.stored (s : Settings) (key : ConfKey) (value : CStr) : ConfValue :=
  match key with
  | .compressionMethod => .text (storeStr value s.compressionMethod)
  | .number _ => .number (strtoulInt value)
  | .cacheDir => .text (storeStr value s.cacheDir)
  | .exclusionPattern => .pattern (if value = [] then s.regex.str else some value)
  | .encryptionMethod => .text (storeStr value s.encryptionMethod)
  | .logLevel => .number (strToLogLevel value)
  | .profilingLogfile => .file (if value = [] then s.profilingLogfile else .allocated value)

/-- The assignment of a value to a key other than `cache_dir` returns. -/
def Settings.takes (s : Settings) (key : ConfKey) (value : CStr) : Bool :=
  match key with
  | .logLevel => value ≠ []
  | .profilingLogfile => value = [] ∨ s.profilingLogfile.isLiteral = false
  | _ => true

/-- The fields that no key of the file names are the same. -/
structure Settings.SameRest (s s' : Settings) : Prop where
  rootDir : s'.rootDir = s.rootDir
  debug : s'.debug = s.debug
  rx : s'.regex.rx = s.regex.rx
  set : s'.regex.set = s.regex.set

/-- Only the field that a key names may have changed. -/
structure Settings.ChangesOnly (key : ConfKey) (s s' : Settings) : Prop where
  held : ∀ other, other ≠ key → s'.held other = s.held other
  rest : s.SameRest s'

/-- The assignment of a value to a key returns and changes nothing. -/
def Settings.Indifferent (s : Settings) (key : ConfKey) (value : CStr) : Prop :=
  s.takes key value = true ∧ s.stored key value = s.held key

/-- What the line of a key does stays with the key. An empty level is compared as a null pointer. A line of the
log file gives its value to `profiling` as well. A cache directory that is not made of slashes is formatted into a
string of the ring, which after a full round is that of the line. -/
def Contained (host : Host) (key : ConfKey) (value : CStr) (p : ConfParser) : Prop :=
  match key with
  | .logLevel => value ≠ []
  | .profilingLogfile =>
    p.settings.takes .profilingLogfile value = true ∧ p.settings.Indifferent (.number .profiling) value
  | .cacheDir =>
    let text := tmpstrPrintf (slashed (storeStr value p.settings.cacheDir) host.curBucket)
    host.mkdir (p.taken + 1) = true →
      text.all (· = '/') = false ∧
        ((p.taken + 1) % tmpstrNb = 0 → ∀ other ∈ lateKeys, other.names text = true →
          ∀ value', assigned text = some value' → p.settings.Indifferent other value')
  | _ => True

/-- The fields that no key names are the same after two changes that leave them. -/
theorem Settings.SameRest.trans {s s' s'' : Settings} (h : s.SameRest s') (h' : s'.SameRest s'') :
    s.SameRest s'' where
  rootDir := h'.rootDir.trans h.rootDir
  debug := h'.debug.trans h.debug
  rx := h'.rx.trans h.rx
  set := h'.set.trans h.set

/-- The fields that no key names are the same the other way round. -/
theorem Settings.SameRest.symm {s s' : Settings} (h : s.SameRest s') : s'.SameRest s where
  rootDir := h.rootDir.symm
  debug := h.debug.symm
  rx := h.rx.symm
  set := h.set.symm

/-- After a change of the field that a key names, the same changes of that field remain. -/
theorem Settings.ChangesOnly.iff_of_changesOnly {key : ConfKey} {s s₁ : Settings} (h : s.ChangesOnly key s₁)
    (s' : Settings) : s.ChangesOnly key s' ↔ s₁.ChangesOnly key s' := by
  constructor
  · intro h'
    exact ⟨fun other hother => (h'.held other hother).trans (h.held other hother).symm, h.rest.symm.trans h'.rest⟩
  · intro h'
    exact ⟨fun other hother => (h'.held other hother).trans (h.held other hother), h.rest.trans h'.rest⟩

/-- Whether an assignment returns depends on the field only. -/
theorem Settings.takes_congr {s s' : Settings} {key : ConfKey} (h : s'.held key = s.held key) (value : CStr) :
    s'.takes key value = s.takes key value := by
  cases key with
  | profilingLogfile =>
    have hfile : s'.profilingLogfile = s.profilingLogfile := ConfValue.file.inj h
    simp only [takes, hfile]
  | _ => rfl

/-- What an assignment leaves depends on the field only. -/
theorem Settings.stored_congr {s s' : Settings} {key : ConfKey} (h : s'.held key = s.held key) (value : CStr) :
    s'.stored key value = s.stored key value := by
  cases key with
  | compressionMethod | cacheDir | encryptionMethod =>
    have htext := ConfValue.text.inj h
    simp only [stored, htext]
  | number n => rfl
  | exclusionPattern =>
    have hpattern := ConfValue.pattern.inj h
    simp only [stored, hpattern]
  | logLevel => rfl
  | profilingLogfile =>
    have hfile := ConfValue.file.inj h
    simp only [stored, hfile]

/-- Whether an assignment changes anything depends on the field only. -/
theorem Settings.indifferent_congr {s s' : Settings} {key : ConfKey} (h : s'.held key = s.held key)
    (value : CStr) : s'.Indifferent key value ↔ s.Indifferent key value := by
  unfold Indifferent
  rw [takes_congr h, stored_congr h, h]

/-- The level is one of those of `syslog`. -/
theorem strToLogLevel_range (str : CStr) : 0 ≤ strToLogLevel str ∧ strToLogLevel str ≤ 7 := by
  unfold strToLogLevel defaultLogLevel
  repeat' split
  all_goals decide

/-- An assignment that returns changes the field of its key, and lets the parser go on with the same line. -/
theorem assignKey_takes (host : Host) {key : ConfKey} (hkey : key ≠ .cacheDir) (value : CStr) (p : ConfParser)
    (htakes : p.settings.takes key value = true) :
    ∃ s', assignKey host key value p = .done ({ p with settings := s' }, true) ∧
      s'.held key = p.settings.stored key value ∧ p.settings.ChangesOnly key s' := by
  have hother : ∀ s' : Settings, (∀ other, other ≠ key → s'.held other = p.settings.held other) →
      p.settings.SameRest s' → p.settings.ChangesOnly key s' := fun _ hheld hrest => ⟨hheld, hrest⟩
  cases key with
  | cacheDir => exact absurd rfl hkey
  | compressionMethod | encryptionMethod | exclusionPattern =>
    refine ⟨_, rfl, rfl, hother _ (fun other hne => ?_) ⟨rfl, rfl, rfl, rfl⟩⟩
    cases other <;> first | rfl | exact absurd rfl hne
  | number n =>
    refine ⟨_, rfl, ?_, hother _ (fun other hne => ?_) ⟨rfl, rfl, rfl, rfl⟩⟩
    · exact congrArg ConfValue.number (Function.update_self _ _ _)
    · cases other with
      | number n' =>
        have hdiffers : n' ≠ n := fun heq => hne (congrArg ConfKey.number heq)
        exact congrArg ConfValue.number (Function.update_of_ne hdiffers _ _)
      | _ => rfl
  | logLevel =>
    have hvalue : value ≠ [] := of_decide_eq_true htakes
    obtain ⟨hmin, hmax⟩ := strToLogLevel_range value
    have hlevel : ¬(strToLogLevel value > 7 ∨ strToLogLevel value < 0) := by omega
    refine ⟨{ p.settings with logLevel := strToLogLevel value }, ?_, rfl, hother _ (fun other hne => ?_)
      ⟨rfl, rfl, rfl, rfl⟩⟩
    · simp only [assignKey, if_neg hvalue, if_neg hlevel]
    · cases other <;> first | rfl | exact absurd rfl hne
  | profilingLogfile =>
    by_cases hvalue : value = []
    · refine ⟨p.settings, ?_, ?_, hother _ (fun other _ => rfl) ⟨rfl, rfl, rfl, rfl⟩⟩
      · simp only [assignKey, if_pos hvalue]
      · simp only [Settings.held, Settings.stored, if_pos hvalue]
    · have hfree : p.settings.profilingLogfile.isLiteral = false :=
        (of_decide_eq_true htakes).resolve_left hvalue
      refine ⟨{ p.settings with profilingLogfile := .allocated value }, ?_, ?_, hother _ (fun other hne => ?_)
        ⟨rfl, rfl, rfl, rfl⟩⟩
      · simp only [assignKey, if_neg hvalue, ConfStr.assign, hfree, Bool.false_eq_true, if_false, Exec.done_bind]
      · simp only [Settings.held, Settings.stored, if_neg hvalue]
      · cases other <;> first | rfl | exact absurd rfl hne

/-- Any other assignment leaves the defined part of the language. -/
theorem assignKey_crashes (host : Host) {key : ConfKey} (value : CStr) (p : ConfParser)
    (htakes : p.settings.takes key value = false) : assignKey host key value p = .undefined := by
  cases key with
  | logLevel =>
    have hvalue : value = [] := not_not.mp (of_decide_eq_false htakes)
    simp only [assignKey, if_pos hvalue]
  | profilingLogfile =>
    have hcrash := of_decide_eq_false htakes
    rw [not_or, Bool.not_eq_false] at hcrash
    simp only [assignKey, if_neg hcrash.1, ConfStr.assign, hcrash.2, if_true, Exec.undefined_bind]
  | compressionMethod | number | cacheDir | exclusionPattern | encryptionMethod => cases htakes

section Keys

/-- Every key is compared. -/
theorem ConfKey.mem_confKeys (key : ConfKey) : key ∈ confKeys := by
  cases key with
  | number n => cases n <;> decide
  | _ => decide

/-- All keys but that of the cache directory. -/
theorem ConfKey.mem_plainKeys {key : ConfKey} (h : key ≠ .cacheDir) : key ∈ earlyKeys ++ lateKeys := by
  have hall := key.mem_confKeys
  rw [confKeys, List.mem_append, List.mem_cons] at hall
  rw [List.mem_append]
  exact hall.imp_right fun hlate => hlate.resolve_left h

/-- No key is compared twice. -/
theorem confKeys_nodup : confKeys.Nodup := by decide

/-- The same without the key of the cache directory. -/
theorem plainKeys_nodup : (earlyKeys ++ lateKeys).Nodup :=
  confKeys_nodup.sublist (List.Sublist.append_left (List.sublist_cons_self _ _) _)

/-- That key is not among the others. -/
theorem cacheDir_notMem_plainKeys : ConfKey.cacheDir ∉ earlyKeys ++ lateKeys := by
  have hmiddle := (List.nodup_middle.mp confKeys_nodup)
  exact (List.nodup_cons.mp hmiddle).1

/-- Nor among the early ones. -/
theorem cacheDir_notMem_earlyKeys : ConfKey.cacheDir ∉ earlyKeys := fun hmem =>
  cacheDir_notMem_plainKeys (List.mem_append_left _ hmem)

/-- Nor among the late ones. -/
theorem cacheDir_notMem_lateKeys : ConfKey.cacheDir ∉ lateKeys := fun hmem =>
  cacheDir_notMem_plainKeys (List.mem_append_right _ hmem)

/-- The names of the keys are words in lower case. -/
theorem ConfKey.name_lower (key : ConfKey) : key.name.map Char.toLower = key.name := by
  have hall : ∀ key ∈ confKeys, key.name.map Char.toLower = key.name := by decide +kernel
  exact hall key key.mem_confKeys

end Keys

/-- Some keys, one of which does not take the value of the line. -/
theorem parseKeys_crashes (host : Host) {keys : List ConfKey} (hnodup : keys.Nodup) (hkeys : .cacheDir ∉ keys)
    {p : ConfParser} {value : CStr} (hassigned : assigned p.token = some value)
    (hcrash : ∃ key ∈ keys, key.names p.token = true ∧ p.settings.takes key value = false) :
    parseKeys host keys p = .undefined := by
  induction keys generalizing p with
  | nil =>
    obtain ⟨key, hmem, -⟩ := hcrash
    cases hmem
  | cons key keys ih =>
    obtain ⟨hnew, hnodup'⟩ := List.nodup_cons.mp hnodup
    rw [List.mem_cons, not_or] at hkeys
    obtain ⟨bad, hmem, hnames, hbad⟩ := hcrash
    by_cases hkey : key.names p.token = true
    · cases htakes : p.settings.takes key value with
      | false =>
        rw [parseKeys, parseKey, if_pos hkey, hassigned]
        exact congrArg (· >>= _) (assignKey_crashes host value p htakes)
      | true =>
        obtain ⟨s', hassign, -, hchanges⟩ := assignKey_takes host (Ne.symm hkeys.1) value p htakes
        have hother : bad ≠ key := fun heq => by
          rw [← heq, hbad] at htakes
          cases htakes
        have hnext := @ih hnodup' hkeys.2 { p with settings := s' } hassigned
          ⟨bad, (List.mem_cons.mp hmem).resolve_left hother, hnames,
            (Settings.takes_congr (hchanges.held bad hother) value).trans hbad⟩
        rw [parseKeys, parseKey, if_pos hkey, hassigned]
        simp only [hassign, Exec.done_bind, if_true]
        exact hnext
    · have hother : bad ≠ key := fun heq => hkey (heq ▸ hnames)
      rw [parseKeys, parseKey, if_neg hkey]
      exact ih hnodup' hkeys.2 hassigned ⟨bad, (List.mem_cons.mp hmem).resolve_left hother, hnames, hbad⟩

/-- Some keys that all take the value of the line: each that the line names gets it. -/
theorem parseKeys_takes (host : Host) {keys : List ConfKey} (hnodup : keys.Nodup) (hkeys : .cacheDir ∉ keys)
    {p : ConfParser} {value : CStr} (hassigned : assigned p.token = some value)
    (htakes : ∀ key ∈ keys, key.names p.token = true → p.settings.takes key value = true) :
    ∃ s', parseKeys host keys p = .done ({ p with settings := s' }, true) ∧
      (∀ key, s'.held key =
        if key ∈ keys ∧ key.names p.token = true then p.settings.stored key value else p.settings.held key) ∧
      p.settings.SameRest s' := by
  induction keys generalizing p with
  | nil => exact ⟨p.settings, rfl, fun key => by simp, ⟨rfl, rfl, rfl, rfl⟩⟩
  | cons key keys ih =>
    obtain ⟨hnew, hnodup'⟩ := List.nodup_cons.mp hnodup
    rw [List.mem_cons, not_or] at hkeys
    by_cases hkey : key.names p.token = true
    · obtain ⟨s₁, hassign, hheld₁, hchanges⟩ :=
        assignKey_takes host (Ne.symm hkeys.1) value p (htakes key List.mem_cons_self hkey)
      have hsame : ∀ other ∈ keys, s₁.held other = p.settings.held other := fun other hmem =>
        hchanges.held other fun heq => hnew (heq ▸ hmem)
      obtain ⟨s', hrest, hheld, hsameRest⟩ := @ih hnodup' hkeys.2 { p with settings := s₁ } hassigned
        fun other hmem hnames => (Settings.takes_congr (hsame other hmem) value).trans
          (htakes other (List.mem_cons_of_mem _ hmem) hnames)
      refine ⟨s', ?_, fun other => ?_, hchanges.rest.trans hsameRest⟩
      · rw [parseKeys, parseKey, if_pos hkey, hassigned]
        simp only [hassign, Exec.done_bind, if_true]
        exact hrest
      · rw [hheld other]
        by_cases hother : other = key
        · subst hother
          simp only [hnew, false_and, if_false, List.mem_cons, true_or, true_and, hkey, if_true, hheld₁]
        · by_cases hmem : other ∈ keys ∧ other.names p.token = true
          · rw [if_pos hmem, if_pos ⟨List.mem_cons_of_mem _ hmem.1, hmem.2⟩]
            exact Settings.stored_congr (hsame other hmem.1) value
          · rw [if_neg hmem, if_neg fun h => hmem ⟨(List.mem_cons.mp h.1).resolve_left hother, h.2⟩]
            exact hchanges.held other hother
    · obtain ⟨s', hrest, hheld, hsameRest⟩ := ih hnodup' hkeys.2 hassigned
        fun other hmem hnames => htakes other (List.mem_cons_of_mem _ hmem) hnames
      refine ⟨s', ?_, fun other => ?_, hsameRest⟩
      · rw [parseKeys, parseKey, if_neg hkey]
        exact hrest
      · rw [hheld other]
        have hiff : other ∈ key :: keys ∧ other.names p.token = true ↔ other ∈ keys ∧ other.names p.token = true := by
          constructor
          · rintro ⟨hmem, hnames⟩
            exact ⟨(List.mem_cons.mp hmem).resolve_left fun heq => hkey (heq ▸ hnames), hnames⟩
          · rintro ⟨hmem, hnames⟩
            exact ⟨List.mem_cons_of_mem _ hmem, hnames⟩
        simp only [hiff]

section Names

/-- A character that ends the key of a line, or makes it no key. -/
def endsKey (c : Char) : Bool := isSpace c || c = '=' || c = '#'

/-- A key is a word. -/
theorem ConfKey.endsKey_of_mem {key : ConfKey} {c : Char} (h : c ∈ key.name) : endsKey c = false := by
  have hall : ∀ key ∈ confKeys, key.name.all (fun c => !endsKey c) = true := by decide +kernel
  simpa using List.all_eq_true.mp (hall key key.mem_confKeys) c h

/-- Folding the case leaves the characters that end a key. -/
theorem toLower_endsKey {c : Char} (h : endsKey c = true) : c.toLower = c := by
  simp only [endsKey, isSpace, Bool.or_eq_true, decide_eq_true_eq] at h
  rcases h with ((((((rfl | rfl) | rfl) | rfl) | rfl) | rfl) | rfl) | rfl <;> decide

/-- The text of a line before its `=`. -/
structure Spells (key : ConfKey) (spelled spaces : CStr) : Prop where
  spelled : spelled.map Char.toLower = key.name
  spaces : ∀ c ∈ spaces, isSpace c = true

/-- The key itself contains nothing that ends it. -/
theorem Spells.endsKey_of_mem {key : ConfKey} {spelled spaces : CStr} (h : Spells key spelled spaces) {c : Char}
    (hmem : c ∈ spelled) : endsKey c = false := by
  by_contra hends
  rw [Bool.not_eq_false] at hends
  have hname : c ∈ key.name := by
    rw [← h.spelled, ← toLower_endsKey hends]
    exact List.mem_map_of_mem hmem
  rw [ConfKey.endsKey_of_mem hname] at hends
  cases hends

/-- The value of a line is what follows its `=`. -/
theorem Spells.assigned_eq {key : ConfKey} {spelled spaces : CStr} (h : Spells key spelled spaces) (value : CStr) :
    assigned (spelled ++ spaces ++ '=' :: value) = some (value.dropWhile isSpace) := by
  have hbefore : ∀ c ∈ spelled ++ spaces, (c != '=') = true := by
    intro c hmem
    rcases List.mem_append.mp hmem with hkey | hspace
    · have hends := h.endsKey_of_mem hkey
      simp only [endsKey, Bool.or_eq_false_iff, decide_eq_false_iff_not] at hends
      exact bne_iff_ne.mpr hends.1.2
    · have hisSpace := h.spaces c hspace
      rw [bne_iff_ne]
      rintro rfl
      cases hisSpace
  have hdrop : (spelled ++ spaces ++ '=' :: value).dropWhile (· != '=') = '=' :: value := by
    rw [List.dropWhile_append_of_pos hbefore]
    rfl
  unfold assigned
  rw [hdrop]

/-- A word that lacks a character is at the front of a text with that character only in what comes before it. -/
theorem isPrefixOf_append_cons {word front rest : CStr} {c : Char} (h : c ∉ word) :
    word.isPrefixOf (front ++ c :: rest) = word.isPrefixOf front := by
  induction word generalizing front with
  | nil => cases front <;> rfl
  | cons d word ih =>
    rw [List.mem_cons, not_or] at h
    cases front with
    | nil =>
      have hne : (d == c) = false := beq_eq_false_iff_ne.mpr (Ne.symm h.1)
      simp [List.isPrefixOf, hne]
    | cons e front =>
      rw [List.cons_append, List.isPrefixOf, List.isPrefixOf, ih h.2]

/-- No key starts another one, but `profiling` the key of the log file. -/
theorem ConfKey.name_prefix_iff (other key : ConfKey) :
    (other.name.map Char.toLower).isPrefixOf key.name = true ↔
      other = key ∨ (other = .number .profiling ∧ key = .profilingLogfile) := by
  have hall : ∀ key ∈ confKeys, ∀ other ∈ confKeys,
      ((other.name.map Char.toLower).isPrefixOf key.name = true ↔
        other = key ∨ (other = .number .profiling ∧ key = .profilingLogfile)) := by
    decide +kernel
  exact hall key key.mem_confKeys other other.mem_confKeys

/-- A line names its key, and `profiling` when its key is that of the log file. -/
theorem Spells.names_iff {key : ConfKey} {spelled spaces : CStr} (h : Spells key spelled spaces) (value : CStr)
    (other : ConfKey) :
    other.names (spelled ++ spaces ++ '=' :: value) = true ↔
      other = key ∨ (other = .number .profiling ∧ key = .profilingLogfile) := by
  -- what follows the key in the line ends every key
  obtain ⟨c, rest, hrest, hends⟩ : ∃ c rest, spaces ++ '=' :: value = c :: rest ∧ endsKey c = true := by
    cases hspaces : spaces with
    | nil => exact ⟨'=', value, rfl, rfl⟩
    | cons c rest =>
      have hspace : isSpace c = true := h.spaces c (hspaces ▸ List.mem_cons_self)
      exact ⟨c, rest ++ '=' :: value, rfl, by rw [endsKey, hspace]; rfl⟩
  have hlower : (spelled ++ spaces ++ '=' :: value).map Char.toLower = key.name ++ c :: rest.map Char.toLower := by
    rw [List.append_assoc, hrest, List.map_append, h.spelled, List.map_cons, toLower_endsKey hends]
  have hnot : c ∉ other.name.map Char.toLower := by
    intro hmem
    obtain ⟨d, hd, hdc⟩ := List.mem_map.mp hmem
    rw [other.name_lower] at hmem
    rw [ConfKey.endsKey_of_mem hmem] at hends
    cases hends
  rw [ConfKey.names, strncasecmpEq, hlower, isPrefixOf_append_cons hnot]
  exact ConfKey.name_prefix_iff other key

/-- A line of a key is compared with the keys from its first character on. -/
theorem Spells.parseLine_eq (host : Host) {key : ConfKey} {spelled spaces : CStr} (h : Spells key spelled spaces)
    (value : CStr) (p : ConfParser) :
    parseLine host (spelled ++ spaces ++ '=' :: value) p =
      parseToken host { p with token := spelled ++ spaces ++ '=' :: value, skipped := 0 } := by
  have hlower := h.spelled
  cases hspelled : spelled with
  | nil =>
    rw [hspelled] at hlower
    have hempty : ∀ key ∈ confKeys, ([] : CStr) ≠ key.name := by decide
    exact absurd hlower (hempty key key.mem_confKeys)
  | cons c rest =>
    have hends := h.endsKey_of_mem (hspelled ▸ List.mem_cons_self : c ∈ spelled)
    simp only [endsKey, Bool.or_eq_false_iff, decide_eq_false_iff_not] at hends
    obtain ⟨⟨hspace, -⟩, hcomment⟩ := hends
    have hdrop : (c :: rest ++ spaces ++ '=' :: value).dropWhile isSpace = c :: rest ++ spaces ++ '=' :: value := by
      rw [List.cons_append, List.cons_append, List.dropWhile_cons, hspace]
      rfl
    have hline : c :: rest ++ spaces ++ '=' :: value ≠ [] := List.cons_ne_nil _ _
    have hhead : ¬(c :: rest ++ spaces ++ '=' :: value).head? = some '#' := fun hhead =>
      hcomment (Option.some.inj hhead)
    simp only [parseLine, if_neg hline, hdrop, if_neg hhead, Nat.sub_self]

end Names

section Lines

variable (host : Host)

/-- Keys that the line does not name are passed over. -/
theorem parseKeys_unnamed {keys : List ConfKey} {p : ConfParser}
    (h : ∀ key ∈ keys, key.names p.token = false) : parseKeys host keys p = .done (p, true) := by
  induction keys with
  | nil => rfl
  | cons key keys ih =>
    have hskip : parseKey host key p = .done (p, true) := by
      rw [parseKey, h key List.mem_cons_self]
      rfl
    rw [parseKeys, hskip]
    exact ih fun other hmem => h other (List.mem_cons_of_mem _ hmem)

/-- A line without `=` changes nothing. -/
theorem parseKeys_unassigned (keys : List ConfKey) {p : ConfParser} (h : assigned p.token = none) :
    ∃ ok, parseKeys host keys p = .done (p, ok) := by
  cases hstops : stops keys p.token with
  | true => exact ⟨false, parseKeys_stops host hstops⟩
  | false =>
    rw [stops, h, Option.isNone_none, Bool.true_and, List.any_eq_false] at hstops
    exact ⟨true, parseKeys_unnamed host fun key hmem => Bool.eq_false_iff.mpr (hstops key hmem)⟩

/-- Keys other than that of the cache directory leave the line as it is. -/
theorem parseKeys_token {keys : List ConfKey} (hkeys : .cacheDir ∉ keys) {p p' : ConfParser} {ok : Bool}
    (h : parseKeys host keys p = .done (p', ok)) : p'.token = p.token := by
  induction keys generalizing p with
  | nil =>
    obtain ⟨rfl, -⟩ := Prod.mk.inj (Exec.done.inj h)
    rfl
  | cons key keys ih =>
    rw [List.mem_cons, not_or] at hkeys
    obtain ⟨⟨p₁, ok₁⟩, hkey, hrest⟩ := Exec.bind_eq_done.mp h
    have htoken : p₁.token = p.token := by
      unfold parseKey at hkey
      split at hkey
      · split at hkey
        · rw [← (Prod.mk.inj (Exec.done.inj hkey)).1]
        · rename_i value _
          cases htakes : p.settings.takes key value with
          | false =>
            rw [assignKey_crashes host value p htakes] at hkey
            cases hkey
          | true =>
            obtain ⟨s', hassign, -⟩ := assignKey_takes host (Ne.symm hkeys.1) value p htakes
            rw [hassign] at hkey
            rw [← (Prod.mk.inj (Exec.done.inj hkey)).1]
      · rw [← (Prod.mk.inj (Exec.done.inj hkey)).1]
    cases ok₁ with
    | true => exact (ih hkeys.2 hrest).trans htoken
    | false =>
      rw [← (Prod.mk.inj (Exec.done.inj hrest)).1]
      exact htoken

/-- A line that does not name the cache directory is compared with the other keys. -/
theorem parseToken_plain {p : ConfParser} (hnot : ConfKey.cacheDir.names p.token = false) :
    parseToken host p = parseKeys host (earlyKeys ++ lateKeys) p := by
  rw [parseToken, confKeys, parseKeys_append, parseKeys_append]
  cases hfirst : parseKeys host earlyKeys p with
  | blocked => simp only [Exec.blocked_bind]
  | undefined => simp only [Exec.undefined_bind]
  | done r =>
    obtain ⟨p', ok⟩ := r
    cases ok with
    | false => simp only [Exec.done_bind, Bool.false_eq_true, if_false]
    | true =>
      have htoken := parseKeys_token host cacheDir_notMem_earlyKeys hfirst
      have hskip : parseKey host .cacheDir p' = .done (p', true) := by
        rw [parseKey, htoken, hnot]
        rfl
      simp only [Exec.done_bind, if_true, parseKeys, hskip]

/-- Keys that are compared with a line leave the others alone exactly when each of them that the line names
returns, and leaves its own field unless it is the one that may change. -/
theorem parseKeys_changesOnly_iff {keys : List ConfKey} (hnodup : keys.Nodup) (hkeys : .cacheDir ∉ keys)
    {p : ConfParser} {value : CStr} (hassigned : assigned p.token = some value) (key : ConfKey) :
    (∃ p' ok, parseKeys host keys p = .done (p', ok) ∧ p.settings.ChangesOnly key p'.settings) ↔
      ∀ other ∈ keys, other.names p.token = true → p.settings.takes other value = true ∧
        (other ≠ key → p.settings.stored other value = p.settings.held other) := by
  constructor
  · rintro ⟨p', ok, hrun, hchanges⟩
    have htakes : ∀ other ∈ keys, other.names p.token = true → p.settings.takes other value = true := by
      intro other hmem hnames
      by_contra hcrash
      rw [parseKeys_crashes host hnodup hkeys hassigned ⟨other, hmem, hnames, Bool.eq_false_iff.mpr hcrash⟩] at hrun
      cases hrun
    obtain ⟨s', hdone, hheld, -⟩ := parseKeys_takes host hnodup hkeys hassigned htakes
    rw [hdone] at hrun
    obtain ⟨rfl, -⟩ := Prod.mk.inj (Exec.done.inj hrun)
    intro other hmem hnames
    refine ⟨htakes other hmem hnames, fun hother => ?_⟩
    have hstored := hheld other
    rw [if_pos ⟨hmem, hnames⟩] at hstored
    rw [← hstored]
    exact hchanges.held other hother
  · intro h
    obtain ⟨s', hdone, hheld, hrest⟩ :=
      parseKeys_takes host hnodup hkeys hassigned fun other hmem hnames => (h other hmem hnames).1
    refine ⟨_, _, hdone, fun other hother => ?_, hrest⟩
    show s'.held other = p.settings.held other
    rw [hheld other]
    split
    · rename_i hnamed
      exact (h other hnamed.1 hnamed.2).2 hother
    · rfl

/-- Where a line of the cache directory leads: the directory cannot be made, its name is made of slashes, or the
later keys are compared with what is left of the line. -/
theorem parseToken_cacheDir_eq {p : ConfParser} {value : CStr} (hassigned : assigned p.token = some value)
    (hskipped : p.skipped = 0) (hnames : ∀ other : ConfKey, other.names p.token = true ↔ other = .cacheDir) :
    let text := tmpstrPrintf (slashed (storeStr value p.settings.cacheDir) host.curBucket)
    let token := if (p.taken + 1) % tmpstrNb = 0 then text else p.token
    parseToken host p =
      if host.mkdir (p.taken + 1) then
        if text.all (· = '/') then .undefined
        else parseKeys host lateKeys
          ⟨{ p.settings with cacheDir := text.rdropWhile (· = '/') }, token, 0, p.taken + 1⟩
      else .done (⟨{ p.settings with cacheDir := text }, token, 0, p.taken + 1⟩, false) := by
  intro text token
  have hearly : parseKeys host earlyKeys p = .done (p, true) := by
    refine parseKeys_unnamed host fun key hmem => ?_
    rw [Bool.eq_false_iff]
    intro hname
    rw [(hnames key).mp hname] at hmem
    exact cacheDir_notMem_earlyKeys hmem
  have hover : formattedOver text p.skipped p.token = text := by
    rw [formattedOver, hskipped, if_pos (Nat.zero_le _)]
    rfl
  rw [parseToken, confKeys, parseKeys_append, hearly]
  show parseKeys host (.cacheDir :: lateKeys) p = _
  rw [parseKeys, parseKey, if_pos ((hnames .cacheDir).mpr rfl), hassigned]
  rw [hskipped] at hover
  simp only [assignKey, confSetFullCacheDir, hskipped]
  cases hmade : host.mkdir (p.taken + 1) with
  | false => rfl
  | true =>
    simp only [if_true, removeTrailingSlashes]
    cases hall : text.all (· = '/') with
    | true => simp only [if_true, Exec.undefined_bind]
    | false =>
      simp only [Bool.false_eq_true, if_false, Exec.done_bind, if_true]
      rfl

/-- The later keys, compared with the text that was formatted over the line, leave their fields alone exactly when
each assignment that the text makes changes nothing. -/
theorem parseKeys_late_iff {s s₁ : Settings} (hset : s.ChangesOnly .cacheDir s₁) (text : CStr) (taken : ℕ) :
    (∃ p' ok, parseKeys host lateKeys ⟨s₁, text, 0, taken⟩ = .done (p', ok) ∧
      s.ChangesOnly .cacheDir p'.settings) ↔
    ∀ other ∈ lateKeys, other.names text = true → ∀ value, assigned text = some value →
      s.Indifferent other value := by
  have hrest : ∀ {other}, other ∈ lateKeys → other ≠ .cacheDir := by
    rintro other hmem rfl
    exact cacheDir_notMem_lateKeys hmem
  simp only [hset.iff_of_changesOnly]
  cases hvalue : assigned text with
  | none =>
    obtain ⟨ok, hrun⟩ := parseKeys_unassigned host lateKeys (p := ⟨s₁, text, 0, taken⟩) hvalue
    constructor
    · intro _ other _ _ value heq
      cases heq
    · intro _
      exact ⟨_, ok, hrun, fun _ _ => rfl, ⟨rfl, rfl, rfl, rfl⟩⟩
  | some value =>
    have hkeys : (∃ p' ok, parseKeys host lateKeys ⟨s₁, text, 0, taken⟩ = .done (p', ok) ∧
          s₁.ChangesOnly .cacheDir p'.settings) ↔
        ∀ other ∈ lateKeys, other.names text = true → s₁.takes other value = true ∧
          (other ≠ .cacheDir → s₁.stored other value = s₁.held other) :=
      parseKeys_changesOnly_iff host (List.nodup_append.mp plainKeys_nodup).2.1 cacheDir_notMem_lateKeys hvalue
        .cacheDir
    rw [hkeys]
    constructor
    · intro h other hmem hnamed value' heq
      obtain rfl := Option.some.inj heq
      obtain ⟨htakes, hstored⟩ := h other hmem hnamed
      exact (Settings.indifferent_congr (hset.held other (hrest hmem)) value).mp ⟨htakes, hstored (hrest hmem)⟩
    · intro h other hmem hnamed
      obtain ⟨htakes, hstored⟩ := (Settings.indifferent_congr (hset.held other (hrest hmem)) value).mpr
        (h other hmem hnamed value rfl)
      exact ⟨htakes, fun _ => hstored⟩

/-- A line of the cache directory that returns and changes that directory only. -/
theorem parseToken_cacheDir_iff {p : ConfParser} {value : CStr} (hassigned : assigned p.token = some value)
    (hskipped : p.skipped = 0) (hnames : ∀ other : ConfKey, other.names p.token = true ↔ other = .cacheDir) :
    (∃ p' ok, parseToken host p = .done (p', ok) ∧ p.settings.ChangesOnly .cacheDir p'.settings) ↔
      Contained host .cacheDir value p := by
  have hset : ∀ dir : CStr, p.settings.ChangesOnly .cacheDir { p.settings with cacheDir := dir } := by
    intro dir
    refine ⟨fun other hother => ?_, ⟨rfl, rfl, rfl, rfl⟩⟩
    cases other <;> first | rfl | exact absurd rfl hother
  rw [parseToken_cacheDir_eq host hassigned hskipped hnames]
  simp only [Contained]
  generalize tmpstrPrintf (slashed (storeStr value p.settings.cacheDir) host.curBucket) = text
  cases hmade : host.mkdir (p.taken + 1) with
  | false =>
    simp only [Bool.false_eq_true, if_false, false_imp_iff, iff_true]
    exact ⟨_, _, rfl, hset _⟩
  | true =>
    simp only [if_true, forall_const]
    cases hall : text.all (· = '/') with
    | true =>
      simp only [if_true, Bool.true_eq_false, false_and, iff_false]
      rintro ⟨p', ok, hrun, -⟩
      cases hrun
    | false =>
      simp only [Bool.false_eq_true, if_false, true_and]
      by_cases hround : (p.taken + 1) % tmpstrNb = 0
      · simp only [hround, if_true, forall_const]
        exact parseKeys_late_iff host (hset _) text (p.taken + 1)
      · simp only [hround, if_false, false_imp_iff, iff_true]
        refine ⟨_, true, parseKeys_unnamed host fun key hmem => ?_, hset _⟩
        rw [Bool.eq_false_iff]
        intro hname
        rw [(hnames key).mp hname] at hmem
        exact cacheDir_notMem_lateKeys hmem

/-- A line of the file changes the setting of its key only, exactly when what it does stays with that key. -/
theorem parseLine_contained_iff (key : ConfKey) (spelled spaces value : CStr) (p : ConfParser)
    (hline : Spells key spelled spaces) :
    (∃ p' ok, parseLine host (spelled ++ spaces ++ '=' :: value) p = .done (p', ok) ∧
      p.settings.ChangesOnly key p'.settings) ↔ Contained host key (value.dropWhile isSpace) p := by
  rw [hline.parseLine_eq host value p]
  have hassigned := hline.assigned_eq value
  have hnames := hline.names_iff value
  generalize spelled ++ spaces ++ '=' :: value = line at hassigned hnames
  generalize value.dropWhile isSpace = v at hassigned
  by_cases hkey : key = .cacheDir
  · subst hkey
    exact parseToken_cacheDir_iff host (p := { p with token := line, skipped := 0 }) hassigned rfl
      fun other => (hnames other).trans (by simp)
  have hnot : ConfKey.cacheDir.names line = false := by
    rw [Bool.eq_false_iff, ne_eq, hnames .cacheDir]
    rintro (heq | ⟨heq, -⟩)
    · exact hkey heq.symm
    · cases heq
  rw [parseToken_plain host (p := { p with token := line, skipped := 0 }) hnot,
    parseKeys_changesOnly_iff host plainKeys_nodup cacheDir_notMem_plainKeys
      (p := { p with token := line, skipped := 0 }) hassigned key]
  constructor
  · intro h
    obtain ⟨htakes, -⟩ := h key (ConfKey.mem_plainKeys hkey) ((hnames key).mpr (.inl rfl))
    cases key with
    | logLevel =>
      have hvalue : v ≠ [] := of_decide_eq_true htakes
      exact hvalue
    | profilingLogfile =>
      obtain ⟨htakes', hstored⟩ := h (.number .profiling) (ConfKey.mem_plainKeys (by decide))
        ((hnames _).mpr (.inr ⟨rfl, rfl⟩))
      exact ⟨htakes, htakes', hstored (by decide)⟩
    | cacheDir => exact absurd rfl hkey
    | compressionMethod | number | exclusionPattern | encryptionMethod => trivial
  · intro h other _ hnamed
    rcases (hnames other).mp hnamed with rfl | ⟨rfl, rfl⟩
    · refine ⟨?_, fun hother => absurd rfl hother⟩
      cases other with
      | logLevel =>
        have hvalue : v ≠ [] := h
        exact decide_eq_true hvalue
      | profilingLogfile => exact h.1
      | compressionMethod | number | cacheDir | exclusionPattern | encryptionMethod => rfl
    · exact ⟨h.2.1, fun _ => h.2.2⟩

end Lines

/-- A host with nothing in its environment. -/
def Host.bare : Host where
  getenv _ := none
  fopen _ := none
  mkdir _ := true
  regcomp _ := true
  curBucket := "b".toList

/-- The parser at the first line, with the profiler switched on. -/
def ConfParser.profiled : ConfParser where
  settings := { Settings.factory Host.bare with number := Function.update ConfNumber.factory .profiling 1 }
  token := []
  skipped := 0
  taken := 0

/-- A delay is set, whatever the case of its key and the spaces behind it. -/
theorem delay_line_contained :
    ∃ p' ok, parseLine Host.bare ("GC_Loop_Delay".toList ++ "  ".toList ++ '=' :: " 5".toList) ConfParser.profiled =
        .done (p', ok) ∧
      ConfParser.profiled.settings.ChangesOnly (.number .gcLoopDelay) p'.settings :=
  (parseLine_contained_iff Host.bare (.number .gcLoopDelay) "GC_Loop_Delay".toList "  ".toList " 5".toList
    ConfParser.profiled ⟨by decide, List.all_eq_true.mp rfl⟩).mpr trivial

/-- A line of the log file that leaves it as it is switches the profiler off. -/
theorem logfile_line_stops_profiler :
    Spells .profilingLogfile "profiling_logfile".toList [] ∧
      ¬ ∃ p' ok, parseLine Host.bare ("profiling_logfile".toList ++ [] ++ '=' :: []) ConfParser.profiled =
          .done (p', ok) ∧
        ConfParser.profiled.settings.ChangesOnly .profilingLogfile p'.settings := by
  refine ⟨⟨by decide, List.all_eq_true.mp rfl⟩, ?_⟩
  rintro ⟨p', ok, hrun, hchanges⟩
  have hline : parseLine Host.bare ("profiling_logfile".toList ++ [] ++ '=' :: []) ConfParser.profiled =
      .done (⟨{ ConfParser.profiled.settings with
        number := Function.update ConfParser.profiled.settings.number ConfNumber.profiling (strtoulInt []) },
        "profiling_logfile=".toList, 0, 0⟩, true) := rfl
  obtain ⟨rfl, -⟩ := Prod.mk.inj (Exec.done.inj (hline.symm.trans hrun))
  have hprofiling := ConfValue.number.inj (hchanges.held (.number .profiling) (by decide))
  have hnew : Function.update ConfParser.profiled.settings.number .profiling (strtoulInt []) .profiling = 0 := by
    rw [Function.update_self]
    decide
  have hold : ConfParser.profiled.settings.number .profiling = 1 := by
    show Function.update ConfNumber.factory .profiling 1 .profiling = 1
    rw [Function.update_self]
  have hsame : (0 : ℤ) = 1 := hnew.symm.trans (hprofiling.trans hold)
  cases hsame

end Dropletfs
