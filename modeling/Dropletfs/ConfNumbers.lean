import Dropletfs.ConfLines

/-!
# Integer settings

The text of an integer setting is read as an unsigned 64-bit number and cut to an `int`, the
same way in the file and in the environment. A number that does not fit in an `int` is stored
as the number that its last 32 bits make, or as `-1` when it does not even fit in 64 bits.
-/

namespace Dropletfs

/-- The sign in front of a number. -/
inductive Sign where
  | none
  | plus
  | minus
  deriving DecidableEq, Repr

/-- The text of a sign. -/
def Sign.text : Sign → CStr
  | .none => []
  | .plus => "+".toList
  | .minus => "-".toList

/-- A number in decimal, behind spaces and a sign. -/
structure Numeral where
  spaces : CStr
  sign : Sign
  digits : CStr
  spaces_isSpace : ∀ c ∈ spaces, isSpace c = true
  digits_ne_nil : digits ≠ []
  digits_isDigit : ∀ c ∈ digits, c.isDigit = true

namespace Numeral

/-- The text of the number. -/
def text (numeral : Numeral) : CStr := numeral.spaces ++ (numeral.sign.text ++ numeral.digits)

/-- The number without its sign. -/
def magnitude (numeral : Numeral) : ℕ := Nat.ofDigitChars 10 numeral.digits 0

/-- The integer that the text denotes. -/
def value (numeral : Numeral) : ℤ :=
  match numeral.sign with
  | .minus => -(numeral.magnitude : ℤ)
  | _ => numeral.magnitude

end Numeral

/-- The integer fits in an `int`. -/
def FitsInt (n : ℤ) : Prop := -2 ^ 31 ≤ n ∧ n < 2 ^ 31

instance (n : ℤ) : Decidable (FitsInt n) := inferInstanceAs (Decidable (_ ∧ _))

/-- What becomes of an integer on its way through `unsigned long` to `int`. -/
def wrapped (n : ℤ) : ℤ := if n.natAbs < 2 ^ 64 then Int.bmod n (2 ^ 32) else -1

/-- An integer that fits is not changed on the way. -/
theorem wrapped_of_fits {n : ℤ} (h : FitsInt n) : wrapped n = n := by
  obtain ⟨hmin, hmax⟩ := h
  have habs : n.natAbs < 2 ^ 64 := by omega
  rw [wrapped, if_pos habs]
  apply Int.bmod_eq_of_le <;> omega

namespace Numeral

/-- The digits are not spaces. -/
theorem isSpace_of_digit {c : Char} (h : c.isDigit = true) : isSpace c = false := by
  rw [Bool.eq_false_iff]
  intro hspace
  simp only [isSpace, Bool.or_eq_true, decide_eq_true_eq] at hspace
  rcases hspace with ((((rfl | rfl) | rfl) | rfl) | rfl) | rfl <;> exact absurd h (by decide)

/-- `strtoul` comes to the sign behind the spaces. -/
theorem text_dropWhile (numeral : Numeral) :
    numeral.text.dropWhile isSpace = numeral.sign.text ++ numeral.digits := by
  have hsign : (numeral.sign.text ++ numeral.digits).dropWhile isSpace = numeral.sign.text ++ numeral.digits := by
    cases numeral.sign with
    | plus => rfl
    | minus => rfl
    | none =>
      cases hdigits : numeral.digits with
      | nil => exact absurd hdigits numeral.digits_ne_nil
      | cons c rest =>
        have hspace := isSpace_of_digit (numeral.digits_isDigit c (hdigits ▸ List.mem_cons_self))
        show (c :: rest).dropWhile isSpace = c :: rest
        rw [List.dropWhile_cons, hspace]
        rfl
  rw [text, List.dropWhile_append_of_pos numeral.spaces_isSpace, hsign]

/-- All the digits count. -/
theorem leadingDigits_digits (numeral : Numeral) : leadingDigits numeral.digits = numeral.magnitude := by
  rw [leadingDigits, List.takeWhile_eq_self_iff.mpr numeral.digits_isDigit]
  rfl

/-- A first digit is no sign. -/
theorem strtoull_digits {s digits : CStr} (hs : s.dropWhile isSpace = digits)
    (hdigit : ∀ c ∈ digits.head?, c.isDigit = true) : strtoull s = min (leadingDigits digits) (2 ^ 64 - 1) := by
  unfold strtoull
  rw [hs]
  split
  · rename_i rest
    exact absurd (hdigit '-' rfl) (by decide)
  · rename_i rest
    exact absurd (hdigit '+' rfl) (by decide)
  · rfl

/-- The unsigned number that `strtoul` makes of the text. -/
theorem strtoull_text (numeral : Numeral) :
    strtoull numeral.text =
      if numeral.magnitude < 2 ^ 64 then unsignedLong numeral.value else 2 ^ 64 - 1 := by
  have hrest := numeral.text_dropWhile
  have hcount := numeral.leadingDigits_digits
  have hpositive : ∀ n : ℕ, min n (2 ^ 64 - 1) = if n < 2 ^ 64 then unsignedLong n else 2 ^ 64 - 1 := by
    intro n
    unfold unsignedLong
    split <;> omega
  cases hsign : numeral.sign with
  | none =>
    have hdigits : numeral.text.dropWhile isSpace = numeral.digits := by
      rw [hrest, hsign]
      rfl
    have hdigit : ∀ c ∈ numeral.digits.head?, c.isDigit = true := fun c hc =>
      numeral.digits_isDigit c (List.mem_of_mem_head? hc)
    rw [strtoull_digits hdigits hdigit, hcount, hpositive, value, hsign]
  | plus =>
    rw [hsign] at hrest
    have hplus : strtoull numeral.text = min (leadingDigits numeral.digits) (2 ^ 64 - 1) := by
      unfold strtoull
      rw [hrest]
      rfl
    rw [hplus, hcount, hpositive, value, hsign]
  | minus =>
    rw [hsign] at hrest
    have hminus : strtoull numeral.text =
        if leadingDigits numeral.digits < 2 ^ 64 then unsignedLong (-(leadingDigits numeral.digits : ℤ))
        else 2 ^ 64 - 1 := by
      unfold strtoull
      rw [hrest]
      rfl
    rw [hminus, hcount, value, hsign]

/-- The text is stored as the integer it denotes, wrapped. -/
theorem strtoulInt_text (numeral : Numeral) : strtoulInt numeral.text = wrapped numeral.value := by
  have habs : numeral.value.natAbs = numeral.magnitude := by
    unfold value
    split <;> omega
  unfold strtoulInt wrapped
  rw [strtoull_text, habs]
  by_cases hfits : numeral.magnitude < 2 ^ 64
  · rw [if_pos hfits, if_pos hfits]
    have hcast : ((unsignedLong numeral.value : ℕ) : ℤ) = numeral.value % 2 ^ 64 := by
      rw [unsignedLong]
      apply Int.toNat_of_nonneg
      omega
    calc Int.bmod (unsignedLong numeral.value) (2 ^ 32)
        = Int.bmod (numeral.value % 2 ^ 64) (2 ^ 32) := by rw [hcast]
      _ = Int.bmod (numeral.value % 2 ^ 64 % (2 ^ 32 : ℕ)) (2 ^ 32) := (Int.emod_bmod _ _).symm
      _ = Int.bmod (numeral.value % (2 ^ 32 : ℕ)) (2 ^ 32) := by
        congr 1
        omega
      _ = Int.bmod numeral.value (2 ^ 32) := Int.emod_bmod _ _
  · rw [if_neg hfits, if_neg hfits]
    decide

end Numeral

/-- The spaces before a value do not count. -/
theorem strtoulInt_dropWhile (value : CStr) : strtoulInt (value.dropWhile isSpace) = strtoulInt value := by
  have hread : strtoull (value.dropWhile isSpace) = strtoull value := by
    unfold strtoull
    rw [List.dropWhile_idempotent]
  unfold strtoulInt
  rw [hread]

/-- A line of an integer setting stores what `strtoul` makes of its value. -/
theorem parseLine_number (host : Host) {n : ConfNumber} {spelled spaces : CStr}
    (hline : Spells (.number n) spelled spaces) (value : CStr) (p : ConfParser) :
    ∃ p', parseLine host (spelled ++ spaces ++ '=' :: value) p = .done (p', true) ∧
      p'.settings.number n = strtoulInt value := by
  have hassigned := hline.assigned_eq value
  have hnames := hline.names_iff value
  have hnot : ConfKey.cacheDir.names (spelled ++ spaces ++ '=' :: value) = false := by
    rw [Bool.eq_false_iff, ne_eq, hnames]
    rintro (heq | ⟨heq, -⟩) <;> cases heq
  have hmem : ConfKey.number n ∈ earlyKeys ++ lateKeys := ConfKey.mem_plainKeys fun heq => by cases heq
  obtain ⟨s', hrun, hheld, -⟩ := parseKeys_takes host plainKeys_nodup cacheDir_notMem_plainKeys
    (p := { p with token := spelled ++ spaces ++ '=' :: value, skipped := 0 }) hassigned fun other _ hnamed => by
      rcases (hnames other).mp hnamed with rfl | ⟨-, heq⟩
      · rfl
      · cases heq
  refine ⟨_, (hline.parseLine_eq host value p).trans ((parseToken_plain host hnot).trans hrun), ?_⟩
  have hnumber := hheld (.number n)
  rw [if_pos ⟨hmem, (hnames _).mpr (.inl rfl)⟩] at hnumber
  exact (ConfValue.number.inj hnumber).trans (strtoulInt_dropWhile value)

/-- A variable of an integer setting stores what `strtoul` makes of its value, unless it is empty. -/
theorem envGenericSetInt_value (host : Host) (n : ConfNumber) {id value : CStr} (s : Settings)
    (hset : host.getenv id = some value) (hvalue : value ≠ []) :
    (envGenericSetInt host n id s).number n = strtoulInt value := by
  have hread : host.envValue id = some value := by
    rw [Host.envValue, hset, Option.filter_some, if_pos (decide_eq_true hvalue)]
  simp only [envGenericSetInt, hread]
  exact Function.update_self ..

/-- The file and the environment store the same value for the same text, and it is the integer denoted or the old
value, exactly when that integer fits or the old value happens to be the one it wraps to. -/
theorem number_stored_iff (host : Host) (n : ConfNumber) (spelled spaces : CStr) (numeral : Numeral) (id : CStr)
    (p : ConfParser) (hline : Spells (.number n) spelled spaces) (hset : host.getenv id = some numeral.text) :
    (∃ v p', parseLine host (spelled ++ spaces ++ '=' :: numeral.text) p = .done (p', true) ∧
        p'.settings.number n = v ∧ (envGenericSetInt host n id p.settings).number n = v ∧
        v = if FitsInt numeral.value then numeral.value else p.settings.number n) ↔
      FitsInt numeral.value ∨ p.settings.number n = wrapped numeral.value := by
  have htext : numeral.text ≠ [] := by
    intro hempty
    exact numeral.digits_ne_nil (List.append_eq_nil_iff.mp (List.append_eq_nil_iff.mp hempty).2).2
  obtain ⟨p', hrun, hfile⟩ := parseLine_number host hline numeral.text p
  have henv := envGenericSetInt_value host n p.settings hset htext
  rw [numeral.strtoulInt_text] at hfile henv
  constructor
  · rintro ⟨v, p'', hrun', hfile', -, hvalue⟩
    obtain ⟨rfl, -⟩ := Prod.mk.inj (Exec.done.inj (hrun.symm.trans hrun'))
    by_cases hfits : FitsInt numeral.value
    · exact .inl hfits
    · rw [if_neg hfits] at hvalue
      exact .inr (by rw [← hvalue, ← hfile', hfile])
  · intro h
    refine ⟨wrapped numeral.value, p', hrun, hfile, henv, ?_⟩
    by_cases hfits : FitsInt numeral.value
    · rw [if_pos hfits, wrapped_of_fits hfits]
    · rw [if_neg hfits]
      exact (h.resolve_left hfits).symm

/-- A host that gives a variable this value. -/
def Host.giving (id value : CStr) : Host :=
  { Host.bare with getenv := fun id' => if id' = id then some value else none }

/-- One week in seconds, behind a space and a sign. -/
def Numeral.week : Numeral :=
  ⟨" ".toList, .plus, "604800".toList, List.all_eq_true.mp rfl, by decide, List.all_eq_true.mp rfl⟩

/-- A week is stored as it is written. -/
theorem week_stored :
    ∃ v p', parseLine (Host.giving "DROPLETFS_GC_AGE_THRESHOLD".toList Numeral.week.text)
          ("gc_age_threshold".toList ++ " ".toList ++ '=' :: Numeral.week.text) ConfParser.profiled = .done (p', true) ∧
        p'.settings.number .gcAgeThreshold = v ∧
        (envGenericSetInt (Host.giving "DROPLETFS_GC_AGE_THRESHOLD".toList Numeral.week.text) .gcAgeThreshold
          "DROPLETFS_GC_AGE_THRESHOLD".toList ConfParser.profiled.settings).number .gcAgeThreshold = v ∧
        v = if FitsInt Numeral.week.value then Numeral.week.value
          else ConfParser.profiled.settings.number .gcAgeThreshold :=
  (number_stored_iff (Host.giving "DROPLETFS_GC_AGE_THRESHOLD".toList Numeral.week.text) .gcAgeThreshold
    "gc_age_threshold".toList " ".toList Numeral.week "DROPLETFS_GC_AGE_THRESHOLD".toList ConfParser.profiled
    ⟨by decide, List.all_eq_true.mp rfl⟩ rfl).mpr (.inl (by decide +kernel))

/-- Two to the power of 32, written out. -/
def Numeral.large : Numeral :=
  ⟨[], .none, "4294967296".toList, List.all_eq_true.mp rfl, by decide, List.all_eq_true.mp rfl⟩

/-- A delay too large for an `int` is stored as zero, which switches the collection off. -/
theorem large_delay_lost :
    ¬ ∃ v p', parseLine (Host.giving "DROPLETFS_GC_LOOP_DELAY".toList Numeral.large.text)
          ("gc_loop_delay".toList ++ [] ++ '=' :: Numeral.large.text) ConfParser.profiled = .done (p', true) ∧
        p'.settings.number .gcLoopDelay = v ∧
        (envGenericSetInt (Host.giving "DROPLETFS_GC_LOOP_DELAY".toList Numeral.large.text) .gcLoopDelay
          "DROPLETFS_GC_LOOP_DELAY".toList ConfParser.profiled.settings).number .gcLoopDelay = v ∧
        v = if FitsInt Numeral.large.value then Numeral.large.value
          else ConfParser.profiled.settings.number .gcLoopDelay := by
  rintro ⟨v, p', -, -, henv, hvalue⟩
  have hstored := @envGenericSetInt_value (Host.giving "DROPLETFS_GC_LOOP_DELAY".toList Numeral.large.text)
    .gcLoopDelay "DROPLETFS_GC_LOOP_DELAY".toList Numeral.large.text ConfParser.profiled.settings rfl
    (by decide +kernel)
  have hzero : strtoulInt Numeral.large.text = 0 := by decide +kernel
  have hold : (if FitsInt Numeral.large.value then Numeral.large.value
      else ConfParser.profiled.settings.number .gcLoopDelay) = 60 := by decide +kernel
  rw [hstored, hzero] at henv
  rw [hold, ← henv] at hvalue
  exact absurd hvalue (by decide)

end Dropletfs
