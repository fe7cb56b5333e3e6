import Mathlib.Data.BitVec
import Mathlib.Data.List.Basic
import Mathlib.Data.List.TakeWhile
import Mathlib.Data.Nat.Notation

/-!
# C strings, paths and cache names

A C string is the list of its characters before the terminating NUL. The functions here
are those the program calls on its paths, option values and metadata values: prefix
comparison, the last slash of a path, bounded formatting, and decimal numbers. Local file
names are compared after collapsing repeated slashes, as the file system resolves them.
-/

namespace Dropletfs

/-- The characters of a C string, without the terminating NUL. -/
abbrev CStr := List Char

/-- The bytes of a file or of a transfer. -/
abbrev Bytes := List UInt8

/-- Capacity of one string of the per-thread ring, `TMPSTR_MAX`. -/
def tmpstrMax : ℕ := 2048

/-- Number of strings in the per-thread ring, `TMPSTR_NB`. -/
def tmpstrNb : ℕ := 32

/-- `vsnprintf` into one string of the ring: what does not fit is cut off. -/
def tmpstrPrintf (text : CStr) : CStr := text.take (tmpstrMax - 1)

/-- `0 == strncmp(s, p, strlen(p))`. -/
def strncmpEq (p s : CStr) : Bool := p.isPrefixOf s

/-- `0 == strncasecmp(s, p, strlen(p))`. -/
def strncasecmpEq (p s : CStr) : Bool := (p.map Char.toLower).isPrefixOf (s.map Char.toLower)

/-- The part of the string before its last slash, if `strrchr` finds one. -/
def beforeLastSlash (path : CStr) : Option CStr :=
  match path.reverse.dropWhile (· != '/') with
  | [] => none
  | _ :: front => some front.reverse

/-- The part of the string after its last slash, or all of it. -/
def afterLastSlash (path : CStr) : CStr := (path.reverse.takeWhile (· != '/')).reverse

/-- The directory under which the table looks up the parent of a path: everything before the
last slash, or the root when that slash is the first character. -/
def parentName (path : CStr) : Option CStr :=
  (beforeLastSlash path).map fun front => if front = [] then "/".toList else front

/-- A trailing slash, if there is one, is replaced by the terminating NUL. -/
def dropTrailingSlash (s : CStr) : CStr := if s.getLast? = some '/' then s.dropLast else s

/-- The name a path resolves to locally: consecutive slashes count as one. -/
def collapse : CStr → CStr
  | [] => []
  | [c] => [c]
  | c :: d :: rest => if c = '/' ∧ d = '/' then collapse (d :: rest) else c :: collapse (d :: rest)

/-- The string in a buffer: what comes before the first NUL. -/
def cString (buf : List Char) : CStr := buf.takeWhile (· ≠ '\x00')

/-- `"%s/%s"` of a directory and a name. -/
def slashed (dir name : CStr) : CStr := dir ++ '/' :: name

/-- `"%lu"`. -/
def decimal (n : ℕ) : CStr := Nat.toDigits 10 n

/-- The conversion of a signed value to `unsigned long`. -/
def unsignedLong (v : ℤ) : ℕ := (v % 2 ^ 64).toNat

/-- `isspace` in the C locale. -/
def isSpace (c : Char) : Bool :=
  c = ' ' || c = '\t' || c = '\n' || c = '\x0b' || c = '\x0c' || c = '\r'

/-- The value of the leading decimal digits. -/
def leadingDigits (s : CStr) : ℕ :=
  (s.takeWhile Char.isDigit).foldl (fun n c => 10 * n + (c.toNat - '0'.toNat)) 0

/-- `strtoull(s, NULL, 10)`: spaces, a sign, digits; the largest value on overflow. -/
def strtoull (s : CStr) : ℕ :=
  match s.dropWhile isSpace with
  | '-' :: digits =>
    let n := leadingDigits digits
    if n < 2 ^ 64 then unsignedLong (-(n : ℤ)) else 2 ^ 64 - 1
  | '+' :: digits => min (leadingDigits digits) (2 ^ 64 - 1)
  | digits => min (leadingDigits digits) (2 ^ 64 - 1)

example : beforeLastSlash "/a/b".toList = some "/a".toList := by decide
example : parentName "/a".toList = some "/".toList := by decide
example : collapse "/tmp/b//a".toList = "/tmp/b/a".toList := by decide
example : strtoull " -1".toList = 2 ^ 64 - 1 := by decide

/-- Without NUL the string in a buffer is all of it. -/
theorem cString_of_noNul {buf : List Char} (h : '\x00' ∉ buf) : cString buf = buf := by
  rw [cString, List.takeWhile_eq_self_iff]
  intro c hmem
  apply decide_eq_true
  rintro rfl
  exact h hmem

/-- Behind a string without NUL, the string in a buffer goes on with what follows. -/
theorem cString_append {s : CStr} (h : '\x00' ∉ s) (rest : List Char) : cString (s ++ rest) = s ++ cString rest := by
  have hall : ∀ c ∈ s, decide (c ≠ '\x00') = true := by
    intro c hmem
    apply decide_eq_true
    rintro rfl
    exact h hmem
  rw [cString, List.takeWhile_append_of_pos hall]
  rfl

/-- The string in a buffer contains no NUL. -/
theorem noNul_cString (buf : List Char) : '\x00' ∉ cString buf := by
  intro hmem
  have hkept : decide ('\x00' ≠ '\x00') = true :=
    List.mem_takeWhile_imp (p := fun c => decide (c ≠ '\x00')) hmem
  exact of_decide_eq_true hkept rfl

/-- A text that fits is formatted unchanged. -/
theorem tmpstrPrintf_of_fits (text : CStr) (h : text.length < tmpstrMax) : tmpstrPrintf text = text := by
  apply List.take_of_length_le
  rw [tmpstrMax] at *
  omega

/-- A slash before a path that starts with one does not change the name it resolves to. -/
theorem collapse_slash_slash (rest : CStr) : collapse ('/' :: '/' :: rest) = collapse ('/' :: rest) := by
  simp [collapse]

/-- Names that resolve alike still do behind a common character. -/
theorem collapse_cons_congr (c : Char) (x y : CStr) (h : collapse ('/' :: x) = collapse ('/' :: y)) :
    collapse (c :: '/' :: x) = collapse (c :: '/' :: y) := by
  by_cases hc : c = '/' <;> simp [collapse, hc, h]

/-- Names that resolve alike still do behind a common directory. -/
theorem collapse_append_congr (dir x y : CStr) (h : collapse ('/' :: x) = collapse ('/' :: y)) :
    collapse (dir ++ '/' :: x) = collapse (dir ++ '/' :: y) := by
  induction dir with
  | nil => exact h
  | cons c dir ih =>
    cases dir with
    | nil => exact collapse_cons_congr c x y h
    | cons d dir =>
      simp only [List.cons_append] at ih ⊢
      by_cases hc : c = '/' ∧ d = '/'
      · obtain ⟨rfl, rfl⟩ := hc
        simpa only [collapse, and_self, if_true] using ih
      · simp only [collapse, if_neg hc, ih]

/-- The decimal form of a number reads back as the number. -/
theorem strtoull_decimal {n : ℕ} (h : n < 2 ^ 64) : strtoull (decimal n) = n := by
  have hdigits : ∀ c ∈ decimal n, c.isDigit = true := fun c hc =>
    Nat.isDigit_of_mem_toDigits (by decide) (by decide) hc
  have hvalue : leadingDigits (decimal n) = n := by
    rw [leadingDigits, List.takeWhile_eq_self_iff.mpr hdigits]
    exact Nat.ofDigitChars_ten_toDigits
  cases hform : decimal n with
  | nil => exact absurd hform Nat.toDigits_ne_nil
  | cons c rest =>
    rw [hform] at hvalue
    have hdigit : c.isDigit = true := hdigits c (hform ▸ List.mem_cons_self)
    have hspace : isSpace c = false := by
      by_contra hspace
      simp only [isSpace, Bool.not_eq_false, Bool.or_eq_true, decide_eq_true_eq] at hspace
      rcases hspace with ((((rfl | rfl) | rfl) | rfl) | rfl) | rfl <;> exact absurd hdigit (by decide)
    have hminus : c ≠ '-' := by
      rintro rfl
      exact absurd hdigit (by decide)
    have hplus : c ≠ '+' := by
      rintro rfl
      exact absurd hdigit (by decide)
    have hdrop : (c :: rest).dropWhile isSpace = c :: rest := by
      rw [List.dropWhile_cons, hspace]
      rfl
    unfold strtoull
    rw [hdrop]
    split
    · rename_i heq
      exact absurd (List.cons.inj heq).1 hminus
    · rename_i heq
      exact absurd (List.cons.inj heq).1 hplus
    · rw [hvalue]
      omega

end Dropletfs
