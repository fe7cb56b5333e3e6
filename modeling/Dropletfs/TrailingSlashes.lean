import Dropletfs.ConfLines

/-!
# Stripping trailing slashes

Two functions of the configuration replace the trailing slashes of a string by NUL, with a
pointer that walks back from the last character and stops at the first that is no slash. Here
the walk is over the positions of the string, its terminating NUL included, and an access to any
other position is undefined. Nothing stops the walk at the start of the string.
-/

namespace Dropletfs

/-- The loop `while (p && *p && '/' == *p) *p-- = 0`, from a position on. -/
def stripLoop (buf : List Char) (p : ℤ) : Exec (List Char) :=
  if p < 0 then .undefined
  else
    match buf[p.toNat]? with
    | none => .undefined
    | some c =>
      if c ≠ '\x00' ∧ c = '/' then stripLoop (buf.set p.toNat '\x00') (p - 1) else .done buf
termination_by (p + 1).toNat
decreasing_by omega

/-- The loop on a string, from `p = s + strlen(s) - 1` on, and the string it leaves. -/
def stripString (s : CStr) : Exec CStr :=
  stripLoop (s ++ ['\x00']) ((s.length : ℤ) - 1) >>= fun buf => .done (cString buf)

/-- `conf_set_root_dir`, with the walk. -/
def confSetRootDirIn (s : Settings) (rootDir : Option CStr) : Exec Settings :=
  match rootDir with
  | none => .done s
  | some dir => stripString dir >>= fun dir => .done { s with rootDir := some dir }

/-- `conf_set_full_cache_dir`, with the walk. -/
def confSetFullCacheDirIn (host : Host) (call : ℕ) (s : Settings) : Exec (Settings × Bool) :=
  let cache := tmpstrPrintf (slashed s.cacheDir host.curBucket)
  if host.mkdir call then
    stripString cache >>= fun dir => .done ({ s with cacheDir := dir }, true)
  else .done ({ s with cacheDir := cache }, false)

/-- The walk replaces a slash, and goes back. -/
theorem stripLoop_slash (front tail : List Char) :
    stripLoop (front ++ '/' :: tail) front.length = stripLoop (front ++ '\x00' :: tail) ((front.length : ℤ) - 1) := by
  rw [stripLoop, if_neg (by omega), Int.toNat_natCast, List.getElem?_append_right le_rfl, Nat.sub_self]
  simp only [List.getElem?_cons_zero]
  rw [if_pos (by decide), List.set_append_right _ _ le_rfl, Nat.sub_self, List.set_cons_zero]

/-- The walk stops at a character that is no slash. -/
theorem stripLoop_stop (front : List Char) {c : Char} (tail : List Char) (h : c ≠ '/') :
    stripLoop (front ++ c :: tail) front.length = .done (front ++ c :: tail) := by
  rw [stripLoop, if_neg (by omega), Int.toNat_natCast, List.getElem?_append_right le_rfl, Nat.sub_self]
  simp only [List.getElem?_cons_zero]
  rw [if_neg fun hslash => h hslash.2]

/-- The walk over some slashes. -/
theorem stripLoop_slashes (front : List Char) (k : ℕ) (tail : List Char) :
    stripLoop (front ++ List.replicate k '/' ++ tail) (((front.length + k : ℕ) : ℤ) - 1) =
      stripLoop (front ++ List.replicate k '\x00' ++ tail) ((front.length : ℤ) - 1) := by
  induction k generalizing tail with
  | zero => rfl
  | succ k ih =>
    have hposition : ((front.length + (k + 1) : ℕ) : ℤ) - 1 = ((front ++ List.replicate k '/').length : ℕ) := by
      rw [List.length_append, List.length_replicate]
      omega
    have hback : (((front ++ List.replicate k '/').length : ℕ) : ℤ) - 1 = ((front.length + k : ℕ) : ℤ) - 1 := by
      rw [List.length_append, List.length_replicate]
    have hlast (c : Char) : front ++ List.replicate (k + 1) c ++ tail = front ++ List.replicate k c ++ c :: tail := by
      rw [List.replicate_succ', ← List.append_assoc, List.append_assoc _ [c], List.singleton_append]
    rw [hposition, hlast '/', stripLoop_slash, hback, ih, hlast '\x00']

/-- A string is what is left of it without its trailing slashes, and these. -/
theorem rdropWhile_append_slashes (s : CStr) :
    s = s.rdropWhile (· = '/') ++ List.replicate (s.rtakeWhile (· = '/')).length '/' := by
  have hslashes : s.rtakeWhile (· = '/') = List.replicate (s.rtakeWhile (· = '/')).length '/' :=
    List.eq_replicate_of_mem fun c hmem =>
      of_decide_eq_true (List.mem_rtakeWhile_imp (p := fun c => decide (c = '/')) hmem)
  rw [← hslashes]
  exact List.rdropWhile_append_rtakeWhile.symm

/-- A string of slashes makes the walk leave the string at its start. -/
theorem stripString_all (s : CStr) (h : ∀ c ∈ s, c = '/') : stripString s = .undefined := by
  have hs : s = List.replicate s.length '/' := List.eq_replicate_of_mem h
  have hwalk := stripLoop_slashes [] s.length ['\x00']
  rw [List.nil_append, ← hs, List.length_nil, Nat.zero_add] at hwalk
  rw [stripString, hwalk, stripLoop, if_pos (by decide)]
  rfl

/-- With any other character in it, the walk leaves the string without its trailing slashes. -/
theorem stripString_some {s : CStr} (hnul : '\x00' ∉ s) (h : ∃ c ∈ s, c ≠ '/') :
    stripString s = .done (s.rdropWhile (· = '/')) := by
  have hsplit := rdropWhile_append_slashes s
  have hne : s.rdropWhile (· = '/') ≠ [] := by
    intro hnil
    obtain ⟨c, hmem, hc⟩ := h
    exact hc (of_decide_eq_true (List.rdropWhile_eq_nil_iff.mp hnil c hmem))
  have hlast : (s.rdropWhile (· = '/')).getLast hne ≠ '/' := fun heq =>
    List.rdropWhile_last_not (fun c => decide (c = '/')) s hne (decide_eq_true heq)
  have hnul' : '\x00' ∉ s.rdropWhile (· = '/') := fun hmem => hnul ((List.rdropWhile_prefix _ _).subset hmem)
  generalize s.rdropWhile (· = '/') = body at *
  generalize (s.rtakeWhile (· = '/')).length = k at *
  obtain ⟨front, last, rfl⟩ : ∃ front last, body = front ++ [last] :=
    ⟨body.dropLast, body.getLast hne, (List.dropLast_concat_getLast hne).symm⟩
  rw [List.getLast_append_singleton] at hlast
  have hwalk := stripLoop_slashes (front ++ [last]) k ['\x00']
  have hend : ((front ++ [last]).length : ℤ) - 1 = front.length := by
    rw [List.length_append, List.length_singleton]
    omega
  have hlength : (s.length : ℤ) = ((front ++ [last]).length + k : ℕ) := by
    rw [hsplit, List.length_append, List.length_replicate]
  have hstop := stripLoop_stop front (List.replicate k '\x00' ++ ['\x00']) hlast
  have hjoin : front ++ last :: (List.replicate k '\x00' ++ ['\x00']) =
      front ++ [last] ++ (List.replicate k '\x00' ++ ['\x00']) := by
    rw [List.append_assoc, List.singleton_append]
  have hzeros : cString (List.replicate k '\x00' ++ ['\x00']) = [] := by cases k <;> rfl
  rw [hend, List.append_assoc _ _ ['\x00'], List.append_assoc _ _ ['\x00'], ← hjoin, hstop] at hwalk
  rw [stripString, hlength, hsplit, List.append_assoc _ _ ['\x00'], hwalk, Exec.done_bind, hjoin, cString_append hnul',
    hzeros, List.append_nil]

/-- The walk does what the configuration is modelled with. -/
theorem stripString_eq {s : CStr} (hnul : '\x00' ∉ s) : stripString s = removeTrailingSlashes s := by
  unfold removeTrailingSlashes
  by_cases hall : ∀ c ∈ s, c = '/'
  · rw [stripString_all s hall, if_pos (List.all_eq_true.mpr fun c hmem => decide_eq_true (hall c hmem))]
  · have hsome : ∃ c ∈ s, c ≠ '/' := by
      push Not at hall
      exact hall
    rw [stripString_some hnul hsome, if_neg fun hslashes => hall fun c hmem =>
      of_decide_eq_true (List.all_eq_true.mp hslashes c hmem)]

/-- So does `conf_set_root_dir`. -/
theorem confSetRootDirIn_eq (s : Settings) (rootDir : Option CStr) (hnul : ∀ dir ∈ rootDir, '\x00' ∉ dir) :
    confSetRootDirIn s rootDir = confSetRootDir s rootDir := by
  cases rootDir with
  | none => rfl
  | some dir => rw [confSetRootDirIn, confSetRootDir, stripString_eq (hnul dir rfl)]

/-- And so does `conf_set_full_cache_dir`. -/
theorem confSetFullCacheDirIn_eq (host : Host) (call : ℕ) (s : Settings)
    (hnul : '\x00' ∉ slashed s.cacheDir host.curBucket) :
    confSetFullCacheDirIn host call s = confSetFullCacheDir host call s := by
  have hcut : '\x00' ∉ tmpstrPrintf (slashed s.cacheDir host.curBucket) := fun hmem => hnul (List.mem_of_mem_take hmem)
  rw [confSetFullCacheDirIn, confSetFullCacheDir, stripString_eq hcut]

/-- The longest prefix of a string that does not end in a slash. -/
structure LongestUnslashed (s front : CStr) : Prop where
  isPrefix : front <+: s
  last : front.getLast? ≠ some '/'
  longest : ∀ other, other <+: s → other.getLast? ≠ some '/' → other.length ≤ front.length

/-- It is what is left without the trailing slashes. -/
theorem longestUnslashed_rdropWhile (s : CStr) : LongestUnslashed s (s.rdropWhile (· = '/')) where
  isPrefix := List.rdropWhile_prefix ..
  last hlast := by
    have hne : s.rdropWhile (· = '/') ≠ [] := by
      intro hnil
      rw [hnil] at hlast
      cases hlast
    rw [List.getLast?_eq_some_getLast hne, Option.some.injEq] at hlast
    exact List.rdropWhile_last_not (fun c => decide (c = '/')) s hne (decide_eq_true hlast)
  longest other hstart hother := by
    by_contra hlonger
    have hsplit := rdropWhile_append_slashes s
    generalize s.rdropWhile (· = '/') = front at hsplit hlonger
    have hfront : front <+: s := ⟨_, hsplit.symm⟩
    -- a longer prefix goes on with some of the slashes, and ends with one
    obtain ⟨more, rfl⟩ := List.prefix_of_prefix_length_le hfront hstart (by omega)
    rw [hsplit, List.prefix_append_right_inj] at hstart
    have hmore : more ≠ [] := by
      rintro rfl
      exact hlonger (by rw [List.append_nil])
    have hlast := List.eq_of_mem_replicate (hstart.subset (List.getLast_mem hmore))
    rw [List.getLast?_append_of_ne_nil _ hmore, List.getLast?_eq_some_getLast hmore, hlast] at hother
    exact hother rfl

/-- The walk stays in the string and leaves its longest such prefix exactly when the string has another character
than slashes. -/
theorem stripString_iff {s : CStr} (hnul : '\x00' ∉ s) :
    (∃ front, stripString s = .done front ∧ LongestUnslashed s front) ↔ ∃ c ∈ s, c ≠ '/' := by
  constructor
  · rintro ⟨front, hstrip, -⟩
    by_contra hall
    push Not at hall
    rw [stripString_all s hall] at hstrip
    cases hstrip
  · intro hsome
    exact ⟨_, stripString_some hnul hsome, longestUnslashed_rdropWhile s⟩

/-- At both places the walk stays in its string and leaves the longest prefix that does not end in a slash, exactly
when the string has another character than slashes. -/
theorem slashes_stripped_iff (host : Host) (call : ℕ) (s : Settings) (dir : CStr) (hdir : '\x00' ∉ dir)
    (hcache : '\x00' ∉ slashed s.cacheDir host.curBucket) (hmkdir : host.mkdir call = true) :
    ((∃ s' front, confSetRootDirIn s (some dir) = .done s' ∧ s'.rootDir = some front ∧ LongestUnslashed dir front) ↔
      ∃ c ∈ dir, c ≠ '/') ∧
    ((∃ s', confSetFullCacheDirIn host call s = .done (s', true) ∧
        LongestUnslashed (tmpstrPrintf (slashed s.cacheDir host.curBucket)) s'.cacheDir) ↔
      ∃ c ∈ tmpstrPrintf (slashed s.cacheDir host.curBucket), c ≠ '/') := by
  have hcut : '\x00' ∉ tmpstrPrintf (slashed s.cacheDir host.curBucket) := fun hmem =>
    hcache (List.mem_of_mem_take hmem)
  constructor
  · rw [← stripString_iff hdir]
    constructor
    · rintro ⟨s', front, hcall, hroot, hlongest⟩
      obtain ⟨stripped, hstrip, hset⟩ := Exec.bind_eq_done.mp hcall
      obtain rfl := Exec.done.inj hset
      obtain rfl := Option.some.inj hroot
      exact ⟨stripped, hstrip, hlongest⟩
    · rintro ⟨front, hstrip, hlongest⟩
      exact ⟨_, front, Exec.bind_eq_done.mpr ⟨front, hstrip, rfl⟩, rfl, hlongest⟩
  · rw [← stripString_iff hcut, confSetFullCacheDirIn]
    simp only [if_pos hmkdir]
    constructor
    · rintro ⟨s', hcall, hlongest⟩
      obtain ⟨stripped, hstrip, hset⟩ := Exec.bind_eq_done.mp hcall
      obtain ⟨rfl, -⟩ := Prod.mk.inj (Exec.done.inj hset)
      exact ⟨stripped, hstrip, hlongest⟩
    · rintro ⟨front, hstrip, hlongest⟩
      exact ⟨_, Exec.bind_eq_done.mpr ⟨front, hstrip, rfl⟩, hlongest⟩

/-- For an empty mount directory, and for the root, the walk goes on before the start of the string. -/
theorem slashes_passed :
    confSetRootDirIn (Settings.factory .bare) (some []) = .undefined ∧
      confSetRootDirIn (Settings.factory .bare) (some "/".toList) = .undefined ∧
      confSetFullCacheDirIn { Host.bare with curBucket := "/".toList } 0
        { Settings.factory .bare with cacheDir := "/".toList } = .undefined := by
  have hempty : stripString [] = .undefined := stripString_all [] (by simp)
  have hroot : stripString "/".toList = .undefined := stripString_all _ (by simp)
  have hcache : stripString "///".toList = .undefined := stripString_all _ (by simp)
  refine ⟨?_, ?_, ?_⟩
  · rw [confSetRootDirIn, hempty]
    rfl
  · rw [confSetRootDirIn, hroot]
    rfl
  · unfold confSetFullCacheDirIn
    exact congrArg (· >>= _) hcache

/-- A mount directory with two trailing slashes loses them. -/
theorem slashes_stripped_mount :
    (∃ s' front, confSetRootDirIn (Settings.factory .bare) (some "/mnt//".toList) = .done s' ∧
      s'.rootDir = some front ∧ LongestUnslashed "/mnt//".toList front) ↔ ∃ c ∈ "/mnt//".toList, c ≠ '/' :=
  (slashes_stripped_iff .bare 0 (Settings.factory .bare) "/mnt//".toList (by decide) (by decide) rfl).1

end Dropletfs
