import Dropletfs.CacheNames

/-!
# The names of cache files near the limit

A string of the ring holds 2047 characters, and what is formatted into it beyond that is lost. The
functions that name a cache file put one slash, or one more, or fewer, between the cache
directory and the path, so a long path is cut at different places. Here is exactly when the
names still lead to one file, and when the names of different paths lead to different files.
-/

namespace Dropletfs

/-- The names of the cache file of a path: that of `build_cache_tree`, that of `dfs_get_local_copy`, and that of
`dfs_release`, `dfs_unlink`, `gc_callback` and `pentry_unlink_cache_file`. -/
def namesOf (conf : Conf) (path : CStr) : List CStr :=
  (buildCacheTree conf path true).toList ++ [copyName conf path, cacheName conf path]

/-- All the names lead to one file. -/
def NamesAgree (conf : Conf) (path : CStr) : Prop :=
  ∀ name ∈ namesOf conf path, ∀ other ∈ namesOf conf path, collapse name = collapse other

/-- No name of one path leads to the same file as a name of the other. -/
def NamesDiffer (conf : Conf) (path path' : CStr) : Prop :=
  ∀ name ∈ namesOf conf path, ∀ name' ∈ namesOf conf path', collapse name ≠ collapse name'

/-- The path contains no slash right after a slash. -/
def NoRepeatedSlashes (path : CStr) : Prop := ¬ "//".toList <:+: path

section Collapse

/-- A character at the end is lost only if it is a slash after a slash. -/
theorem collapse_concat (s : CStr) (c : Char) :
    collapse (s ++ [c]) = if c = '/' ∧ s.getLast? = some '/' then collapse s else collapse s ++ [c] := by
  induction s with
  | nil => simp [collapse]
  | cons d rest ih =>
    cases rest with
    | nil =>
      by_cases hslash : d = '/' ∧ c = '/'
      · obtain ⟨rfl, rfl⟩ := hslash
        rfl
      · have hnot : ¬ (c = '/' ∧ [d].getLast? = some '/') := by
          rintro ⟨hc, hd⟩
          exact hslash ⟨by simpa using hd, hc⟩
        simp only [List.singleton_append, collapse, if_neg hslash, if_neg hnot]
    | cons e rest =>
      rw [List.getLast?_cons_cons]
      simp only [List.cons_append] at ih ⊢
      simp only [collapse, ih]
      split <;> split <;> rfl

/-- Slashes before a string count as one, behind a directory. -/
theorem collapse_slashes (dir : CStr) (j : ℕ) (s : CStr) :
    collapse (dir ++ (List.replicate (j + 1) '/' ++ s)) = collapse (dir ++ '/' :: s) := by
  have hfront : collapse ('/' :: (List.replicate j '/' ++ s)) = collapse ('/' :: s) := by
    induction j with
    | zero => rfl
    | succ j ih => rw [List.replicate_succ, List.cons_append, collapse_slash_slash, ih]
  rw [List.replicate_succ, List.cons_append]
  exact collapse_append_congr dir _ _ hfront

/-- A string that does not start with a slash is collapsed by itself behind a directory. -/
theorem collapse_dir_append (dir : CStr) {s : CStr} (h : s.head? ≠ some '/') :
    collapse (dir ++ '/' :: s) = collapse (dir ++ ['/']) ++ collapse s := by
  cases s with
  | nil => exact (List.append_nil _).symm
  | cons c s =>
    have hc : c ≠ '/' := fun heq => h (by rw [heq]; rfl)
    have happend := collapse_append (dir ++ ['/']) c s hc
    rwa [List.append_assoc, List.singleton_append] at happend

variable {s : CStr}

/-- One more character of a string: it is lost only if it is a slash after a slash. -/
theorem collapse_take_succ (h : s.head? ≠ some '/') {n : ℕ} {c : Char} (hchar : s[n]? = some c) :
    collapse (s.take (n + 1)) =
      if c = '/' ∧ s[n - 1]? = some '/' then collapse (s.take n) else collapse (s.take n) ++ [c] := by
  have htake : s.take (n + 1) = s.take n ++ [c] := by
    rw [List.take_add_one, hchar]
    rfl
  have hlast : c = '/' ∧ (s.take n).getLast? = some '/' ↔ c = '/' ∧ s[n - 1]? = some '/' := by
    cases n with
    | zero =>
      have hc : c ≠ '/' := by
        rintro rfl
        exact h (by rw [List.head?_eq_getElem?, hchar])
      exact ⟨fun hslash => absurd hslash.1 hc, fun hslash => absurd hslash.1 hc⟩
    | succ n =>
      have hinside : n < s.length := by
        have hn := (List.getElem?_eq_some_iff.mp hchar).1
        omega
      rw [List.getLast?_take, if_neg (Nat.succ_ne_zero n), Nat.add_sub_cancel, List.getElem?_eq_getElem hinside,
        Option.some_or]
  rw [htake, collapse_concat]
  simp only [hlast]

/-- Nothing is added at the end of a string, or by a slash after a slash. -/
theorem collapse_take_silent (h : s.head? ≠ some '/') {n : ℕ}
    (hsilent : ∀ c, s[n]? = some c → c = '/' ∧ s[n - 1]? = some '/') :
    collapse (s.take (n + 1)) = collapse (s.take n) := by
  cases hchar : s[n]? with
  | none =>
    have hlength := List.getElem?_eq_none_iff.mp hchar
    rw [List.take_of_length_le (by omega), List.take_of_length_le hlength]
  | some c => rw [collapse_take_succ h hchar, if_pos (hsilent c hchar)]

/-- Anything else adds a character. -/
theorem collapse_take_loud (h : s.head? ≠ some '/') {n : ℕ}
    (hloud : ¬ ∀ c, s[n]? = some c → c = '/' ∧ s[n - 1]? = some '/') :
    ∃ c, collapse (s.take (n + 1)) = collapse (s.take n) ++ [c] := by
  push Not at hloud
  obtain ⟨c, hchar, hnot⟩ := hloud
  exact ⟨c, by rw [collapse_take_succ h hchar, if_neg fun hslash => hnot hslash.1 hslash.2]⟩

/-- Less of a string collapses to less. -/
theorem length_collapse_take_mono (h : s.head? ≠ some '/') {m n : ℕ} (hmn : m ≤ n) :
    (collapse (s.take m)).length ≤ (collapse (s.take n)).length := by
  induction n, hmn using Nat.le_induction with
  | base => exact le_rfl
  | succ n _ ih =>
    by_cases hsilent : ∀ c, s[n]? = some c → c = '/' ∧ s[n - 1]? = some '/'
    · rwa [collapse_take_silent h hsilent]
    · obtain ⟨c, hmore⟩ := collapse_take_loud h hsilent
      rw [hmore, List.length_append]
      omega

/-- Two prefixes of a string collapse alike exactly when the longer one adds only slashes after slashes. -/
theorem collapse_take_eq_iff (h : s.head? ≠ some '/') {m n : ℕ} (hmn : m ≤ n) :
    collapse (s.take m) = collapse (s.take n) ↔
      ∀ i, m ≤ i → i < n → ∀ c, s[i]? = some c → c = '/' ∧ s[i - 1]? = some '/' := by
  induction n, hmn using Nat.le_induction with
  | base => exact ⟨fun _ i hm hi => by omega, fun _ => rfl⟩
  | succ n hmn ih =>
    have hlength := length_collapse_take_mono h hmn
    by_cases hsilent : ∀ c, s[n]? = some c → c = '/' ∧ s[n - 1]? = some '/'
    · rw [collapse_take_silent h hsilent, ih]
      constructor
      · intro hall i hm hi
        by_cases hin : i = n
        · rw [hin]
          exact hsilent
        · exact hall i hm (by omega)
      · intro hall i hm hi
        exact hall i hm (by omega)
    · obtain ⟨c, hmore⟩ := collapse_take_loud h hsilent
      rw [hmore]
      constructor
      · intro heq
        -- the last character makes the longer one longer
        have hcount := congrArg List.length heq
        rw [List.length_append, List.length_singleton] at hcount
        omega
      · intro hall
        exact absurd (hall n hmn (Nat.lt_succ_self n)) hsilent

end Collapse

/-- The characters that fit behind the cache directory and a slash. -/
def Conf.room (conf : Conf) : ℕ := tmpstrMax - 2 - conf.cacheDir.length

/-- The slashes that a path starts with. -/
def leadingSlashes (path : CStr) : ℕ := (path.takeWhile (· == '/')).length

/-- A path without the slashes that it starts with. -/
def unslashed (path : CStr) : CStr := path.dropWhile (· == '/')

/-- The rest of a path does not start with a slash. -/
theorem unslashed_head? (path : CStr) : (unslashed path).head? ≠ some '/' := by
  intro hhead
  have hkept := List.head?_dropWhile_not (fun c : Char => c == '/') path
  unfold unslashed at hhead
  rw [hhead] at hkept
  simp at hkept

/-- A path is its leading slashes and the rest. -/
theorem eq_slashes_append (path : CStr) : path = List.replicate (leadingSlashes path) '/' ++ unslashed path := by
  have hslashes : path.takeWhile (· == '/') = List.replicate (leadingSlashes path) '/' :=
    List.eq_replicate_of_mem fun c hmem => by
      simpa using List.mem_takeWhile_imp (p := fun c : Char => c == '/') hmem
  rw [← hslashes]
  exact (List.takeWhile_append_dropWhile ..).symm

/-- An absolute path has one. -/
theorem leadingSlashes_pos {path : CStr} (h : path.head? = some '/') : 0 < leadingSlashes path := by
  cases path with
  | nil => cases h
  | cons c rest =>
    obtain rfl := Option.some.inj h
    simp [leadingSlashes]

section Formatted

variable {conf : Conf}

/-- Behind a cache directory that fills the string there is no room for a path. -/
theorem tmpstrPrintf_full (hfull : tmpstrMax - 1 ≤ conf.cacheDir.length) (s : CStr) :
    tmpstrPrintf (conf.cacheDir ++ s) = conf.cacheDir.take (tmpstrMax - 1) := by
  rw [tmpstrPrintf, List.take_append, Nat.sub_eq_zero_of_le hfull, List.take_zero, List.append_nil]

/-- What is formatted behind the cache directory: one slash, however many there are, and as much of the rest as
fits behind all of them. -/
theorem collapse_formatted (hroom : conf.cacheDir.length < tmpstrMax - 1) (j : ℕ) {s : CStr}
    (hs : s.head? ≠ some '/') :
    collapse (tmpstrPrintf (conf.cacheDir ++ (List.replicate (j + 1) '/' ++ s))) =
      collapse (conf.cacheDir ++ ['/']) ++ collapse (s.take (conf.room - j)) := by
  have hfits : conf.cacheDir.take (tmpstrMax - 1) = conf.cacheDir := List.take_of_length_le (by omega)
  have hsome : min (tmpstrMax - 1 - conf.cacheDir.length) (j + 1) =
      min (tmpstrMax - 1 - conf.cacheDir.length) (j + 1) - 1 + 1 := by omega
  have hrest : tmpstrMax - 1 - conf.cacheDir.length - (j + 1) = conf.room - j := by
    unfold Conf.room
    omega
  have hhead : (s.take (conf.room - j)).head? ≠ some '/' := by
    rw [List.head?_take]
    split
    · exact nofun
    · exact hs
  rw [tmpstrPrintf, List.take_append, hfits, List.take_append, List.take_replicate, List.length_replicate, hrest, hsome,
    collapse_slashes, collapse_dir_append _ hhead]

/-- The names of an absolute path, collapsed. -/
theorem collapse_names (hroom : conf.cacheDir.length < tmpstrMax - 1) {path : CStr} (h : path.head? = some '/') :
    buildCacheTree conf path true = some (tmpstrPrintf (slashed conf.cacheDir (unslashed path))) ∧
      collapse (tmpstrPrintf (slashed conf.cacheDir (unslashed path))) =
        collapse (conf.cacheDir ++ ['/']) ++ collapse ((unslashed path).take conf.room) ∧
      collapse (copyName conf path) =
        collapse (conf.cacheDir ++ ['/']) ++ collapse ((unslashed path).take (conf.room - (leadingSlashes path - 1))) ∧
      collapse (cacheName conf path) =
        collapse (conf.cacheDir ++ ['/']) ++ collapse ((unslashed path).take (conf.room - leadingSlashes path)) := by
  have hpos := leadingSlashes_pos h
  have hhead := unslashed_head? path
  refine ⟨rfl, collapse_formatted hroom 0 hhead, ?_, ?_⟩
  · have hcopy := collapse_formatted hroom (leadingSlashes path - 1) hhead
    rwa [Nat.sub_add_cancel hpos, ← eq_slashes_append path] at hcopy
  · have hcache := collapse_formatted hroom (leadingSlashes path) hhead
    rwa [List.replicate_succ, List.cons_append, ← eq_slashes_append path] at hcache

end Formatted

/-- The three names of a path. -/
theorem namesOf_eq (conf : Conf) (path : CStr) :
    namesOf conf path =
      [tmpstrPrintf (slashed conf.cacheDir (unslashed path)), copyName conf path, cacheName conf path] :=
  rfl

/-- Behind a cache directory that fills the string all names are the same. -/
theorem namesOf_full {conf : Conf} (hfull : tmpstrMax - 1 ≤ conf.cacheDir.length) (path : CStr) :
    ∀ name ∈ namesOf conf path, name = conf.cacheDir.take (tmpstrMax - 1) := by
  intro name hmem
  simp only [namesOf_eq, List.mem_cons, List.not_mem_nil, or_false] at hmem
  rcases hmem with rfl | rfl | rfl <;> exact tmpstrPrintf_full hfull _

/-- The names of an absolute path agree exactly when what the longest of them keeps beyond the shortest is nothing
but slashes after slashes. -/
theorem namesAgree_iff {conf : Conf} {path : CStr} (h : path.head? = some '/') :
    NamesAgree conf path ↔ ∀ i, conf.room - leadingSlashes path ≤ i → i < conf.room →
      ∀ c, (unslashed path)[i]? = some c → c = '/' ∧ (unslashed path)[i - 1]? = some '/' := by
  by_cases hroom : conf.cacheDir.length < tmpstrMax - 1
  · have hhead := unslashed_head? path
    have hpos := leadingSlashes_pos h
    obtain ⟨-, htree, hcopy, hcache⟩ := collapse_names hroom h
    unfold NamesAgree
    rw [namesOf_eq]
    constructor
    · intro hagree
      have hsame := hagree _ (List.mem_cons_of_mem _ (List.mem_cons_of_mem _ List.mem_cons_self)) _ List.mem_cons_self
      rw [htree, hcache, List.append_cancel_left_eq] at hsame
      exact (collapse_take_eq_iff hhead (Nat.sub_le ..)).mp hsame
    · intro hsilent
      have hshort := (collapse_take_eq_iff hhead (Nat.sub_le ..)).mpr hsilent
      have hmiddle := (collapse_take_eq_iff hhead (Nat.sub_le conf.room (leadingSlashes path - 1))).mpr
        fun i hi => hsilent i (by omega)
      have hall : ∀ name ∈ namesOf conf path,
          collapse name = collapse (conf.cacheDir ++ ['/']) ++ collapse ((unslashed path).take conf.room) := by
        intro name hmem
        simp only [namesOf_eq, List.mem_cons, List.not_mem_nil, or_false] at hmem
        rcases hmem with rfl | rfl | rfl
        · exact htree
        · rw [hcopy, hmiddle]
        · rw [hcache, hshort]
      intro name hmem other hmem'
      rw [hall name hmem, hall other hmem']
  · have hfull : tmpstrMax - 1 ≤ conf.cacheDir.length := Nat.not_lt.mp hroom
    have hnone : conf.room = 0 := by
      unfold Conf.room
      omega
    refine ⟨fun _ i _ hi => by omega, fun _ name hmem other hmem' => ?_⟩
    rw [namesOf_full hfull path name hmem, namesOf_full hfull path other hmem']

/-- Neither has the rest of a string without repeated slashes any. -/
theorem NoRepeatedSlashes.tail {c : Char} {s : CStr} (h : NoRepeatedSlashes (c :: s)) : NoRepeatedSlashes s :=
  fun hwithin => h (hwithin.trans (List.suffix_cons c s).isInfix)

/-- Nor what is taken from its front. -/
theorem NoRepeatedSlashes.take {s : CStr} (h : NoRepeatedSlashes s) (n : ℕ) : NoRepeatedSlashes (s.take n) := by
  intro hwithin
  have hfront : s.take n <+: s := List.take_prefix n s
  exact h (hwithin.trans hfront.isInfix)

/-- It is collapsed already. -/
theorem NoRepeatedSlashes.collapse_eq {s : CStr} (h : NoRepeatedSlashes s) : collapse s = s := by
  induction s with
  | nil => rfl
  | cons c s ih =>
    cases s with
    | nil => rfl
    | cons d s =>
      have hnot : ¬ (c = '/' ∧ d = '/') := by
        rintro ⟨rfl, rfl⟩
        exact h ⟨[], s, rfl⟩
      rw [collapse, if_neg hnot, ih h.tail]

/-- An absolute path without repeated slashes is one slash and a rest without any in front. -/
theorem NoRepeatedSlashes.eq_cons {path : CStr} (h : NoRepeatedSlashes path) (habsolute : path.head? = some '/') :
    path = '/' :: unslashed path ∧ leadingSlashes path = 1 := by
  cases path with
  | nil => cases habsolute
  | cons c rest =>
    obtain rfl := Option.some.inj habsolute
    cases rest with
    | nil => exact ⟨rfl, rfl⟩
    | cons d rest =>
      have hd : d ≠ '/' := by
        rintro rfl
        exact h ⟨[], rest, rfl⟩
      simp [unslashed, leadingSlashes, hd]

/-- Every name of such a path keeps all of its characters that fit, or all but the last of them. -/
theorem NoRepeatedSlashes.collapse_name {conf : Conf} {path : CStr} (hclean : NoRepeatedSlashes path)
    (h : path.head? = some '/') (hroom : conf.cacheDir.length < tmpstrMax - 1) :
    ∀ name ∈ namesOf conf path, ∃ m, conf.room - 1 ≤ m ∧
      collapse name = collapse (conf.cacheDir ++ ['/']) ++ (unslashed path).take m := by
  obtain ⟨hpath, hone⟩ := hclean.eq_cons h
  have hrest : NoRepeatedSlashes (unslashed path) := by
    rw [hpath] at hclean
    exact hclean.tail
  obtain ⟨-, htree, hcopy, hcache⟩ := collapse_names hroom h
  intro name hmem
  simp only [namesOf_eq, List.mem_cons, List.not_mem_nil, or_false] at hmem
  rcases hmem with rfl | rfl | rfl
  · exact ⟨conf.room, Nat.sub_le .., by rw [htree, (hrest.take _).collapse_eq]⟩
  · exact ⟨conf.room - (leadingSlashes path - 1), by omega, by rw [hcopy, (hrest.take _).collapse_eq]⟩
  · exact ⟨conf.room - leadingSlashes path, by omega, by rw [hcache, (hrest.take _).collapse_eq]⟩

/-- The names of two such paths differ exactly when the paths differ in as many characters as fit. -/
theorem namesDiffer_iff {conf : Conf} {path path' : CStr} (h : path.head? = some '/') (h' : path'.head? = some '/')
    (hclean : NoRepeatedSlashes path) (hclean' : NoRepeatedSlashes path') :
    NamesDiffer conf path path' ↔ path.take conf.room ≠ path'.take conf.room := by
  by_cases hroom : conf.cacheDir.length < tmpstrMax - 1
  · obtain ⟨hpath, hone⟩ := hclean.eq_cons h
    obtain ⟨hpath', hone'⟩ := hclean'.eq_cons h'
    obtain ⟨-, -, -, hcache⟩ := collapse_names hroom h
    obtain ⟨-, -, -, hcache'⟩ := collapse_names hroom h'
    have htake : path.take conf.room = path'.take conf.room ↔
        (unslashed path).take (conf.room - 1) = (unslashed path').take (conf.room - 1) := by
      rw [hpath, hpath']
      cases conf.room with
      | zero => simp
      | succ n =>
        rw [List.take_succ_cons, List.take_succ_cons, List.cons.injEq, Nat.add_sub_cancel, ← hpath, ← hpath']
        exact and_iff_right rfl
    rw [ne_eq, htake]
    constructor
    · intro hdiffer hsame
      have hmem (p : CStr) : cacheName conf p ∈ namesOf conf p :=
        List.mem_cons_of_mem _ (List.mem_cons_of_mem _ List.mem_cons_self)
      refine hdiffer _ (hmem path) _ (hmem path') ?_
      rw [hcache, hcache', hone, hone', hsame]
    · intro hdiffer name hmem name' hmem' hsame
      obtain ⟨m, hm, hname⟩ := hclean.collapse_name h hroom name hmem
      obtain ⟨m', hm', hname'⟩ := hclean'.collapse_name h' hroom name' hmem'
      rw [hname, hname', List.append_cancel_left_eq] at hsame
      have hshort := congrArg (List.take (conf.room - 1)) hsame
      rw [List.take_take, List.take_take, Nat.min_eq_left hm, Nat.min_eq_left hm'] at hshort
      exact hdiffer hshort
  · have hfull : tmpstrMax - 1 ≤ conf.cacheDir.length := Nat.not_lt.mp hroom
    have hnone : conf.room = 0 := by
      unfold Conf.room
      omega
    rw [hnone, List.take_zero, List.take_zero]
    refine ⟨fun hdiffer => ?_, fun hne => absurd rfl hne⟩
    have hfirst (p : CStr) : tmpstrPrintf (slashed conf.cacheDir (unslashed p)) ∈ namesOf conf p := List.mem_cons_self
    exact absurd (by rw [namesOf_full hfull path _ (hfirst path), namesOf_full hfull path' _ (hfirst path')])
      (hdiffer _ (hfirst path) _ (hfirst path'))

/-- Two slashes in a row repeat. -/
theorem NoRepeatedSlashes.not_slashes {s : CStr} (h : NoRepeatedSlashes s) {i : ℕ} (hfirst : s[i]? = some '/')
    (hsecond : s[i + 1]? = some '/') : False := by
  obtain ⟨hi, hfirst⟩ := List.getElem?_eq_some_iff.mp hfirst
  obtain ⟨hi', hsecond⟩ := List.getElem?_eq_some_iff.mp hsecond
  refine h ⟨s.take i, s.drop (i + 2), ?_⟩
  have hdrop : s.drop i = '/' :: '/' :: s.drop (i + 2) := by
    rw [List.drop_eq_getElem_cons hi, List.drop_eq_getElem_cons hi', hfirst, hsecond]
  calc s.take i ++ "//".toList ++ s.drop (i + 2) = s.take i ++ '/' :: '/' :: s.drop (i + 2) := List.append_assoc ..
    _ = s.take i ++ s.drop i := by rw [hdrop]
    _ = s := List.take_append_drop ..

/-- The names of an absolute path without repeated slashes agree exactly when the longest fits, or none of the path
does. -/
theorem NoRepeatedSlashes.namesAgree_iff_fits {conf : Conf} {path : CStr} (hclean : NoRepeatedSlashes path)
    (h : path.head? = some '/') :
    NamesAgree conf path ↔ (slashed conf.cacheDir path).length < tmpstrMax ∨ tmpstrMax - 2 ≤ conf.cacheDir.length := by
  obtain ⟨hpath, hone⟩ := hclean.eq_cons h
  have hrest : NoRepeatedSlashes (unslashed path) := by
    rw [hpath] at hclean
    exact hclean.tail
  have hlength : (slashed conf.cacheDir path).length = conf.cacheDir.length + (unslashed path).length + 2 := by
    rw [hpath, slashed, List.length_append, List.length_cons, List.length_cons, ← hpath]
    omega
  rw [namesAgree_iff h, hone, hlength]
  have hroom : conf.room = tmpstrMax - 2 - conf.cacheDir.length := rfl
  constructor
  · intro hsilent
    by_contra hcut
    rw [not_or] at hcut
    -- the last character that fits into the longest name is lost in the others
    have hinside : conf.room - 1 < (unslashed path).length := by omega
    have hlast := hsilent (conf.room - 1) le_rfl (by omega) _ (List.getElem?_eq_getElem hinside)
    rw [← Option.some.injEq, ← List.getElem?_eq_getElem hinside] at hlast
    obtain ⟨hslash, hbefore⟩ := hlast
    cases hposition : conf.room - 1 with
    | zero =>
      rw [hposition, ← List.head?_eq_getElem?] at hslash
      exact unslashed_head? path hslash
    | succ i =>
      rw [hposition] at hslash hbefore
      exact hrest.not_slashes hbefore hslash
  · intro hfits i hfrom hto c hc
    have hinside := (List.getElem?_eq_some_iff.mp hc).1
    omega

/-- The names of one path agree, and those of two paths differ, exactly as long as what is lost at the end of a string
of the ring does not matter. -/
theorem cacheNames_iff (conf : Conf) (path : CStr) (h : path.head? = some '/') :
    (NamesAgree conf path ↔ ∀ i, conf.room - leadingSlashes path ≤ i → i < conf.room →
      ∀ c, (unslashed path)[i]? = some c → c = '/' ∧ (unslashed path)[i - 1]? = some '/') ∧
    ∀ path', path'.head? = some '/' → path ≠ path' → NoRepeatedSlashes path → NoRepeatedSlashes path' →
      (NamesDiffer conf path path' ↔ path.take conf.room ≠ path'.take conf.room) :=
  ⟨namesAgree_iff h, fun _ h' _ hclean hclean' => namesDiffer_iff h h' hclean hclean'⟩

/-- A path with a number of components. -/
def deepPath (n : ℕ) : CStr := (List.replicate n "/a".toList).flatten

/-- One more component. -/
theorem deepPath_succ (n : ℕ) : deepPath (n + 1) = '/' :: 'a' :: deepPath n := rfl

/-- Its length. -/
theorem deepPath_length (n : ℕ) : (deepPath n).length = 2 * n := by
  induction n with
  | zero => rfl
  | succ n ih =>
    rw [deepPath_succ, List.length_cons, List.length_cons, ih]
    omega

/-- It has no repeated slashes. -/
theorem deepPath_noRepeatedSlashes (n : ℕ) : NoRepeatedSlashes (deepPath n) := by
  induction n with
  | zero => exact fun hwithin => absurd hwithin (by decide)
  | succ n ih =>
    rw [deepPath_succ]
    intro hwithin
    rcases List.infix_cons_iff.mp hwithin with hfront | hwithin
    · exact absurd (List.cons_prefix_cons.mp hfront).2 (fun h => absurd (List.cons_prefix_cons.mp h).1 (by decide))
    · rcases List.infix_cons_iff.mp hwithin with hfront | hwithin
      · exact absurd (List.cons_prefix_cons.mp hfront).1 (by decide)
      · exact ih hwithin

/-- Another component comes last, too. -/
theorem deepPath_append (n : ℕ) : deepPath (n + 1) = deepPath n ++ "/a".toList := by
  induction n with
  | zero => rfl
  | succ n ih =>
    calc deepPath (n + 1 + 1) = '/' :: 'a' :: deepPath (n + 1) := rfl
      _ = '/' :: 'a' :: (deepPath n ++ "/a".toList) := by rw [ih]
      _ = deepPath (n + 1) ++ "/a".toList := rfl

/-- For paths of some two thousand characters the names of one path lead to different files, and names of different
paths to the same. -/
theorem deep_names_collide :
    (deepPath 1100).head? = some '/' ∧ (deepPath 1101).head? = some '/' ∧ deepPath 1100 ≠ deepPath 1101 ∧
      NoRepeatedSlashes (deepPath 1100) ∧ NoRepeatedSlashes (deepPath 1101) ∧
      ¬ NamesAgree Env.plain.conf (deepPath 1100) ∧ ¬ NamesDiffer Env.plain.conf (deepPath 1100) (deepPath 1101) := by
  have hclean := deepPath_noRepeatedSlashes
  have habsolute (n : ℕ) : (deepPath (n + 1)).head? = some '/' := rfl
  have hdir : Env.plain.conf.cacheDir.length = 6 := rfl
  refine ⟨habsolute 1099, habsolute 1100, fun heq => ?_, hclean 1100, hclean 1101, ?_, ?_⟩
  · have hlength := congrArg List.length heq
    rw [deepPath_length, deepPath_length] at hlength
    omega
  · rw [(hclean 1100).namesAgree_iff_fits (habsolute 1099), slashed, List.length_append, List.length_cons,
      deepPath_length, hdir]
    decide
  · have hroom : Env.plain.conf.room = 2040 := rfl
    rw [namesDiffer_iff (habsolute 1099) (habsolute 1100) (hclean 1100) (hclean 1101), not_not, hroom,
      deepPath_append 1100, List.take_append_of_le_length]
    rw [deepPath_length]
    decide

/-- The names of short paths agree, and those of two of them differ. -/
theorem short_names_right :
    NamesAgree Env.plain.conf "/a".toList ∧ NamesDiffer Env.plain.conf "/a".toList "/b".toList := by
  obtain ⟨hagree, hdiffer⟩ := cacheNames_iff Env.plain.conf "/a".toList rfl
  constructor
  · refine hagree.mpr fun i hfrom _ c hc => ?_
    have hroom : Env.plain.conf.room - leadingSlashes "/a".toList = 2039 := rfl
    have hshort : (unslashed "/a".toList).length = 1 := rfl
    have hinside := (List.getElem?_eq_some_iff.mp hc).1
    omega
  · exact (hdiffer "/b".toList rfl (by decide) (by unfold NoRepeatedSlashes; decide)
      (by unfold NoRepeatedSlashes; decide)).mpr (by decide +kernel)

end Dropletfs
