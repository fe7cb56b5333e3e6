import Dropletfs.Open

/-!
# The names of one cache file

Three functions form the name of the cache file of a path, each in its own way: with a
slash before the path, without one, and with the leading slashes of the path taken off. For
an absolute path whose names fit into a string of the ring they lead to one file, and the
scratch file next to it is another.
-/

namespace Dropletfs

/-- Leading slashes count as one. -/
theorem collapse_dropWhile (s : CStr) : collapse ('/' :: s.dropWhile (· == '/')) = collapse ('/' :: s) := by
  induction s with
  | nil => rfl
  | cons c rest ih =>
    by_cases hc : c = '/'
    · subst hc
      rw [collapse_slash_slash, ← ih]
      simp
    · simp [hc]

/-- A suffix that does not start with a slash stays as it is next to what is before it. -/
theorem collapse_append (s : CStr) (c : Char) (suffix : CStr) (hc : c ≠ '/') :
    collapse (s ++ c :: suffix) = collapse s ++ collapse (c :: suffix) := by
  induction s with
  | nil => rfl
  | cons d rest ih =>
    cases rest with
    | nil => simp [collapse, hc]
    | cons e rest =>
      simp only [List.cons_append] at ih ⊢
      by_cases hslash : d = '/' ∧ e = '/'
      · simp only [collapse, if_pos hslash, ih]
      · simp only [collapse, if_neg hslash, ih, List.cons_append]

/-- The path is absolute, and the name of its scratch file fits into a string of the ring. -/
structure Placed (conf : Conf) (path : CStr) : Prop where
  absolute : path.head? = some '/'
  fits : (slashed conf.cacheDir path ++ ".tmp".toList).length < tmpstrMax

namespace Placed

variable {conf : Conf} {path : CStr}

/-- The rest of an absolute path. -/
theorem eq_cons (h : Placed conf path) : ∃ rest, path = '/' :: rest := by
  have habsolute := h.absolute
  cases path with
  | nil => simp at habsolute
  | cons c rest => exact ⟨rest, by rw [List.head?_cons, Option.some.injEq] at habsolute; rw [habsolute]⟩

/-- The name is formatted without loss. -/
theorem cacheName_eq (h : Placed conf path) : cacheName conf path = slashed conf.cacheDir path := by
  have hfits := h.fits
  rw [List.length_append] at hfits
  exact tmpstrPrintf_of_fits _ (by omega)

/-- The name a download uses is formatted without loss. -/
theorem copyName_eq (h : Placed conf path) : copyName conf path = conf.cacheDir ++ path := by
  have hfits := h.fits
  simp only [slashed, List.length_append, List.length_cons] at hfits
  exact tmpstrPrintf_of_fits _ (by rw [List.length_append]; omega)

/-- A download works on the cache file. -/
theorem collapse_copyName (h : Placed conf path) :
    collapse (copyName conf path) = collapse (cacheName conf path) := by
  obtain ⟨rest, rfl⟩ := h.eq_cons
  rw [h.copyName_eq, h.cacheName_eq, slashed]
  exact collapse_append_congr _ _ _ (collapse_slash_slash rest).symm

/-- Truncating works on the cache file. -/
theorem collapse_buildCacheTree (h : Placed conf path) {dup : Bool} {name : CStr}
    (hname : buildCacheTree conf path dup = some name) : collapse name = collapse (cacheName conf path) := by
  have hlength : (path.dropWhile (· == '/')).length ≤ path.length := List.length_dropWhile_le _ _
  have hfits := h.fits
  simp only [slashed, List.length_append, List.length_cons] at hfits
  unfold buildCacheTree at hname
  split at hname
  · obtain rfl := Option.some.inj hname
    rw [h.cacheName_eq, tmpstrPrintf_of_fits _ (by simp only [slashed, List.length_append, List.length_cons]; omega)]
    exact collapse_append_congr _ _ _ (collapse_dropWhile path)
  · cases hname

/-- The scratch file is not the cache file. -/
theorem collapse_scratchName (h : Placed conf path) :
    collapse (scratchName (cacheName conf path)) = collapse (cacheName conf path) ++ ".tmp".toList := by
  rw [scratchName, h.cacheName_eq, tmpstrPrintf_of_fits _ h.fits]
  exact collapse_append _ '.' "tmp".toList (by decide)

/-- The scratch file of a download is that of an upload. -/
theorem collapse_copyScratch (h : Placed conf path) :
    collapse (scratchName (copyName conf path)) = collapse (scratchName (cacheName conf path)) := by
  have hfits := h.fits
  simp only [slashed, List.length_append, List.length_cons] at hfits
  rw [h.collapse_scratchName, scratchName, tmpstrPrintf_of_fits, ← h.collapse_copyName]
  · exact collapse_append _ '.' "tmp".toList (by decide)
  · rw [h.copyName_eq]
    simp only [List.length_append]
    omega

/-- The two files are different. -/
theorem scratch_ne (h : Placed conf path) :
    collapse (scratchName (cacheName conf path)) ≠ collapse (cacheName conf path) := by
  rw [h.collapse_scratchName]
  intro heq
  have hlength := congrArg List.length heq
  rw [List.length_append] at hlength
  have htmp : (".tmp".toList).length = 4 := by decide
  omega

end Placed

end Dropletfs
