import Dropletfs.NameLimits
import Dropletfs.Library.DirTree
import Mathlib.Data.List.DropRight

/-!
# The directories of the cache

Before a cache file is created, `build_cache_tree` makes the directories above it. The name of
the file is formatted from the cache directory and the path, the directory of that name is cut
off by `dirname`, and `mkdir_tree` walks over its characters and makes a directory at each slash
and at the end, also where one stands already. Slashes may repeat, the cache directory may be
relative, and any part of the way may be there before.
-/

namespace Dropletfs

/-- One character of a name: a slash ends the component in front of it, if there is one. -/
def nameStep (acc : List CStr × CStr) (c : Char) : List CStr × CStr :=
  if c = '/' then (if acc.2 = [] then acc.1 else acc.1 ++ [acc.2], []) else (acc.1, acc.2 ++ [c])

/-- The components of a name that a slash ends, and what follows the last slash. -/
def scan (s : CStr) : List CStr × CStr := s.foldl nameStep ([], [])

/-- The components of a name. -/
def components (s : CStr) : List CStr := if (scan s).2 = [] then (scan s).1 else (scan s).1 ++ [(scan s).2]

section Components

/-- What was scanned before stays in front. -/
theorem foldl_nameStep (names : List CStr) (last s : CStr) :
    s.foldl nameStep (names, last) =
      (names ++ (s.foldl nameStep ([], last)).1, (s.foldl nameStep ([], last)).2) := by
  induction s generalizing names last with
  | nil => simp
  | cons c s ih =>
    rw [List.foldl_cons, List.foldl_cons, nameStep, nameStep]
    split
    · rw [ih, ih (if last = [] then [] else [] ++ [last])]
      split <;> simp
    · exact ih names (last ++ [c])

/-- A slash ends a component. -/
theorem scan_concat_slash (s : CStr) : scan (s ++ ['/']) = (components s, []) := by
  rw [scan, List.foldl_append, List.foldl_cons, List.foldl_nil, ← scan, nameStep, if_pos rfl, components]

/-- Another character goes on with one. -/
theorem scan_concat {c : Char} (hc : c ≠ '/') (s : CStr) : scan (s ++ [c]) = ((scan s).1, (scan s).2 ++ [c]) := by
  rw [scan, List.foldl_append, List.foldl_cons, List.foldl_nil, ← scan, nameStep, if_neg hc]

/-- So do several. -/
theorem scan_append {t : CStr} (ht : '/' ∉ t) (s : CStr) : scan (s ++ t) = ((scan s).1, (scan s).2 ++ t) := by
  induction t generalizing s with
  | nil => simp
  | cons c t ih =>
    have hc : c ≠ '/' := fun heq => ht (heq ▸ List.mem_cons_self)
    rw [← List.singleton_append, ← List.append_assoc, ih (fun hmem => ht (List.mem_cons_of_mem c hmem)), scan_concat hc,
      List.append_assoc]

/-- A slash between two names separates their components. -/
theorem components_append_slash (s t : CStr) : components (s ++ '/' :: t) = components s ++ components t := by
  have hscan : scan (s ++ '/' :: t) = (components s ++ (scan t).1, (scan t).2) := by
    rw [← List.singleton_append, ← List.append_assoc, scan, List.foldl_append, ← scan, scan_concat_slash,
      foldl_nameStep]
    rfl
  rw [components.eq_def (s ++ '/' :: t), hscan, components.eq_def t]
  split
  · rfl
  · exact List.append_assoc ..

/-- A slash at the end ends the last component. -/
theorem components_concat_slash (s : CStr) : components (s ++ ['/']) = components s := by
  rw [components, scan_concat_slash, if_pos rfl]

/-- Slashes at the end do not count. -/
theorem components_rdropWhile (s : CStr) : components (s.rdropWhile (· == '/')) = components s := by
  induction s using List.reverseRecOn with
  | nil => rfl
  | append_singleton s c ih =>
    by_cases hc : c = '/'
    · subst hc
      rw [List.rdropWhile_concat_pos _ _ _ rfl, ih, components_concat_slash]
    · rw [List.rdropWhile_concat_neg _ _ _ (by simpa using hc)]

/-- Nor do slashes in front. -/
theorem components_unslashed (s : CStr) : components (unslashed s) = components s := by
  induction s with
  | nil => rfl
  | cons c s ih =>
    by_cases hc : c = '/'
    · subst hc
      have hdrop : unslashed ('/' :: s) = unslashed s := rfl
      rw [hdrop, ih, ← List.nil_append ('/' :: s), components_append_slash]
      rfl
    · have hkept : unslashed (c :: s) = c :: s := List.dropWhile_cons_of_neg (by simpa using hc)
      rw [hkept]

end Components

/-- The directories and files of the local file system, and the directory that names without a slash in front are
relative to. It has no symbolic links, and its names contain no `..`. -/
structure LocalDirs where
  tree : DirTree CStr
  cwd : List CStr
  cwd_dir : tree.dirs cwd = true

namespace LocalDirs

/-- Where the components of a name start. -/
def start (dirs : LocalDirs) (name : CStr) : List CStr := if name.head? = some '/' then [] else dirs.cwd

/-- The node that a name leads to. -/
def resolve (dirs : LocalDirs) (name : CStr) : List CStr :=
  dirs.start name ++ (components name).filter (· ≠ ".".toList)

/-- A node is an ancestor of what a name leads to. -/
def Ancestor (dirs : LocalDirs) (name : CStr) (node : List CStr) : Prop :=
  node <+: dirs.resolve name ∧ node ≠ dirs.resolve name

end LocalDirs

/-- `ENOENT`. -/
def enoent : ℕ := 2

/-- `ENOTDIR`. -/
def enotdir : ℕ := 20

/-- The error of `stat(2)`, `none` for a success. The reply is an error that has nothing to do with the tree. -/
def LocalDirs.stat (dirs : LocalDirs) (name : CStr) (reply : Option ℕ) : Option ℕ :=
  match reply with
  | some errno => some errno
  | none =>
    if dirs.tree.dirs (dirs.resolve name) || dirs.tree.files (dirs.resolve name) then none
    else if (dirs.resolve name).inits.any dirs.tree.files then some enotdir
    else some enoent

/-- `MKDIR`: the errors of `mkdir(2)` are logged, and `EEXIST` is not even that. -/
def LocalDirs.mkdir (dirs : LocalDirs) (answer : CStr → Bool) (b : DirTree.Building CStr) (name : CStr) :
    DirTree.Building CStr :=
  b.mkdir (dirs.resolve name) (answer name)

/-- The loop of `mkdir_tree`, with what is in front of `p` and what `p` points to, and the `MKDIR` after it. -/
def mkdirTreeLoop (dirs : LocalDirs) (answer : CStr → Bool) (b : DirTree.Building CStr) (front : CStr) :
    CStr → DirTree.Building CStr
  | [] => dirs.mkdir answer b front
  | c :: rest =>
    mkdirTreeLoop dirs answer (if c = '/' then dirs.mkdir answer b front else b) (front ++ [c]) rest

/-- `mkdir_tree`. For an empty string it would read behind the end. -/
def mkdirTree (dirs : LocalDirs) (answer : CStr → Bool) (b : DirTree.Building CStr) :
    Option CStr → Exec (DirTree.Building CStr)
  | none => .done b
  | some dir =>
    match tmpstrPrintf dir with
    | [] => .undefined
    | c :: rest => .done (mkdirTreeLoop dirs answer b [c] rest)

/-- `dirname(3)`. Exactly two slashes in front stay two. -/
def dirname (path : CStr) : CStr :=
  match path.rdropWhile (· == '/') with
  | [] => if path = [] then ".".toList else if path = "//".toList then "//".toList else "/".toList
  | name =>
    match name.rdropWhile (· != '/') with
    | [] => ".".toList
    | front =>
      match front.rdropWhile (· == '/') with
      | [] => if front = "//".toList then "//".toList else "/".toList
      | dir => dir

/-- What the calls of `build_cache_tree` report: `strdup`, `stat`, and `mkdir` for each name. -/
structure TreeReplies where
  dup : Bool
  stat : Option ℕ
  mkdir : CStr → Bool

/-- `build_cache_tree` with the directories that it makes. -/
def buildCacheTreeIn (conf : Conf) (dirs : LocalDirs) (path : CStr) (replies : TreeReplies) :
    Exec (Option CStr × DirTree.Building CStr) :=
  let name := tmpstrPrintf (slashed conf.cacheDir (path.dropWhile (· == '/')))
  if replies.dup then
    let dir := tmpstrPrintf (dirname name)
    match dirs.stat dir replies.stat with
    | none => .done (some name, dirs.tree.untouched)
    | some errno =>
      if errno = enoent then do
        let b ← mkdirTree dirs replies.mkdir dirs.tree.untouched (some dir)
        return (some name, b)
      else .done (some name, dirs.tree.untouched)
  else .done (none, dirs.tree.untouched)

section Walk

variable (dirs : LocalDirs) (answer : CStr → Bool)

/-- Where the components in front of the last slash of a name lead. -/
def LocalDirs.entered (dirs : LocalDirs) (name : CStr) : List CStr :=
  dirs.start name ++ (scan name).1.filter (· ≠ ".".toList)

/-- From there the last component goes one step down, if it is one. -/
theorem LocalDirs.resolve_eq (name : CStr) :
    dirs.resolve name = dirs.entered name ∨ dirs.resolve name = dirs.entered name ++ [(scan name).2] := by
  unfold resolve entered components
  split
  · exact Or.inl rfl
  · rw [List.filter_append, ← List.append_assoc]
    by_cases hdot : (scan name).2 = ".".toList
    · exact Or.inl (by simp [hdot])
    · exact Or.inr (by simpa using hdot)

/-- More characters do not change where a name starts. -/
theorem LocalDirs.start_append {front : CStr} (h : front ≠ []) (rest : CStr) :
    dirs.start (front ++ rest) = dirs.start front := by
  rw [start, start, List.head?_append_of_ne_nil _ h]

/-- The names that `mkdir_tree` gives to `mkdir`. -/
def mkdirNames (front : CStr) : CStr → List CStr
  | [] => [front]
  | c :: rest => if c = '/' then front :: mkdirNames (front ++ [c]) rest else mkdirNames (front ++ [c]) rest

/-- The loop makes the nodes of these names, if nothing else hinders it. -/
theorem mkdirTreeLoop_eq (hanswer : ∀ name, answer name = true) (b : DirTree.Building CStr) (front rest : CStr) :
    mkdirTreeLoop dirs answer b front rest = b.mkdirs ((mkdirNames front rest).map dirs.resolve) := by
  induction rest generalizing b front with
  | nil =>
    rw [mkdirTreeLoop, LocalDirs.mkdir, hanswer]
    rfl
  | cons c rest ih =>
    rw [mkdirTreeLoop, mkdirNames, ih]
    split
    · rw [LocalDirs.mkdir, hanswer]
      rfl
    · rfl

/-- They are a way down, from where the characters read so far have led to where the whole name leads. -/
theorem mkdirNames_descent {front : CStr} (h : front ≠ []) (rest : CStr) :
    DirTree.Descent (dirs.entered front) ((mkdirNames front rest).map dirs.resolve) (dirs.resolve (front ++ rest)) := by
  -- the name of what the next slash ends is that directory or one below it
  have hstep (front : CStr) (nodes : List (List CStr)) (goal : List CStr)
      (hway : DirTree.Descent (dirs.resolve front) nodes goal) :
      DirTree.Descent (dirs.entered front) (dirs.resolve front :: nodes) goal := by
    rcases dirs.resolve_eq front with heq | heq
    · rw [heq] at hway ⊢
      exact DirTree.Descent.stay hway
    · rw [heq] at hway ⊢
      exact DirTree.Descent.down hway
  induction rest generalizing front with
  | nil =>
    rw [List.append_nil]
    exact hstep front [] _ (DirTree.Descent.stop _)
  | cons c rest ih =>
    have hrest := ih (List.append_ne_nil_of_left_ne_nil h [c])
    rw [List.append_assoc, List.singleton_append] at hrest
    rw [mkdirNames]
    split
    next hc =>
      have hentered : dirs.entered (front ++ [c]) = dirs.resolve front := by
        rw [LocalDirs.entered, dirs.start_append h, hc, scan_concat_slash]
        rfl
      rw [hentered] at hrest
      exact hstep front _ _ hrest
    next hc =>
      have hentered : dirs.entered (front ++ [c]) = dirs.entered front := by
        rw [LocalDirs.entered, dirs.start_append h, scan_concat hc]
        rfl
      rwa [hentered] at hrest

/-- The walk starts at the root or at the working directory. -/
theorem LocalDirs.entered_dir (c : Char) : dirs.tree.dirs (dirs.entered [c]) = true := by
  have hscan : (scan [c]).1 = [] := by
    by_cases hc : c = '/'
    · subst hc
      rfl
    · simp [scan, nameStep, hc]
  rw [entered, hscan, List.filter_nil, List.append_nil, start]
  split
  · exact dirs.tree.root_dir
  · exact dirs.cwd_dir

/-- `mkdir_tree` makes the way to a directory, as far as it was missing. -/
theorem mkdirTree_reaches (hanswer : ∀ name, answer name = true) {dir : CStr} (hne : dir ≠ [])
    (hfits : dir.length < tmpstrMax) (hfiles : ∀ node, node <+: dirs.resolve dir → dirs.tree.files node = false) :
    ∃ b, mkdirTree dirs answer dirs.tree.untouched (some dir) = .done b ∧
      DirTree.Reaches dirs.tree (dirs.resolve dir) b := by
  cases dir with
  | nil => exact absurd rfl hne
  | cons c rest =>
    refine ⟨mkdirTreeLoop dirs answer dirs.tree.untouched [c] rest, ?_, ?_⟩
    · unfold mkdirTree
      simp only
      rw [tmpstrPrintf_of_fits _ hfits]
    · rw [mkdirTreeLoop_eq dirs answer hanswer]
      exact DirTree.Reaches.mkdirs (mkdirNames_descent dirs (List.cons_ne_nil c []) rest) hfiles
        (DirTree.Reaches.untouched (dirs.entered_dir c))

end Walk

section Dirname

variable {s : CStr}

/-- What is in front of the last component ends with a slash, or is nothing. -/
theorem scan_front (s : CStr) : (scan (s.rdropWhile (· != '/'))).2 = [] := by
  cases hfront : s.rdropWhile (· != '/') using List.reverseRecOn with
  | nil => rfl
  | append_singleton front c =>
    have hlast := List.rdropWhile_last_not (· != '/') s (by rw [hfront]; simp)
    simp only [hfront, List.getLast_concat] at hlast
    have hc : c = '/' := by simpa using hlast
    rw [hc, scan_concat_slash]

/-- A name that does not end with a slash has a last component behind its last slash. -/
theorem components_split (hs : s.rdropWhile (· == '/') = s) (hne : s ≠ []) :
    ∃ last, components s = components (s.rdropWhile (· != '/')) ++ [last] := by
  have hsplit : s = s.rdropWhile (· != '/') ++ s.rtakeWhile (· != '/') := (List.rdropWhile_append_rtakeWhile).symm
  have hclean : '/' ∉ s.rtakeWhile (· != '/') := fun hmem => by simpa using List.mem_rtakeWhile_imp hmem
  have hlast : s.rtakeWhile (· != '/') ≠ [] := by
    intro hnil
    rw [hnil, List.append_nil] at hsplit
    have hslash := List.rdropWhile_eq_self_iff.mp hsplit.symm hne
    have hnot := List.rdropWhile_eq_self_iff.mp hs hne
    simp only [bne_iff_ne, ne_eq, not_not] at hslash
    exact hnot (by rw [hslash]; rfl)
  refine ⟨s.rtakeWhile (· != '/'), ?_⟩
  have hfront := scan_front s
  have hscan := scan_append hclean (s.rdropWhile (· != '/'))
  rw [← hsplit, hfront, List.nil_append] at hscan
  rw [components, hscan, if_neg hlast, components, if_pos hfront]

/-- A name of nothing but slashes has no components. -/
theorem components_of_slashes (h : s.rdropWhile (· == '/') = []) : components s = [] := by
  rw [← components_rdropWhile, h]
  rfl

/-- And it starts with one. -/
theorem head?_of_slashes (h : s.rdropWhile (· == '/') = []) (hne : s ≠ []) : s.head? = some '/' := by
  rw [List.rdropWhile_eq_nil_iff] at h
  cases s with
  | nil => exact absurd rfl hne
  | cons c rest => rw [List.head?_cons, beq_iff_eq.mp (h c List.mem_cons_self)]

variable (dirs : LocalDirs)

/-- What is in front of a name starts where the name does. -/
theorem LocalDirs.start_front {front : CStr} (h : front <+: s) (hne : front ≠ []) :
    dirs.start s = dirs.start front := by
  obtain ⟨rest, rfl⟩ := h
  exact dirs.start_append hne rest

/-- One slash and two are the root. -/
theorem LocalDirs.resolve_root (p : Prop) [Decidable p] :
    dirs.resolve (if p then "//".toList else "/".toList) = [] := by
  split <;> rfl

/-- Names are kept that are no dots. -/
theorem filter_dots {names : List CStr} (h : ∀ c ∈ names, c ≠ ".".toList) :
    names.filter (· ≠ ".".toList) = names :=
  List.filter_eq_self.mpr fun c hmem => by simpa using h c hmem

/-- The slashes that `dirname` cuts off from what is in front of the last component do not matter. -/
theorem LocalDirs.resolve_front {front : CStr} (hne : front ≠ []) (hdots : ∀ c ∈ components front, c ≠ ".".toList) :
    dirs.resolve (match front.rdropWhile (· == '/') with
      | [] => if front = "//".toList then "//".toList else "/".toList
      | dir => dir) = dirs.start front ++ components front := by
  cases hdir : front.rdropWhile (· == '/') with
  | nil =>
    rw [components_of_slashes hdir, start, if_pos (head?_of_slashes hdir hne)]
    exact dirs.resolve_root _
  | cons c dir =>
    have hshort : c :: dir <+: front := hdir ▸ List.rdropWhile_prefix (· == '/') front
    have hsame : components (c :: dir) = components front := by rw [← hdir, components_rdropWhile]
    simp only
    rw [resolve, ← dirs.start_front hshort (List.cons_ne_nil c dir), hsame, filter_dots hdots]

/-- `dirname` leads to the parent of what a name leads to. -/
theorem LocalDirs.resolve_dirname (hne : s ≠ []) (hdots : ∀ c ∈ components s, c ≠ ".".toList) :
    dirs.resolve (dirname s) = (dirs.resolve s).dropLast := by
  rw [resolve.eq_def dirs s, filter_dots hdots]
  cases hname : s.rdropWhile (· == '/') with
  | nil =>
    -- nothing but slashes is the root
    rw [components_of_slashes hname, start, if_pos (head?_of_slashes hname hne)]
    unfold dirname
    rw [hname]
    simp only [if_neg hne]
    exact dirs.resolve_root _
  | cons d name =>
    have hshort : d :: name <+: s := hname ▸ List.rdropWhile_prefix (· == '/') s
    have hclean : (d :: name).rdropWhile (· == '/') = d :: name := by rw [← hname, List.rdropWhile_idempotent]
    obtain ⟨last, hlast⟩ := components_split hclean (List.cons_ne_nil d name)
    rw [← hname, components_rdropWhile, hname] at hlast
    have hstart : dirs.start s = dirs.start (d :: name) := dirs.start_front hshort (List.cons_ne_nil d name)
    rw [hlast, ← List.append_assoc, List.dropLast_concat, hstart]
    unfold dirname
    rw [hname]
    simp only
    cases hfront : (d :: name).rdropWhile (· != '/') with
    | nil =>
      -- a single component is in the working directory
      have hd : d ≠ '/' := by simpa using List.rdropWhile_eq_nil_iff.mp hfront d List.mem_cons_self
      rw [start, List.head?_cons, if_neg fun heq => hd (Option.some.inj heq)]
      rfl
    | cons e front =>
      have hcut : e :: front <+: d :: name := hfront ▸ List.rdropWhile_prefix (· != '/') (d :: name)
      rw [dirs.start_front hcut (List.cons_ne_nil e front)]
      refine dirs.resolve_front (List.cons_ne_nil e front) fun c hmem => hdots c ?_
      rw [hlast, hfront]
      exact List.mem_append_left [last] hmem

end Dirname

section Built

variable (dirs : LocalDirs) {s : CStr}

/-- `dirname` never gives the empty string. -/
theorem dirname_ne_nil (s : CStr) : dirname s ≠ [] := by
  unfold dirname
  split
  · split
    · decide
    · split <;> decide
  · split
    · decide
    · split
      · split <;> decide
      · assumption

/-- What it gives fits into a string of the ring, if the name does. -/
theorem dirname_fits (hfits : s.length < tmpstrMax) : (dirname s).length < tmpstrMax := by
  have hroot (p : Prop) [Decidable p] : (if p then "//".toList else "/".toList).length < tmpstrMax := by
    split <;> decide
  unfold dirname
  split
  · split
    · decide
    · exact hroot _
  · split
    · decide
    · split
      · exact hroot _
      · have hlength := ((List.rdropWhile_prefix (· == '/') _).trans
          ((List.rdropWhile_prefix (· != '/') _).trans (List.rdropWhile_prefix (· == '/') s))).length_le
        exact Nat.lt_of_le_of_lt hlength hfits

namespace LocalDirs

variable {dirs}

/-- The ancestors of what a name leads to, as far as they are missing, are what is missing on the way to its parent. -/
theorem missing_ancestor_iff (name : CStr) (node : List CStr) :
    dirs.Ancestor name node ∧ dirs.tree.dirs node = false ↔
      node <+: (dirs.resolve name).dropLast ∧ dirs.tree.dirs node = false := by
  refine and_congr_left fun hmissing => ?_
  unfold Ancestor
  cases hnode : dirs.resolve name using List.reverseRecOn with
  | nil =>
    rw [List.dropLast_nil, List.prefix_nil]
    refine ⟨fun h => h.1, fun h => ?_⟩
    rw [h, dirs.tree.root_dir] at hmissing
    cases hmissing
  | append_singleton parent c =>
    rw [List.dropLast_concat, List.prefix_concat_iff]
    constructor
    · exact fun ⟨hor, hne⟩ => hor.resolve_left hne
    · refine fun habove => ⟨Or.inr habove, fun heq => ?_⟩
      have hlength := habove.length_le
      rw [heq, List.length_append, List.length_singleton] at hlength
      omega

/-- Where no file stands at an ancestor, none stands on the way to the parent. -/
theorem no_file_above {name : CStr} (hfiles : ∀ node, dirs.Ancestor name node → dirs.tree.files node = false)
    (node : List CStr) (h : node <+: (dirs.resolve name).dropLast) : dirs.tree.files node = false := by
  cases hdir : dirs.tree.dirs node with
  | true => exact dirs.tree.disjoint node hdir
  | false => exact hfiles node ((dirs.missing_ancestor_iff name node).mpr ⟨h, hdir⟩).1

/-- Where no file stands in the way, `stat` finds a directory or fails with `ENOENT`. -/
theorem stat_cases {name : CStr} {reply : Option ℕ} (hreply : ∀ errno, reply = some errno → errno = enoent)
    (hfiles : ∀ node, node <+: dirs.resolve name → dirs.tree.files node = false) :
    dirs.stat name reply = none ∧ dirs.tree.dirs (dirs.resolve name) = true ∨ dirs.stat name reply = some enoent := by
  cases reply with
  | some errno => exact Or.inr (congrArg some (hreply errno rfl))
  | none =>
    have hfree : dirs.tree.files (dirs.resolve name) = false := hfiles _ (List.prefix_refl _)
    cases hdir : dirs.tree.dirs (dirs.resolve name) with
    | true => exact Or.inl ⟨by simp [stat, hdir], rfl⟩
    | false =>
      have hway : (dirs.resolve name).inits.any dirs.tree.files = false :=
        List.any_eq_false.mpr fun node hmem => by simp [hfiles node ((List.mem_inits _ _).mp hmem)]
      exact Or.inr (by simp [stat, hdir, hfree, hway])

end LocalDirs

/-- The components of the name of a cache file. -/
theorem components_name (conf : Conf) (path : CStr) :
    components (slashed conf.cacheDir (unslashed path)) = components conf.cacheDir ++ components path := by
  rw [slashed, components_append_slash, components_unslashed]

variable {dirs}

/-- With no file in the way, `build_cache_tree` makes the way to the parent of the cache file, as far as it was
missing. -/
theorem buildCacheTreeIn_reaches {conf : Conf} {path : CStr} {replies : TreeReplies} (hdup : replies.dup = true)
    (hdots : ∀ c ∈ components conf.cacheDir ++ components path, c ≠ ".".toList)
    (hfits : (slashed conf.cacheDir (unslashed path)).length < tmpstrMax)
    (hmkdir : ∀ name, replies.mkdir name = true) (hstat : ∀ errno, replies.stat = some errno → errno = enoent)
    (hfiles : ∀ node, dirs.Ancestor (slashed conf.cacheDir (unslashed path)) node → dirs.tree.files node = false) :
    ∃ b, buildCacheTreeIn conf dirs path replies = .done (some (slashed conf.cacheDir (unslashed path)), b) ∧
      DirTree.Reaches dirs.tree (dirs.resolve (slashed conf.cacheDir (unslashed path))).dropLast b := by
  have hfree := LocalDirs.no_file_above hfiles
  have hname : tmpstrPrintf (slashed conf.cacheDir (unslashed path)) = slashed conf.cacheDir (unslashed path) :=
    tmpstrPrintf_of_fits _ hfits
  have hne : slashed conf.cacheDir (unslashed path) ≠ [] :=
    List.append_ne_nil_of_right_ne_nil _ (List.cons_ne_nil _ _)
  rw [← components_name] at hdots
  have hparent := dirs.resolve_dirname hne hdots
  have hdirFits := dirname_fits hfits
  have hdir : tmpstrPrintf (dirname (slashed conf.cacheDir (unslashed path))) =
      dirname (slashed conf.cacheDir (unslashed path)) := tmpstrPrintf_of_fits _ hdirFits
  rw [← hparent] at hfree ⊢
  unfold buildCacheTreeIn
  simp only
  rw [← unslashed, hname, hdir, if_pos hdup]
  rcases dirs.stat_cases hstat hfree with ⟨hfound, hthere⟩ | hmissing
  · rw [hfound]
    exact ⟨dirs.tree.untouched, rfl, DirTree.Reaches.untouched hthere⟩
  · rw [hmissing]
    obtain ⟨b, hbuilt, hreaches⟩ := mkdirTree_reaches dirs replies.mkdir hmkdir (dirname_ne_nil _) hdirFits hfree
    refine ⟨b, ?_, hreaches⟩
    simp only
    rw [if_pos trivial, hbuilt]
    rfl

end Built

/-- The directories above the cache file of a path are there after `build_cache_tree`, and it has made those of them
that were missing, each once, and no others. -/
theorem cacheTree_built (conf : Conf) (dirs : LocalDirs) (path : CStr) (replies : TreeReplies)
    (hdots : ∀ c ∈ components conf.cacheDir ++ components path, c ≠ ".".toList ∧ c ≠ "..".toList)
    (hfits : (slashed conf.cacheDir (unslashed path)).length < tmpstrMax)
    (hmkdir : ∀ name, replies.mkdir name = true) (hstat : ∀ errno, replies.stat = some errno → errno = enoent)
    (hfiles : ∀ node, dirs.Ancestor (slashed conf.cacheDir (unslashed path)) node → dirs.tree.files node = false) :
    ∃ returned, buildCacheTreeIn conf dirs path replies = .done returned ∧
      returned.1 = buildCacheTree conf path replies.dup ∧
      ∀ name, returned.1 = some name →
        (∀ node, dirs.Ancestor name node → returned.2.tree.dirs node = true) ∧
        (∀ node, node ∈ returned.2.made ↔ dirs.Ancestor name node ∧ dirs.tree.dirs node = false) ∧
        (∀ node, returned.2.tree.dirs node = true ↔ dirs.tree.dirs node = true ∨ node ∈ returned.2.made) ∧
        returned.2.made.Nodup := by
  cases hdup : replies.dup with
  | false =>
    refine ⟨(none, dirs.tree.untouched), ?_, rfl, fun name hname => by cases hname⟩
    unfold buildCacheTreeIn
    simp only
    rw [hdup]
    rfl
  | true =>
    obtain ⟨b, hbuilt, hreaches⟩ :=
      buildCacheTreeIn_reaches hdup (fun c hmem => (hdots c hmem).1) hfits hmkdir hstat hfiles
    have hname : some (slashed conf.cacheDir (unslashed path)) = buildCacheTree conf path true :=
      congrArg some (tmpstrPrintf_of_fits _ hfits).symm
    refine ⟨(some (slashed conf.cacheDir (unslashed path)), b), hbuilt, hname, fun name heq => ?_⟩
    obtain rfl := Option.some.inj heq
    have hmade (node : List CStr) : node ∈ b.made ↔
        dirs.Ancestor (slashed conf.cacheDir (unslashed path)) node ∧ dirs.tree.dirs node = false := by
      rw [hreaches.made_iff, LocalDirs.missing_ancestor_iff]
    have hdirs (node : List CStr) : b.tree.dirs node = true ↔ dirs.tree.dirs node = true ∨ node ∈ b.made := by
      rw [hreaches.dirs_iff, hreaches.made_iff]
      cases dirs.tree.dirs node <;> simp
    refine ⟨fun node hancestor => ?_, hmade, hdirs, hreaches.made_nodup⟩
    rw [hdirs, hmade]
    cases hthere : dirs.tree.dirs node with
    | true => exact Or.inl rfl
    | false => exact Or.inr ⟨hancestor, rfl⟩

/-- Only the root is there, and it is the working directory. -/
def LocalDirs.bare : LocalDirs where
  tree := {
    dirs := fun node => node.isEmpty
    files := fun _ => false
    root_dir := rfl
    parent_dir := fun node h => by
      rw [List.isEmpty_iff.mp (h.resolve_right Bool.false_ne_true)]
      rfl
    disjoint := fun _ _ => rfl }
  cwd := []
  cwd_dir := rfl

/-- For a file two directories down, these, the cache directory and the directory that it is in are made. -/
theorem cacheTree_built_deep :
    ∃ returned, buildCacheTreeIn Env.plain.conf LocalDirs.bare "/a//b/c".toList ⟨true, none, fun _ => true⟩ =
        .done returned ∧
      returned.1 = some "/tmp/b/a//b/c".toList ∧
      ∀ node, node ∈ returned.2.made ↔ LocalDirs.bare.Ancestor "/tmp/b/a//b/c".toList node ∧ node ≠ [] := by
  obtain ⟨returned, hbuilt, hname, hall⟩ := cacheTree_built Env.plain.conf LocalDirs.bare "/a//b/c".toList
    ⟨true, none, fun _ => true⟩ (by decide) (by decide) (fun _ => rfl) nofun (fun _ _ => rfl)
  have hreturned : returned.1 = some "/tmp/b/a//b/c".toList := hname
  refine ⟨returned, hbuilt, hreturned, fun node => ?_⟩
  obtain ⟨-, hmade, -⟩ := hall _ hreturned
  rw [hmade]
  exact and_congr_right' (by cases node <;> simp [LocalDirs.bare])

end Dropletfs
