import Dropletfs.Lookup
import Dropletfs.Rename

/-!
# Path buffers

To look up the parent of a path, three functions overwrite its last slash by a NUL inside the
buffer of the caller. Here these functions are given the memory that the buffers are in, and
pointers into it.
-/

namespace Dropletfs

/-- The string a pointer leads to. -/
def strAt (mem : List Char) (s : ℕ) : CStr := cString (mem.drop s)

/-- `strrchr(s, '/')`. -/
def strrchrSlash (mem : List Char) (s : ℕ) : Option ℕ :=
  (beforeLastSlash (strAt mem s)).map fun front => s + front.length

/-- The name of the directory of a path whose last slash is at `p`, which is cut off there. -/
def cutDirname (mem : List Char) (path p : ℕ) : CStr × List Char :=
  if p = path then ("/".toList, mem) else (strAt (mem.set p '\x00') path, mem.set p '\x00')

/-- `if (! *p) *p = '/'`. -/
def restoreSlash (mem : List Char) (p : ℕ) : List Char :=
  if mem[p]? = some '\x00' then mem.set p '/' else mem

/-- `hash_fill_dirent`, with the memory it leaves. -/
def hashFillDirentIn (w : World) (mem : List Char) (path : ℕ) (reply : Bool) : ℤ × World × List Char :=
  match strrchrSlash mem path with
  | none => (-1, w, mem)
  | some p =>
    let (dirname, mem) := cutDirname mem path p
    match w.table dirname with
    | none => (-1, w, mem)
    | some addr =>
      let mem := restoreSlash mem p
      (0, w.modify addr fun pe => pe.addDirent (strAt mem path) reply, mem)

/-- `dfs_unlink`, with the memory it leaves. -/
def dfsUnlinkIn (env : Env) (w : World) (mem : List Char) (path : ℕ) (replies : UnlinkReplies) :
    ℤ × World × List Char :=
  let (status, r) := dfsUnlinkTimeout env.conf.maxRetry replies.unlink (strAt mem path) w.remote
  let w := { w with remote := r }.log (.unlink (strAt mem path))
  if status ≠ .success then (1, w, mem)
  else
    let w := { w with fs := w.fs.unlink (cacheName env.conf (strAt mem path)) replies.unlinkCache }
    match w.table (strAt mem path) with
    | none => (0, w, mem)
    | some _ =>
      let w := w.remove (strAt mem path)
      match strrchrSlash mem path with
      | none => (0, w, mem)
      | some p =>
        let (dirname, mem) := cutDirname mem path p
        let mem := restoreSlash mem p
        (0, w.removeDirentOf (some dirname) (strAt mem path) replies.junkType, mem)

/-- `rename_file`, with the memory it leaves. -/
def renameFileIn (env : Env) (w : World) (mem : List Char) (oldpath newpath : ℕ) (replies : RenameReplies) :
    ℤ × World × List Char :=
  let old := strAt mem oldpath
  let new := strAt mem newpath
  let w := w.log (.renameFile old new)
  let (status, r) := dfsFcopyTimeout env.conf.maxRetry (replies.fcopy old new) old new w.remote
  let w := { w with remote := r }.log (.fcopy old new)
  if status ≠ .success then (-1, w, mem)
  else
    let (w, mem) := match strrchrSlash mem newpath with
      | none => (w, mem)
      | some p =>
        if p = newpath then (w, mem)
        else
          let dirname := strAt (mem.set p '\x00') newpath
          let mem := (mem.set p '\x00').set p '/'
          (w.removeDirentOf (some dirname) (strAt mem oldpath) (replies.unlink old).junkType, mem)
    dfsUnlinkIn env w mem oldpath (replies.unlink (strAt mem oldpath))

/-- The path is in the root directory, or has no slash, or its directory is in the table. -/
def ParentKnown (w : World) (path : CStr) : Prop :=
  ∀ front, beforeLastSlash path = some front → front = [] ∨ (w.table front).isSome

/-- What comes before the last slash, and the name behind it. -/
theorem beforeLastSlash_eq_some {path front : CStr} (h : beforeLastSlash path = some front) :
    ∃ name, path = front ++ '/' :: name ∧ '/' ∉ name := by
  unfold beforeLastSlash at h
  cases hback : path.reverse.dropWhile (· != '/') with
  | nil => simp [hback] at h
  | cons c back =>
    simp only [hback, Option.some.injEq] at h
    have hsplit : path.reverse = path.reverse.takeWhile (· != '/') ++ c :: back := by
      rw [← hback, List.takeWhile_append_dropWhile]
    have hc : c = '/' := by
      have hhead := List.head_dropWhile_not (fun c : Char => c != '/') (l := path.reverse) (by simp [hback])
      simpa [hback] using hhead
    refine ⟨(path.reverse.takeWhile (· != '/')).reverse, ?_, ?_⟩
    · have hpath := congrArg List.reverse hsplit
      simpa [hc, h] using hpath
    · intro hmem
      have hkept := List.mem_takeWhile_imp (List.mem_reverse.mp hmem)
      simp at hkept

section Cut

variable {mem : List Char} {path p : ℕ} {front : CStr}

/-- The last slash is a character of the string, which is what comes before it, the slash and a name. -/
theorem drop_of_strrchrSlash (h : beforeLastSlash (strAt mem path) = some front) :
    ∃ rest, mem.drop path = front ++ '/' :: rest ∧ '\x00' ∉ front := by
  obtain ⟨name, hpath, -⟩ := beforeLastSlash_eq_some h
  refine ⟨name ++ (mem.drop path).dropWhile (· ≠ '\x00'), ?_, ?_⟩
  · calc mem.drop path
        = strAt mem path ++ (mem.drop path).dropWhile (· ≠ '\x00') := List.takeWhile_append_dropWhile.symm
      _ = front ++ '/' :: (name ++ (mem.drop path).dropWhile (· ≠ '\x00')) := by simp [hpath]
  · intro hmem
    apply noNul_cString (mem.drop path)
    rw [← strAt, hpath]
    exact List.mem_append_left _ hmem

/-- Where the last slash is. -/
theorem getElem?_slash (h : beforeLastSlash (strAt mem path) = some front) :
    mem[path + front.length]? = some '/' := by
  obtain ⟨rest, hdrop, -⟩ := drop_of_strrchrSlash h
  rw [← List.getElem?_drop, hdrop]
  simp

/-- The string that is left when the last slash is overwritten. -/
theorem strAt_cut (h : beforeLastSlash (strAt mem path) = some front) :
    strAt (mem.set (path + front.length) '\x00') path = front := by
  obtain ⟨rest, hdrop, hnul⟩ := drop_of_strrchrSlash h
  have hset : (mem.set (path + front.length) '\x00').drop path = front ++ '\x00' :: rest := by
    rw [List.drop_set, if_neg (by omega), Nat.add_sub_cancel_left, hdrop]
    simp
  rw [strAt, hset, cString_append hnul]
  simp [cString]

/-- Overwriting the last slash changes the memory. -/
theorem set_slash_ne (h : mem[p]? = some '/') : mem.set p '\x00' ≠ mem := by
  intro heq
  obtain ⟨hp, hslash⟩ := List.getElem?_eq_some_iff.mp h
  have hnul : (mem.set p '\x00')[p]? = some '\x00' := List.getElem?_set_self hp
  rw [heq, h] at hnul
  exact absurd hnul (by decide)

/-- Writing the slash back undoes it. -/
theorem set_slash_back (h : mem[p]? = some '/') : (mem.set p '\x00').set p '/' = mem := by
  obtain ⟨hp, hslash⟩ := List.getElem?_eq_some_iff.mp h
  rw [List.set_set, ← hslash, List.set_getElem_self]

/-- The test before writing the slash back holds when it has been overwritten. -/
theorem restoreSlash_cut (h : mem[p]? = some '/') : restoreSlash (mem.set p '\x00') p = mem := by
  obtain ⟨hp, -⟩ := List.getElem?_eq_some_iff.mp h
  rw [restoreSlash, if_pos (List.getElem?_set_self hp), set_slash_back h]

/-- And does not when it has not. -/
theorem restoreSlash_uncut (h : mem[p]? = some '/') : restoreSlash mem p = mem := by
  rw [restoreSlash, h, if_neg (by decide)]

/-- The name of the directory is that of the parent, and the memory is cut unless the directory is the root. -/
theorem cutDirname_eq (h : beforeLastSlash (strAt mem path) = some front) :
    cutDirname mem path (path + front.length) =
      if front = [] then ("/".toList, mem) else (front, mem.set (path + front.length) '\x00') := by
  unfold cutDirname
  by_cases hfront : front = []
  · simp [hfront]
  · rw [if_neg hfront, if_neg, strAt_cut h]
    have := List.length_pos_iff.mpr hfront
    omega

/-- Once the slash is written back, the memory is as before. -/
theorem restoreSlash_cutDirname (h : beforeLastSlash (strAt mem path) = some front) :
    restoreSlash (cutDirname mem path (path + front.length)).2 (path + front.length) = mem := by
  rw [cutDirname_eq h]
  split
  · exact restoreSlash_uncut (getElem?_slash h)
  · exact restoreSlash_cut (getElem?_slash h)

/-- The directory that is looked up is the parent. -/
theorem cutDirname_name (h : beforeLastSlash (strAt mem path) = some front) :
    some (cutDirname mem path (path + front.length)).1 = parentName (strAt mem path) := by
  rw [cutDirname_eq h, parentName, h]
  split <;> simp [*]

end Cut

/-- What is left of the memory when the parent is not in the table. -/
def cutParent (mem : List Char) (path : ℕ) : List Char :=
  match strrchrSlash mem path with
  | none => mem
  | some p => (cutDirname mem path p).2

/-- `hash_fill_dirent` does to the table what it does for the string, and leaves the path cut unless it finds
the parent. -/
theorem hashFillDirentIn_eq (w : World) (mem : List Char) (path : ℕ) (reply : Bool) :
    (hashFillDirentIn w mem path reply).2 = (w.fillDirent (strAt mem path) reply,
      if ((parentName (strAt mem path)).bind w.table).isSome then mem else cutParent mem path) := by
  unfold hashFillDirentIn World.fillDirent cutParent
  cases hslash : beforeLastSlash (strAt mem path) with
  | none => simp [strrchrSlash, parentName, hslash]
  | some front =>
    have hname := cutDirname_name hslash
    have hback := restoreSlash_cutDirname hslash
    simp only [strrchrSlash, hslash, Option.map_some]
    rw [← hname, Option.bind_some]
    cases htable : w.table (cutDirname mem path (path + front.length)).1 with
    | none => simp
    | some addr => simp [hback]

/-- `hash_fill_dirent` leaves the memory as it was exactly when it finds the parent or cuts nothing. -/
theorem hashFillDirentIn_kept_iff (w : World) (mem : List Char) (path : ℕ) (reply : Bool) :
    (hashFillDirentIn w mem path reply).2.2 = mem ↔ ParentKnown w (strAt mem path) := by
  rw [hashFillDirentIn_eq]
  cases hslash : beforeLastSlash (strAt mem path) with
  | none => simp [ParentKnown, cutParent, strrchrSlash, hslash]
  | some front =>
    have hcut := cutDirname_eq hslash
    have hne := set_slash_ne (getElem?_slash hslash)
    simp only [ParentKnown, cutParent, strrchrSlash, hslash, parentName, Option.map_some, Option.bind_some,
      Option.some.injEq, forall_eq', hcut]
    by_cases hfront : front = []
    · simp [hfront]
    · cases htable : w.table front with
      | none => simp [hfront, htable, hne]
      | some addr => simp [hfront, htable]

/-- `dfs_unlink` does what it does for the string, and the memory is as it was on every way out. -/
theorem dfsUnlinkIn_eq (env : Env) (w : World) (mem : List Char) (path : ℕ) (replies : UnlinkReplies) :
    dfsUnlinkIn env w mem path replies =
      ((dfsUnlink env w (strAt mem path) replies).1, (dfsUnlink env w (strAt mem path) replies).2, mem) := by
  unfold dfsUnlinkIn dfsUnlink
  simp only [World.log]
  split
  · rfl
  · cases htable : w.table (strAt mem path) with
    | none => rfl
    | some addr =>
      cases hslash : beforeLastSlash (strAt mem path) with
      | none => simp only [strrchrSlash, hslash, Option.map_none, parentName, World.removeDirentOf, Option.bind_none]
      | some front =>
        simp only [strrchrSlash, hslash, Option.map_some, restoreSlash_cutDirname hslash, cutDirname_name hslash]

/-- `rename_file` does what it does for the strings, and the memory is as it was on every way out. -/
theorem renameFileIn_eq (env : Env) (w : World) (mem : List Char) (oldpath newpath : ℕ) (replies : RenameReplies) :
    renameFileIn env w mem oldpath newpath replies =
      ((renameFile env w (strAt mem oldpath) (strAt mem newpath) replies).1,
        (renameFile env w (strAt mem oldpath) (strAt mem newpath) replies).2, mem) := by
  unfold renameFileIn renameFile
  simp only
  split
  · rfl
  · cases hslash : beforeLastSlash (strAt mem newpath) with
    | none => simp [strrchrSlash, hslash, World.removeDirentOf, dfsUnlinkIn_eq]
    | some front =>
      cases front with
      | nil => simp [strrchrSlash, hslash, World.removeDirentOf, dfsUnlinkIn_eq]
      | cons c front =>
        have hne : newpath + (c :: front).length ≠ newpath := by
          rw [List.length_cons]
          omega
        simp only [strrchrSlash, hslash, Option.map_some, if_neg hne, set_slash_back (getElem?_slash hslash),
          strAt_cut hslash, dfsUnlinkIn_eq]

/-- The three functions leave every path as they were given it exactly when `hash_fill_dirent` is given a path
whose parent the table knows; the other two always do. -/
theorem paths_kept_iff (env : Env) (w : World) (mem : List Char) (path oldpath newpath : ℕ) (reply : Bool)
    (unlink : UnlinkReplies) (rename : RenameReplies) :
    (hashFillDirentIn w mem path reply).2.2 = mem ∧ (dfsUnlinkIn env w mem path unlink).2.2 = mem ∧
        (renameFileIn env w mem oldpath newpath rename).2.2 = mem ↔
      ParentKnown w (strAt mem path) := by
  rw [hashFillDirentIn_kept_iff, dfsUnlinkIn_eq, renameFileIn_eq]
  simp

/-- With an empty table the path `/d/f` comes back as `/d`. -/
theorem nested_path_cut :
    (hashFillDirentIn (.start .empty ∅) "/d/f\x00".toList 0 true).2.2 = "/d\x00f\x00".toList ∧
      "/d\x00f\x00".toList ≠ "/d/f\x00".toList := by
  decide

end Dropletfs
