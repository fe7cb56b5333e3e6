import Dropletfs.Attributes
import Dropletfs.Links

/-!
# Targets of symbolic links

`dfs_symlink` looks for the mount point anywhere in the target, and drops what comes before its
end and one character more. `dfs_readlink` copies the target without a NUL behind it.
-/

namespace Dropletfs

/-- The target of a link as it should be stored: the mount point is removed from its front. -/
def strippedTarget (rootDir oldpath : CStr) : CStr :=
  match (slashed rootDir []).isPrefixOf? oldpath with
  | some rest => rest
  | none => oldpath

/-- `strncpy`: what the memory from the buffer on holds afterwards. -/
def strncpy (mem : List Char) (src : CStr) (n : ℕ) : List Char :=
  src.take n ++ List.replicate (n - src.length) '\x00' ++ mem.drop n

/-- `dfs_readlink`: the value returned, and the memory from the buffer on. -/
def dfsReadlinkInto (env : Env) (w : World) (path : CStr) (mem : List Char) (bufsiz : ℕ) (getattr : ℕ → Status) :
    ℤ × List Char :=
  match foundTarget env w path getattr with
  | none => (0, mem)
  | some dest =>
    let destSize := if dest.length > bufsiz then bufsiz else dest.length
    (0, strncpy mem dest destSize)

/-- The buffer of this size holds the string with its NUL, and what follows the buffer is as it was. -/
structure HoldsString (mem mem' : List Char) (bufsiz : ℕ) (s : CStr) : Prop where
  terminated : '\x00' ∈ mem'.take bufsiz
  text : cString (mem'.take bufsiz) = s
  beyond : mem'.drop bufsiz = mem.drop bufsiz

/-- Every call that makes a link succeeds. -/
structure SymlinkReplies.Succeed (replies : SymlinkReplies) : Prop where
  mknod : ∀ i, (replies.mknod i).status = .success
  newDict : replies.newDict = true
  addSymlink : replies.addSymlink = .success
  addSize : replies.addSize = .success
  setattr : ∀ i, (replies.setattr i).status = .success

section Substrings

variable {needle s : CStr}

/-- A string that comes first is the first occurrence. -/
theorem afterFirst_append (needle rest : CStr) : afterFirst needle (needle ++ rest) = some rest := by
  cases hs : needle ++ rest with
  | nil =>
    obtain ⟨rfl, rfl⟩ := List.append_eq_nil_iff.mp hs
    rfl
  | cons c s =>
    rw [afterFirst, ← hs, List.isPrefixOf?_eq_some_iff_append_eq.mpr rfl]

/-- What follows an occurrence is a part of the string, with the occurrence before it. -/
theorem afterFirst_eq_some {rest : CStr} (h : afterFirst needle s = some rest) :
    ∃ front, s = front ++ needle ++ rest := by
  induction s with
  | nil =>
    rw [afterFirst] at h
    split at h
    · rename_i hnil
      obtain rfl := Option.some.inj h
      exact ⟨[], by rw [hnil]; rfl⟩
    · cases h
  | cons c s ih =>
    rw [afterFirst] at h
    split at h
    · rename_i hfront
      obtain rfl := Option.some.inj h
      exact ⟨[], (List.append_eq_of_isPrefixOf?_eq_some hfront).symm⟩
    · obtain ⟨front, hs⟩ := ih h
      exact ⟨c :: front, by rw [hs]; rfl⟩

/-- `strstr` finds nothing exactly when the string does not occur. -/
theorem afterFirst_eq_none_iff : afterFirst needle s = none ↔ ¬ needle <:+: s := by
  constructor
  · rintro hnone ⟨front, rest, rfl⟩
    induction front with
    | nil => exact absurd ((afterFirst_append needle rest).symm.trans hnone) (by simp)
    | cons c front ih =>
      rw [List.cons_append, List.cons_append, afterFirst] at hnone
      split at hnone
      · cases hnone
      · exact ih hnone
  · intro hnot
    cases hfound : afterFirst needle s with
    | none => rfl
    | some rest =>
      obtain ⟨front, hs⟩ := afterFirst_eq_some hfound
      exact absurd ⟨front, rest, hs.symm⟩ hnot

end Substrings

/-- The target is stored as it should be exactly when it starts with the mount point and a slash, or does not
contain the mount point. -/
theorem linkTarget_stripped_iff (rootDir oldpath : CStr) :
    linkTarget rootDir oldpath = some (strippedTarget rootDir oldpath) ↔
      slashed rootDir [] <+: oldpath ∨ ¬ rootDir <:+: oldpath := by
  have hslash : ∀ rest, slashed rootDir [] ++ rest = rootDir ++ '/' :: rest := fun rest => by simp [slashed]
  by_cases hfront : slashed rootDir [] <+: oldpath
  · obtain ⟨rest, rfl⟩ := hfront
    have hstripped : strippedTarget rootDir (slashed rootDir [] ++ rest) = rest := by
      rw [strippedTarget, List.isPrefixOf?_eq_some_iff_append_eq.mpr rfl]
    have htarget : linkTarget rootDir (slashed rootDir [] ++ rest) = some rest := by
      rw [hslash, linkTarget, afterFirst_append]
    rw [hstripped, htarget]
    exact ⟨fun _ => .inl ⟨rest, rfl⟩, fun _ => rfl⟩
  have hstripped : strippedTarget rootDir oldpath = oldpath := by
    unfold strippedTarget
    split
    · rename_i rest hrest
      exact absurd ⟨rest, List.append_eq_of_isPrefixOf?_eq_some hrest⟩ hfront
    · rfl
  rw [hstripped]
  cases hfound : afterFirst rootDir oldpath with
  | none =>
    rw [linkTarget, hfound]
    exact ⟨fun _ => .inr (afterFirst_eq_none_iff.mp hfound), fun _ => rfl⟩
  | some rest =>
    obtain ⟨front, hs⟩ := afterFirst_eq_some hfound
    constructor
    · intro htarget
      exfalso
      -- the string that is stored is shorter than the target
      rw [linkTarget, hfound] at htarget
      cases rest with
      | nil => cases htarget
      | cons c rest =>
        have hlength := congrArg List.length (Option.some.inj htarget)
        rw [hs, List.length_append, List.length_cons] at hlength
        omega
    · rintro (h | h)
      · exact absurd h hfront
      · exact absurd ⟨front, rest, hs.symm⟩ h

/-- With every call succeeding, the link is made unless its target would be read beyond its end. -/
theorem dfsSymlink_succeeds (env : Env) (rootDir : CStr) (w : World) (oldpath newpath : CStr)
    {replies : SymlinkReplies} (hreplies : replies.Succeed) :
    match linkTarget rootDir oldpath with
    | none => dfsSymlink env rootDir w oldpath newpath replies = .undefined
    | some target => ∃ w', dfsSymlink env rootDir w oldpath newpath replies = .done (0, w') ∧
        ∃ obj, w'.remote.lookup newpath = some obj ∧ obj.metadata = some (symlinkMetadata target) := by
  have hmknod : dfsMknodTimeout env.conf.maxRetry replies.mknod newpath w.remote =
      (.success, w.remote.insert newpath ⟨.reg, [], none, none⟩) := by
    have hfirst : dplMknod (replies.mknod 0) newpath w.remote =
        (.success, w.remote.insert newpath ⟨.reg, [], none, none⟩) := by
      rw [dplMknod, hreplies.mknod, (replies.mknod 0).applied_of_success (hreplies.mknod 0)]
      rfl
    rw [dfsMknodTimeout, writeTimeout, Attempts.run_of_decisive _ _ _ _ _ (by rw [hfirst]; rfl)]
    exact hfirst
  have hsetattr : ∀ dict, dfsSetattrTimeout env.conf.maxRetry replies.setattr newpath dict
      (w.remote.insert newpath ⟨.reg, [], none, none⟩) =
      (.success, (w.remote.insert newpath ⟨.reg, [], none, none⟩).insert newpath
        ⟨.reg, [], some dict, none⟩) := by
    intro dict
    have hfirst : dplSetattr (replies.setattr 0) newpath dict (w.remote.insert newpath ⟨.reg, [], none, none⟩) =
        (.success, (w.remote.insert newpath ⟨.reg, [], none, none⟩).insert newpath ⟨.reg, [], some dict, none⟩) := by
      rw [dplSetattr, AList.lookup_insert, hreplies.setattr,
        (replies.setattr 0).applied_of_success (hreplies.setattr 0)]
      rfl
    rw [dfsSetattrTimeout, writeTimeout, Attempts.run_of_decisive _ _ _ _ _ (by rw [hfirst]; rfl)]
    exact hfirst
  simp only [dfsSymlink, hmknod, ne_eq, not_true_eq_false, if_false, hreplies.newDict, hreplies.addSymlink,
    hreplies.addSize, Bool.true_eq_false]
  cases linkTarget rootDir oldpath with
  | none => rfl
  | some target =>
    simp only [World.log, hsetattr, not_true_eq_false, if_false]
    exact ⟨_, rfl, _, AList.lookup_insert _, rfl⟩

/-- With every call succeeding, the link is stored with its target inside the mount point, and its length, exactly
when the target starts with the mount point and a slash, or does not contain the mount point. -/
theorem symlink_stored_iff (env : Env) (rootDir : CStr) (w : World) (oldpath newpath : CStr)
    (replies : SymlinkReplies) (hreplies : replies.Succeed) :
    (∃ w' obj dict, dfsSymlink env rootDir w oldpath newpath replies = .done (0, w') ∧
        w'.remote.lookup newpath = some obj ∧ obj.metadata = some dict ∧
        dict "symlink".toList = some (strippedTarget rootDir oldpath) ∧
        dict "size".toList = some (decimal (strippedTarget rootDir oldpath).length)) ↔
      slashed rootDir [] <+: oldpath ∨ ¬ rootDir <:+: oldpath := by
  rw [← linkTarget_stripped_iff]
  have hcall := dfsSymlink_succeeds env rootDir w oldpath newpath hreplies
  cases htarget : linkTarget rootDir oldpath with
  | none =>
    simp only [htarget] at hcall
    constructor
    · rintro ⟨w', obj, dict, hrun, -⟩
      rw [hcall] at hrun
      cases hrun
    · intro h
      cases h
  | some target =>
    simp only [htarget] at hcall
    obtain ⟨w', hrun, obj, hobj, hmetadata⟩ := hcall
    have hstored : symlinkMetadata target "symlink".toList = some target := by
      simp [symlinkMetadata, Dict.updateValue]
    have hsize : symlinkMetadata target "size".toList = some (decimal target.length) := by
      simp [symlinkMetadata, Dict.updateValue]
    constructor
    · rintro ⟨w'', obj', dict, hrun', hobj', hmetadata', hsymlink, -⟩
      obtain ⟨-, rfl⟩ := Prod.mk.inj (Exec.done.inj (hrun.symm.trans hrun'))
      obtain rfl := Option.some.inj (hobj.symm.trans hobj')
      obtain rfl := Option.some.inj (hmetadata.symm.trans hmetadata')
      exact hstored.symm.trans hsymlink
    · intro h
      obtain rfl := Option.some.inj h
      exact ⟨w', obj, _, hrun, hobj, hmetadata, hstored, hsize⟩

/-- Replies of which all are successes. -/
def SymlinkReplies.granted : SymlinkReplies := ⟨fun _ => .granted, true, .success, .success, fun _ => .granted⟩

/-- Those replies are successes. -/
theorem SymlinkReplies.granted_succeed : SymlinkReplies.granted.Succeed :=
  ⟨fun _ => rfl, rfl, rfl, rfl, fun _ => rfl⟩

/-- A target below the mount point is stored without it. -/
theorem below_mount_stored :
    ∃ w' obj dict, dfsSymlink .plain "/mnt".toList (.start .empty ∅) "/mnt/a/b".toList "/l".toList .granted =
        .done (0, w') ∧ w'.remote.lookup "/l".toList = some obj ∧ obj.metadata = some dict ∧
        dict "symlink".toList = some (strippedTarget "/mnt".toList "/mnt/a/b".toList) ∧
        dict "size".toList = some (decimal (strippedTarget "/mnt".toList "/mnt/a/b".toList).length) :=
  (symlink_stored_iff .plain "/mnt".toList (.start .empty ∅) "/mnt/a/b".toList "/l".toList .granted
    SymlinkReplies.granted_succeed).mpr (.inl (by decide))

/-- A target next to the mount point, whose name starts like it, loses what they share and one character more. -/
theorem beside_mount_cut :
    linkTarget "/mnt".toList "/mnt2/a".toList = some "/a".toList ∧
      ¬ ∃ w' obj dict, dfsSymlink .plain "/mnt".toList (.start .empty ∅) "/mnt2/a".toList "/l".toList .granted =
          .done (0, w') ∧ w'.remote.lookup "/l".toList = some obj ∧ obj.metadata = some dict ∧
          dict "symlink".toList = some (strippedTarget "/mnt".toList "/mnt2/a".toList) ∧
          dict "size".toList = some (decimal (strippedTarget "/mnt".toList "/mnt2/a".toList).length) := by
  have htarget : linkTarget "/mnt".toList "/mnt2/a".toList = some "/a".toList := by decide
  refine ⟨htarget, ?_⟩
  rintro ⟨w', obj, dict, hrun, hobj, hmetadata, hsymlink, -⟩
  obtain ⟨target, obj', htarget', hobj', hmetadata'⟩ := dfsSymlink_success hrun
  obtain rfl := Option.some.inj (htarget.symm.trans htarget')
  obtain rfl := Option.some.inj (hobj'.symm.trans hobj)
  obtain rfl := Option.some.inj (hmetadata'.symm.trans hmetadata)
  have hstored : symlinkMetadata "/a".toList "symlink".toList = some "/a".toList := by
    simp [symlinkMetadata, Dict.updateValue]
  exact absurd (hstored.symm.trans hsymlink) (by decide)

/-- A copy of at most the whole string pads nothing. -/
theorem strncpy_of_le (mem : List Char) (src : CStr) {n : ℕ} (h : n ≤ src.length) :
    strncpy mem src n = src.take n ++ mem.drop n := by
  rw [strncpy, Nat.sub_eq_zero_of_le h, List.replicate_zero, List.append_nil]

/-- The target found is the one stored when the attributes were fetched. -/
theorem foundTarget_stored {env : Env} {w : World} {path target : CStr} {getattr : ℕ → Status} {obj : Obj} {dict : Dict}
    (hobj : w.remote.lookup path = some obj) (hmetadata : obj.metadata = some dict)
    (htarget : dict "symlink".toList = some target)
    (hfetched : (dfsGetattrTimeout env.conf.maxRetry getattr path w.remote).1 = .success) :
    foundTarget env w path getattr = some target := by
  unfold foundTarget
  cases hcall : dfsGetattrTimeout env.conf.maxRetry getattr path w.remote with
  | mk status metadata =>
    rw [hcall] at hfetched
    obtain rfl : status = .success := hfetched
    have hdict := dfsGetattrTimeout_metadata hcall (.inl rfl)
    rw [hobj, Option.bind_some, hmetadata] at hdict
    simp only [hdict, ne_eq, not_true_eq_false, if_false, Option.bind_some, htarget]

/-- What is put in the buffer goes in front of what was behind it. -/
theorem dfsReadlinkInto_eq (env : Env) (w : World) (path : CStr) (mem : List Char) (bufsiz : ℕ) (getattr : ℕ → Status) :
    dfsReadlinkInto env w path mem bufsiz getattr =
      ((dfsReadlink env w path bufsiz getattr).1,
        match (dfsReadlink env w path bufsiz getattr).2 with
        | none => mem
        | some written => written ++ mem.drop written.length) := by
  unfold dfsReadlinkInto dfsReadlink
  cases foundTarget env w path getattr with
  | none => rfl
  | some dest =>
    have hsize : (if dest.length > bufsiz then bufsiz else dest.length) = min bufsiz dest.length := by
      split <;> omega
    have hcut : dest.take (min bufsiz dest.length) = dest.take bufsiz := List.take_eq_take_min.symm
    simp only [hsize, strncpy_of_le mem dest (Nat.min_le_right _ _), List.length_take, hcut]

/-- Reading a link leaves its target in the buffer, cut to the space there is and with a NUL behind it, exactly when
the target leaves room for the NUL and the buffer had one there. -/
theorem readlink_holds_iff (env : Env) (w : World) (path target : CStr) (mem : List Char) (bufsiz : ℕ)
    (getattr : ℕ → Status) (obj : Obj) (dict : Dict) (hobj : w.remote.lookup path = some obj)
    (hmetadata : obj.metadata = some dict) (hstored : dict "symlink".toList = some target) (hnul : '\x00' ∉ target)
    (hfetched : (dfsGetattrTimeout env.conf.maxRetry getattr path w.remote).1 = .success) (hsize : 1 ≤ bufsiz)
    (hmem : bufsiz ≤ mem.length) :
    HoldsString mem (dfsReadlinkInto env w path mem bufsiz getattr).2 bufsiz (target.take (bufsiz - 1)) ↔
      target.length < bufsiz ∧ mem[target.length]? = some '\x00' := by
  have hfound := foundTarget_stored hobj hmetadata hstored hfetched
  have hcall : (dfsReadlinkInto env w path mem bufsiz getattr).2 =
      strncpy mem target (if target.length > bufsiz then bufsiz else target.length) := by
    simp only [dfsReadlinkInto, hfound]
  rw [hcall]
  by_cases hfits : target.length < bufsiz
  · -- the target is followed by what the buffer held there
    have hnot : ¬ target.length > bufsiz := by omega
    have hrest : target.length < mem.length := by omega
    rw [if_neg hnot, strncpy_of_le mem target le_rfl, List.take_length]
    have hdrop : mem.drop target.length = mem[target.length] :: mem.drop (target.length + 1) :=
      List.drop_eq_getElem_cons hrest
    have hbuffer : (target ++ mem.drop target.length).take bufsiz =
        target ++ mem[target.length] :: (mem.drop (target.length + 1)).take (bufsiz - target.length - 1) := by
      obtain ⟨left, hleft⟩ : ∃ left, bufsiz - target.length = left + 1 := ⟨bufsiz - target.length - 1, by omega⟩
      rw [List.take_append, List.take_of_length_le (by omega), hdrop, hleft, List.take_succ_cons]
      rfl
    have hbeyond : (target ++ mem.drop target.length).drop bufsiz = mem.drop bufsiz := by
      rw [List.drop_append, List.drop_eq_nil_of_le (by omega), List.nil_append, List.drop_drop]
      congr 1
      omega
    have hall : target.take (bufsiz - 1) = target := List.take_of_length_le (by omega)
    have hat : mem[target.length]? = some mem[target.length] := List.getElem?_eq_getElem hrest
    rw [hall, hat, Option.some.injEq]
    constructor
    · intro h
      have htext := h.text
      rw [hbuffer, cString_append hnul] at htext
      refine ⟨hfits, ?_⟩
      by_contra hne
      rw [cString, List.takeWhile_cons, if_pos (decide_eq_true hne)] at htext
      have hlength := congrArg List.length htext
      rw [List.length_append, List.length_cons] at hlength
      omega
    · rintro ⟨-, hzero⟩
      refine ⟨?_, ?_, hbeyond⟩
      · rw [hbuffer, hzero]
        simp
      · rw [hbuffer, cString_append hnul, hzero]
        simp [cString]
  · -- all of the buffer is taken by the target
    have hsame : (if target.length > bufsiz then bufsiz else target.length) = bufsiz := by
      split <;> omega
    rw [hsame, strncpy_of_le mem target (by omega)]
    have hbuffer : (target.take bufsiz ++ mem.drop bufsiz).take bufsiz = target.take bufsiz := by
      rw [List.take_append, List.length_take, Nat.min_eq_left (by omega), Nat.sub_self, List.take_zero, List.append_nil,
        List.take_of_length_le (by rw [List.length_take]; omega)]
    constructor
    · intro h
      have hterminated := h.terminated
      rw [hbuffer] at hterminated
      exact absurd (List.mem_of_mem_take hterminated) hnul
    · intro h
      exact absurd h.1 hfits

/-- A state whose store has one link. -/
def World.linking (target : CStr) : World :=
  .start .empty ((∅ : Remote).insert "/l".toList ⟨.reg, [], some (symlinkMetadata target), none⟩)

/-- The link is read when the first fetch of its attributes succeeds. -/
theorem linking_fetched (target : CStr) :
    (dfsGetattrTimeout Env.plain.conf.maxRetry (fun _ => .success) "/l".toList (World.linking target).remote).1 =
      .success := by
  have hobj : (World.linking target).remote.lookup "/l".toList =
      some ⟨.reg, [], some (symlinkMetadata target), none⟩ := AList.lookup_insert _
  have hfirst : (dplGetattr .success "/l".toList (World.linking target).remote).1 = .success := by
    simp only [dplGetattr, hobj, Option.isSome_some, Status.onExisting, Bool.true_eq_false, and_false, if_false]
  rw [dfsGetattrTimeout, readTimeout, Attempts.run_of_decisive _ _ _ _ _ (by rw [hfirst]; rfl)]
  exact hfirst

/-- A target is read into a buffer of zeros. -/
theorem zeros_hold_target :
    HoldsString (List.replicate 4 '\x00') (dfsReadlinkInto .plain (.linking "ab".toList) "/l".toList
      (List.replicate 4 '\x00') 4 fun _ => .success).2 4 ("ab".toList.take (4 - 1)) :=
  (readlink_holds_iff .plain (.linking "ab".toList) "/l".toList "ab".toList (List.replicate 4 '\x00') 4
    (fun _ => .success) ⟨.reg, [], some (symlinkMetadata "ab".toList), none⟩ (symlinkMetadata "ab".toList)
    (AList.lookup_insert _) rfl (by simp [symlinkMetadata, Dict.updateValue]) (by decide)
    (linking_fetched "ab".toList) (by decide) (by decide)).mpr ⟨by decide, by decide⟩

/-- A target is read into a buffer that held something else, which stays behind it. -/
theorem remains_follow_target :
    (dfsReadlinkInto .plain (.linking "ab".toList) "/l".toList "xxxx".toList 4 fun _ => .success).2 =
        "abxx".toList ∧
      ¬ HoldsString "xxxx".toList (dfsReadlinkInto .plain (.linking "ab".toList) "/l".toList "xxxx".toList 4
        fun _ => .success).2 4 ("ab".toList.take (4 - 1)) := by
  have hfound : foundTarget .plain (.linking "ab".toList) "/l".toList (fun _ => .success) = some "ab".toList :=
    foundTarget_stored (AList.lookup_insert _) rfl (by simp [symlinkMetadata, Dict.updateValue])
      (linking_fetched "ab".toList)
  have hcall : (dfsReadlinkInto .plain (.linking "ab".toList) "/l".toList "xxxx".toList 4 fun _ => .success).2 =
      "abxx".toList := by
    simp only [dfsReadlinkInto, hfound]
    decide
  refine ⟨hcall, ?_⟩
  rw [hcall]
  intro h
  exact absurd h.terminated (by decide)

end Dropletfs
