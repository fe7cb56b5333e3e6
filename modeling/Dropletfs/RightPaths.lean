import Dropletfs.Progress
import Dropletfs.TreeRename

/-!
# The paths of a recursive rename

The strings of the ring that hold the paths of a directory stay in use while what is in it is
moved. They last as long as no directory below the one that is renamed formats a round of
strings, which its files and its directories at every depth count towards. Exactly then the
rename of a tree is made on the right paths.
-/

namespace Dropletfs

open PathOrder

/-- The calls that a rename of the tree is to make: one to move each file, and one to remove the directory and each
one in it. -/
def RemoteTree.Due (tree : RemoteTree) (old new : CStr) (event : Event) : Prop :=
  (∃ rel ∈ tree.inside.files, event = .renameFile (slashed old rel) (slashed new rel)) ∨
    event = .dfsRmdir old ∨ ∃ rel ∈ tree.inside.dirs, event = .dfsRmdir (slashed old rel)

/-- The rename of the tree has returned, has made each call that is due once and no other, and has not written over
a path that a call in progress was given. -/
def RemoteTree.RightPaths (tree : RemoteTree) (w : World) (old new : CStr) (run : Exec (ℤ × Renaming)) : Prop :=
  ∃ ret s' made, run = .done (ret, s') ∧ s'.world.calls = w.calls ++ made ∧ made.Nodup ∧
    (∀ event, event ∈ made ↔ tree.Due old new event) ∧ s'.ring.reused = false

/-- The tree stands at a path other than the root, and can be placed at the new one. The kernel has seen to it that
neither path is below the other. -/
structure RemoteTree.PlacedAt (tree : RemoteTree) (r : Remote) (old new : CStr) : Prop where
  stands : tree.StandsAt r old
  notRoot : old ≠ "/".toList
  placed : tree.inside.Placed old new

/-- All the calls that it takes to move the tree succeed. -/
structure RemoteTree.CanMove (tree : RemoteTree) (env : Env) (replies : RenameReplies) (r : Remote)
    (old new : CStr) : Prop extends tree.PlacedAt r old new where
  entered : replies.MovesDir env r tree.inside.listing old new
  moves : tree.inside.Moves env replies r old new

/-- The path that a call takes an object from. -/
def Event.source : Event → CStr
  | .renameFile old _ => old
  | .dfsRmdir path => path
  | _ => []

namespace Forest

variable {forest : Forest} {old new : CStr}

/-- The calls for a directory are those for its files and its directories. -/
theorem mem_calls {event : Event} : event ∈ forest.calls old new ↔
    (∃ rel ∈ forest.files, event = .renameFile (slashed old rel) (slashed new rel)) ∨
      ∃ rel ∈ forest.dirs, event = .dfsRmdir (slashed old rel) := by
  induction forest generalizing old new with
  | nil => simp [calls, files, dirs]
  | file name rest ih => simp [calls, files, dirs, ih, or_assoc]
  | dir name inner rest ihInner ih =>
    simp only [calls, files, dirs, List.mem_append, List.mem_cons, ihInner, ih, or_and_right, exists_or, exists_eq_left,
      List.mem_map, exists_exists_and_eq_and, slashed_slashed]
    rw [or_left_comm, or_or_or_comm, or_left_comm]

/-- The calls for a directory take each path once. -/
theorem calls_sources (forest : Forest) (old new : CStr) :
    ((forest.calls old new).map Event.source).Perm (forest.paths old) := by
  induction forest generalizing old new with
  | nil => exact .refl _
  | file name rest ih => exact (ih old new).cons _
  | dir name inner rest ihInner ih =>
    rw [calls, paths, List.map_append, List.map_cons]
    exact List.perm_middle.trans (((ihInner _ _).append (ih _ _)).cons _)

end Forest

/-- What a rename by path does when no string is in use, the rename with its strings in the ring does. -/
theorem renameDirectory_of_moved {env : Env} {replies : RenameReplies} {ring : Ring} (hidle : ring.live = [])
    {depth : ℕ} {w : World} {old new : CStr} {ret : ℤ} {moved : PathRenaming}
    (hmove : moveDirectory env replies depth ⟨w, none⟩ old new = .done (ret, moved)) :
    ∃ ring', renameDirectory env replies depth ⟨w, ring⟩ (.caller old) (.caller new) =
      .done (ret, ⟨moved.world, ring'⟩) ∧ ring'.reused = ring.reused := by
  have hfollows := renameDirectory_follows_caller env replies hidle depth w old new
  rw [hmove] at hfollows
  obtain ⟨ring', hdone, hformatted⟩ := hfollows
  exact ⟨ring', hdone, hformatted.reused⟩

namespace RemoteTree

variable {env : Env} {replies : RenameReplies} {tree : RemoteTree} {w : World} {ring : Ring} {old new : CStr}

/-- The calls that are due, in the order in which they are made. -/
theorem mem_calls_iff_due (tree : RemoteTree) (event : Event) :
    event ∈ tree.inside.calls old new ++ [.dfsRmdir old] ↔ tree.Due old new event := by
  rw [List.mem_append, List.mem_singleton, Forest.mem_calls, Due, or_assoc]
  exact or_congr_right or_comm

/-- Each of them is made once. -/
theorem calls_nodup (tree : RemoteTree) (old new : CStr) :
    (tree.inside.calls old new ++ [Event.dfsRmdir old]).Nodup := by
  refine List.Nodup.of_map Event.source ?_
  have hsources := (tree.inside.calls_sources old new).append_right [old]
  rw [List.map_append, List.map_singleton]
  refine hsources.nodup_iff.mpr (List.nodup_append'.mpr ⟨tree.proper.paths_nodup, List.nodup_singleton _, ?_⟩)
  intro path hmem htop
  rw [List.mem_singleton.mp htop] at hmem
  exact Forest.top_notMem_paths hmem

/-- The tree is a directory. -/
theorem StandsAt.ftype {r : Remote} (h : tree.StandsAt r old) (hroot : old ≠ "/".toList) : r.ftype old = some .dir := by
  obtain ⟨obj, hobj, htype⟩ := h.isDir
  rw [Remote.ftype_of_lookup hroot hobj, htype]

/-- The rename of the tree by path moves it, or is undefined. -/
theorem PlacedAt.moveDirectory (h : tree.PlacedAt w.remote old new)
    (hentered : replies.MovesDir env w.remote tree.inside.listing old new)
    (hmoves : tree.inside.Moves env replies w.remote old new) {depth : ℕ} (hdepth : tree.inside.depth < depth) :
    (tree.inside.Fits → ∃ w', Dropletfs.moveDirectory env replies depth ⟨w, none⟩ old new = .done (0, ⟨w', none⟩) ∧
        tree.inside.DirMoved w w' old new ∧
        (replies.ClearsDir env w.remote old new → tree.inside.Clears env replies w.remote old new →
          tree.inside.DirGoneOver w.remote w'.remote old new)) ∧
      (¬ tree.inside.Fits → Dropletfs.moveDirectory env replies depth ⟨w, none⟩ old new = .undefined) := by
  obtain ⟨depth, rfl⟩ : ∃ n, depth = n + 1 := ⟨depth - 1, by omega⟩
  exact Forest.moveDirectory_moves h.placed h.notRoot hentered
    (Forest.movedBy tree.inside (Nat.le_of_lt_succ hdepth) h.placed hmoves) (h.stands.ftype h.notRoot) h.stands.listed
    ⟨h.stands.inside, fun _ _ => rfl⟩ rfl fun _ hnone => absurd hnone (Option.not_mem_none _)

/-- When the strings of each directory can be formatted, the rename is on the right paths. -/
theorem CanMove.rightPaths (h : tree.CanMove env replies w.remote old new) {depth : ℕ}
    (hdepth : tree.inside.depth < depth) (hidle : ring.live = []) (hfresh : ring.reused = false)
    (hfits : tree.inside.Fits) :
    tree.RightPaths w old new (renameDirectory env replies depth ⟨w, ring⟩ (.caller old) (.caller new)) := by
  obtain ⟨w', hmove, hmoved, -⟩ := (h.toPlacedAt.moveDirectory h.entered h.moves hdepth).1 hfits
  obtain ⟨ring', hdone, hreused⟩ := renameDirectory_of_moved hidle hmove
  exact ⟨0, ⟨w', ring'⟩, _, hdone, hmoved.calls, tree.calls_nodup old new, tree.mem_calls_iff_due,
    hreused.trans hfresh⟩

/-- When those of some directory cannot, a path is written over while it is in use. -/
theorem CanMove.writtenOver (h : tree.CanMove env replies w.remote old new) {depth : ℕ}
    (hdepth : tree.inside.depth < depth) (hidle : ring.live = []) (hcrowded : ¬ tree.inside.Fits) {ret : ℤ}
    {s' : Renaming}
    (hrun : renameDirectory env replies depth ⟨w, ring⟩ (.caller old) (.caller new) = .done (ret, s')) :
    s'.ring.reused = true := by
  have hfollows := renameDirectory_follows_caller env replies hidle depth w old new
  rw [(h.toPlacedAt.moveDirectory h.entered h.moves hdepth).2 hcrowded] at hfollows
  exact hfollows ret s' hrun

/-- The rename then is not on the right paths. -/
theorem CanMove.not_rightPaths (h : tree.CanMove env replies w.remote old new) {depth : ℕ}
    (hdepth : tree.inside.depth < depth) (hidle : ring.live = []) (hcrowded : ¬ tree.inside.Fits) :
    ¬ tree.RightPaths w old new (renameDirectory env replies depth ⟨w, ring⟩ (.caller old) (.caller new)) := by
  rintro ⟨ret, s', made, hrun, -, -, -, hreused⟩
  have hover := h.writtenOver hdepth hidle hcrowded hrun
  rw [hreused] at hover
  exact Bool.false_ne_true hover

end RemoteTree

/-- With all calls succeeding, a recursive rename works on the right paths exactly when no directory below the one that
is renamed needs more strings than the ring has left beside the two paths it was given. -/
theorem renameDirectory_rightPaths_iff (env : Env) (replies : RenameReplies) (tree : RemoteTree) (w : World)
    (ring : Ring) (old new : CStr) (depth : ℕ) (hmove : tree.CanMove env replies w.remote old new)
    (hdepth : tree.inside.depth < depth) (hidle : ring.live = []) (hfresh : ring.reused = false) :
    tree.RightPaths w old new (renameDirectory env replies depth ⟨w, ring⟩ (.caller old) (.caller new)) ↔
      tree.inside.Fits := by
  refine ⟨fun hright => ?_, hmove.rightPaths hdepth hidle hfresh⟩
  by_contra hcrowded
  exact hmove.not_rightPaths hdepth hidle hcrowded hright

section Granted

variable (env : Env) (old new : CStr)

/-- Granted lookups find what there is. -/
theorem RenameReplies.granted_findsEntry (path : CStr) : RenameReplies.granted.FindsEntry env path :=
  fun _ hfound => dfsNameiTimeout_granted _ (fun _ => rfl) hfound

/-- Granted calls move files. -/
theorem RenameReplies.granted_movesFile : RenameReplies.granted.MovesFile env old new where
  copied r hobj := by
    obtain ⟨obj, hobj⟩ := Option.isSome_iff_exists.mp hobj
    have hfirst : dplFcopy .granted old new r = (.success, r.insert new obj) := by
      simp [dplFcopy, hobj, Reply.granted]
    rw [dfsFcopyTimeout, writeTimeout, Attempts.run_of_decisive _ _ _ _ _ (congrArg (Status.retriable ·.1) hfirst)]
    exact congrArg Prod.fst hfirst
  unlinked r hobj := by
    have hfirst : (dplUnlink .granted old r).1 = .success :=
      (Status.onExisting_eq_success _ _).mpr ⟨rfl, hobj⟩
    rw [dfsUnlinkTimeout, writeTimeout, Attempts.run_of_decisive _ _ _ _ _ (congrArg Status.retriable hfirst)]
    exact hfirst

/-- Granted calls move directories. -/
theorem RenameReplies.granted_movesDir (r : Remote) (names : List CStr) :
    RenameReplies.granted.MovesDir env r names old new where
  target := by
    obtain ⟨i, hi⟩ := readTimeout_eq_attempt env.conf.maxRetry Status.retriable fun _ => dplNamei .success new r
    have hstatus : (dfsNameiTimeout env.conf.maxRetry (RenameReplies.granted.nameiTarget new) new r).1 =
        Status.onExisting .success (r.ftype new).isSome := congrArg Prod.fst hi
    rw [RenameReplies.HasTarget, hstatus]
    cases (r.ftype new).isSome
    · exact .inr ⟨rfl, fun r => congrArg Prod.fst (Attempts.run_of_decisive _ _ env.conf.maxRetry.toNat 0 r rfl)⟩
    · exact .inl rfl
  entered r hdir := by
    obtain ⟨i, hi⟩ := readTimeout_eq_attempt env.conf.maxRetry Status.retriableChdir
      fun _ => (dplChdir .success old r, ())
    have hstatus : dfsChdirTimeout env.conf.maxRetry (RenameReplies.granted.chdir old) old r =
        dplChdir .success old r := congrArg Prod.fst hi
    rw [hstatus, dplChdir, if_neg fun h => h.2 hdir]
  opened := by
    obtain ⟨i, hi⟩ := readTimeout_eq_attempt env.conf.maxRetry Status.retriable fun _ => (Status.success, ())
    exact congrArg Prod.fst hi
  read := rfl

/-- Granted calls move all that a directory holds. -/
theorem Forest.moves_granted (forest : Forest) (r : Remote) : forest.Moves env .granted r old new := by
  induction forest generalizing old new with
  | nil => trivial
  | file name rest ih => exact ⟨RenameReplies.granted_findsEntry env _, RenameReplies.granted_movesFile env _ _, ih ..⟩
  | dir name inner rest ihInner ih =>
    exact ⟨RenameReplies.granted_findsEntry env _, RenameReplies.granted_movesDir env _ _ r _, ihInner .., ih ..⟩

/-- A tree can be moved when every call is granted. -/
theorem RemoteTree.PlacedAt.canMove {tree : RemoteTree} {r : Remote} (h : tree.PlacedAt r old new) :
    tree.CanMove env .granted r old new :=
  ⟨h, RenameReplies.granted_movesDir env old new r _, tree.inside.moves_granted env old new r⟩

end Granted

/-- The objects of a forest, in the order of the listings. -/
def Forest.objects (top : CStr) : Forest → List (Σ _ : CStr, Obj)
  | .nil => []
  | .file name rest => ⟨slashed top name, ⟨.reg, [], none, none⟩⟩ :: rest.objects top
  | .dir name inner rest =>
    ⟨slashed top name, ⟨.dir, [], none, none⟩⟩ :: (inner.objects (slashed top name) ++ rest.objects top)

/-- A store with nothing but a tree. -/
def RemoteTree.store (tree : RemoteTree) (path : CStr) : Remote :=
  List.toAList (⟨path, ⟨.dir, [], none, none⟩⟩ :: tree.inside.objects path)

/-- A tree is placed in its store when what it holds lies there. -/
theorem RemoteTree.placedAt_store {tree : RemoteTree} {old new : CStr} (hroot : old ≠ "/".toList)
    (hapart : Apart '/' old new) (hshort : tree.inside.Short old) (hshort' : tree.inside.Short new)
    (hlisted : (tree.store old).children old = tree.inside.listing)
    (hlies : tree.inside.LiesAt (tree.store old) old) : tree.PlacedAt (tree.store old) old new where
  stands :=
    ⟨⟨⟨.dir, [], none, none⟩, (AList.lookup_to_alist _).trans (List.dlookup_cons_eq _ _ _), rfl⟩, hlisted, hlies⟩
  notRoot := hroot
  placed := ⟨tree.proper, hshort, hshort', hapart⟩

/-- A directory with a file, and with a directory of two files. -/
def sparse : RemoteTree :=
  ⟨.file "f".toList (.dir "d".toList (.file "g".toList (.file "h".toList .nil)) .nil), by decide +kernel⟩

/-- The files of the small tree are moved, and its directories removed. -/
theorem sparse_rightPaths :
    sparse.RightPaths (.start .empty (sparse.store "/o".toList)) "/o".toList "/n".toList
      (renameDirectory .plain .granted 2 ⟨.start .empty (sparse.store "/o".toList), .start⟩ (.caller "/o".toList)
        (.caller "/n".toList)) :=
  (renameDirectory_rightPaths_iff .plain .granted sparse _ .start _ _ 2
    ((RemoteTree.placedAt_store (by decide) (by decide) (by decide +kernel) (by decide +kernel) (by decide +kernel)
      (by decide +kernel)).canMove ..) (by decide) rfl rfl).mpr (by decide)

/-- A directory with a directory that holds nine files, an empty directory and another file. -/
def crowded : RemoteTree :=
  ⟨.dir "d".toList ("abcdefghi".toList.foldr (fun c rest => .file [c] rest)
    (.dir "j".toList .nil (.file "k".toList .nil))) .nil, by decide +kernel⟩

/-- The paths of the crowded directory are written over before it is removed. -/
theorem crowded_not_rightPaths :
    crowded.CanMove .plain .granted (crowded.store "/o".toList) "/o".toList "/n".toList ∧
      crowded.inside.depth < 3 ∧
      ¬ crowded.RightPaths (.start .empty (crowded.store "/o".toList)) "/o".toList "/n".toList
        (renameDirectory .plain .granted 3 ⟨.start .empty (crowded.store "/o".toList), .start⟩ (.caller "/o".toList)
          (.caller "/n".toList)) := by
  have hmove : crowded.CanMove .plain .granted (crowded.store "/o".toList) "/o".toList "/n".toList :=
    (RemoteTree.placedAt_store (by decide) (by decide) (by decide +kernel) (by decide +kernel) (by decide +kernel)
      (by decide +kernel)).canMove ..
  have hdepth : crowded.inside.depth < 3 := by decide
  have hcrowded : ¬ crowded.inside.Fits := by decide
  exact ⟨hmove, hdepth, RemoteTree.CanMove.not_rightPaths (w := .start .empty (crowded.store "/o".toList)) hmove hdepth
    rfl hcrowded⟩

end Dropletfs
