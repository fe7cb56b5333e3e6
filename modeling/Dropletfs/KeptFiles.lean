import Dropletfs.CompleteMoves
import Dropletfs.RetriedChanges

/-!
# Files in a rename that fails

A rename is a sequence of calls of which any can fail, be carried out without a reply, or
be left out because an earlier one failed. Whatever happens, each object below the old path
is still there, or is at its place below the new path, or was a directory. Nothing that has
no counterpart below the old path is written over.
-/

namespace Dropletfs

open Interleaving (entryPath)
open PathOrder

/-- Objects are on their way from below one path to below another, and no file of them is lost. -/
structure Remote.Carried (before r : Remote) (old new : CStr) : Prop where
  carried : ∀ way obj, Way '/' way → before.lookup (old ++ way) = some obj →
    r.lookup (old ++ way) = some obj ∨
      r.lookup (old ++ way) = none ∧ (obj.ftype = .dir ∨ r.lookup (new ++ way) = some obj)
  fresh : ∀ way, Way '/' way → before.lookup (old ++ way) = none → r.lookup (old ++ way) = none
  covered : ∀ way obj, Way '/' way → before.lookup (old ++ way) = none → before.lookup (new ++ way) = some obj →
    r.lookup (new ++ way) = some obj
  elsewhere : ∀ path, ¬ Below '/' old path → ¬ Below '/' new path → r.lookup path = before.lookup path

namespace Remote.Carried

variable {before r : Remote} {old new way : CStr} {obj : Obj}

/-- Nothing has moved yet. -/
theorem refl (r : Remote) (old new : CStr) : r.Carried r old new where
  carried _ _ _ hobj := .inl hobj
  fresh _ _ hnone := hnone
  covered _ _ _ _ hobj := hobj
  elsewhere _ _ _ := rfl

/-- What has moved is not written over by a copy of an object that has not, nor by what is stored where there was
nothing. -/
theorem keeps_moved {way' : CStr} {obj' : Obj} (hobj : r.lookup (old ++ way) = some obj ∨ r.lookup (new ++ way) = none)
    (hmoved : r.lookup (old ++ way') = none) (hthere : r.lookup (new ++ way') = some obj') :
    (r.insert (new ++ way) obj : Remote).lookup (new ++ way') = some obj' := by
  have hne : way' ≠ way := by
    rintro rfl
    rcases hobj with hobj | hfree
    · rw [hmoved] at hobj
      cases hobj
    · rw [hfree] at hthere
      cases hthere
  rw [AList.lookup_insert_ne fun heq => hne (List.append_cancel_left heq)]
  exact hthere

/-- An object has been stored at the end of a way below the new path: a copy of the one below the old path, or something
where there was nothing. -/
theorem stored (h : before.Carried r old new) (hapart : Apart '/' old new) (hway : Way '/' way)
    (hobj : r.lookup (old ++ way) = some obj ∨ r.lookup (new ++ way) = none) :
    before.Carried (r.insert (new ++ way) obj) old new where
  carried way' obj' hway' hbefore := by
    rw [AList.lookup_insert_ne (hapart.ways_ne hway' hway)]
    exact (h.carried way' obj' hway' hbefore).imp_right fun ⟨hnone, hover⟩ =>
      ⟨hnone, hover.imp_right fun hthere => keeps_moved hobj hnone hthere⟩
  fresh way' hway' hbefore := by
    rw [AList.lookup_insert_ne (hapart.ways_ne hway' hway)]
    exact h.fresh way' hway' hbefore
  covered way' obj' hway' hbefore hcovered :=
    keeps_moved hobj (h.fresh way' hway' hbefore) (h.covered way' obj' hway' hbefore hcovered)
  elsewhere path hold hnew := by
    have hne : path ≠ new ++ way := by
      rintro rfl
      exact hnew (hway.below new)
    rw [AList.lookup_insert_ne hne]
    exact h.elsewhere path hold hnew

/-- An object below the old path has been removed: a directory, or one that is below the new path by now. -/
theorem removed (h : before.Carried r old new) (hapart : Apart '/' old new) (hway : Way '/' way)
    (hgone : ∀ obj, r.lookup (old ++ way) = some obj → obj.ftype = .dir ∨ r.lookup (new ++ way) = some obj) :
    before.Carried (r.erase (old ++ way)) old new where
  carried way' obj' hway' hbefore := by
    rw [AList.lookup_erase_ne (hapart.symm.ways_ne hway' hway)]
    by_cases heq : way' = way
    · subst heq
      rw [AList.lookup_erase]
      refine .inr ⟨rfl, ?_⟩
      rcases h.carried way' obj' hway' hbefore with hthere | ⟨-, hover⟩
      · exact hgone obj' hthere
      · exact hover
    · rw [AList.lookup_erase_ne fun hpath => heq (List.append_cancel_left hpath)]
      exact h.carried way' obj' hway' hbefore
  fresh way' hway' hbefore := by
    by_cases heq : way' = way
    · rw [heq, AList.lookup_erase]
    · rw [AList.lookup_erase_ne fun hpath => heq (List.append_cancel_left hpath)]
      exact h.fresh way' hway' hbefore
  covered way' obj' hway' hbefore hcovered := by
    rw [AList.lookup_erase_ne (hapart.symm.ways_ne hway' hway)]
    exact h.covered way' obj' hway' hbefore hcovered
  elsewhere path hold hnew := by
    have hne : path ≠ old ++ way := by
      rintro rfl
      exact hold (hway.below old)
    rw [AList.lookup_erase_ne hne]
    exact h.elsewhere path hold hnew

/-- The copy of an object to its place below the new path, however often it is tried. -/
theorem fcopy (h : before.Carried r old new) (hapart : Apart '/' old new) (hway : Way '/' way) (maxRetry : ℤ)
    (replies : ℕ → Reply) :
    before.Carried (dfsFcopyTimeout maxRetry replies (old ++ way) (new ++ way) r).2 old new := by
  rcases ((StoreChange.fcopy (old ++ way) (new ++ way)).stored_once maxRetry replies r).1 with hkept | hmade
  · exact hkept.symm ▸ h
  · have hstore : (dfsFcopyTimeout maxRetry replies (old ++ way) (new ++ way) r).2 =
        (dplFcopy .granted (old ++ way) (new ++ way) r).2 := hmade
    rw [hstore, dplFcopy]
    cases hobj : r.lookup (old ++ way) with
    | none => exact h
    | some obj => exact h.stored hapart hway (.inl hobj)

/-- The creation of a directory below the new path. -/
theorem mkdir (h : before.Carried r old new) (hapart : Apart '/' old new) (hway : Way '/' way) (maxRetry : ℤ)
    (replies : ℕ → Reply) : before.Carried (dfsMkdirTimeout maxRetry replies (new ++ way) r).2 old new := by
  rcases ((StoreChange.mkdir (new ++ way)).stored_once maxRetry replies r).1 with hkept | hmade
  · exact hkept.symm ▸ h
  · have hstore : (dfsMkdirTimeout maxRetry replies (new ++ way) r).2 = (dplMkdir .granted (new ++ way) r).2 := hmade
    rw [hstore, dplMkdir]
    simp only
    split
    · rename_i hfree
      exact h.stored hapart hway (.inr (Option.isNone_iff_eq_none.mp hfree.2))
    · exact h

/-- The removal of an object below the old path that is below the new one by now. -/
theorem unlink (h : before.Carried r old new) (hapart : Apart '/' old new) (hway : Way '/' way) (maxRetry : ℤ)
    (replies : ℕ → Reply)
    (hover : ∀ obj, r.lookup (old ++ way) = some obj → r.lookup (new ++ way) = some obj) :
    before.Carried (dfsUnlinkTimeout maxRetry replies (old ++ way) r).2 old new := by
  rcases ((StoreChange.unlink (old ++ way)).stored_once maxRetry replies r).1 with hkept | hmade
  · exact hkept.symm ▸ h
  · have hstore : (dfsUnlinkTimeout maxRetry replies (old ++ way) r).2 = r.erase (old ++ way) := hmade
    rw [hstore]
    exact h.removed hapart hway fun obj hobj => .inr (hover obj hobj)

/-- The removal of a directory below the old path. -/
theorem rmdir (h : before.Carried r old new) (hapart : Apart '/' old new) (hway : Way '/' way) (maxRetry : ℤ)
    (replies : ℕ → Reply) : before.Carried (dfsRmdirTimeout maxRetry replies (old ++ way) r).2 old new := by
  rcases ((StoreChange.rmdir (old ++ way)).stored_once maxRetry replies r).1 with hkept | hmade
  · exact hkept.symm ▸ h
  · have hstore : (dfsRmdirTimeout maxRetry replies (old ++ way) r).2 = (dplRmdir .granted (old ++ way) r).2 := hmade
    rw [hstore, dplRmdir]
    split
    · rename_i hdir
      refine h.removed hapart hway fun obj hobj => .inl ?_
      rw [hobj] at hdir
      exact Option.some.inj hdir
    · exact h

end Remote.Carried

/-- A name in the listing of a directory: an object below it has that name, up to a slash. -/
def Remote.Lists (r : Remote) (top name : CStr) : Prop :=
  ∃ child, child ≠ [] ∧ '/' ∉ child ∧ (name = child ∨ name = child ++ "/".toList) ∧
    (r.lookup (slashed top child)).isSome = true

/-- The names of a listing. -/
theorem Remote.lists_of_mem_children {r : Remote} {top name : CStr} (hroot : top ≠ "/".toList)
    (h : name ∈ r.children top) : r.Lists top name := by
  obtain ⟨entry, hmem, hname⟩ := List.mem_filterMap.mp h
  obtain ⟨child, hchild, hslash⟩ := Option.map_eq_some_iff.mp hname
  unfold childName at hchild
  rw [if_neg hroot] at hchild
  split at hchild
  · rename_i rest hahead
    split at hchild
    · cases hchild
    · rename_i hproper
      obtain rfl := Option.some.inj hchild
      obtain ⟨hne, hnoSlash⟩ := not_or.mp hproper
      refine ⟨rest, hne, hnoSlash, ?_, ?_⟩
      · split at hslash
        · exact .inr hslash.symm
        · exact .inl hslash.symm
      · have hpath : entry.1 = slashed top rest := by
          rw [← List.isPrefixOf?_eq_some_iff_append_eq.mp hahead, slashed, List.append_assoc]
          rfl
        rw [← hpath]
        exact AList.lookup_isSome.mpr (List.mem_keys_of_mem hmem)
  · cases hchild

/-- The paths composed from what is below the old path fit into a string of the ring. -/
def Remote.Composes (r : Remote) (old new : CStr) : Prop :=
  ∀ path ∈ r.keys, Below '/' old path → path.length < tmpstrMax ∧ new.length + (path.length - old.length) < tmpstrMax

instance (r : Remote) (old new : CStr) : Decidable (r.Composes old new) :=
  inferInstanceAs (Decidable (∀ path ∈ r.keys, Below '/' old path →
    path.length < tmpstrMax ∧ new.length + (path.length - old.length) < tmpstrMax))

section Pieces

variable {env : Env} {replies : RenameReplies} {before : Remote} {old new way name : CStr}

/-- What is listed below the old path was there before the rename. -/
theorem Remote.Carried.lists {r : Remote} (h : before.Carried r old new) (hway : Way '/' way)
    (hlists : r.Lists (old ++ way) name) : before.Lists (old ++ way) name := by
  obtain ⟨child, hne, hnoSlash, hname, hthere⟩ := hlists
  refine ⟨child, hne, hnoSlash, hname, ?_⟩
  by_contra hnone
  have hpath : slashed (old ++ way) child = old ++ (way ++ '/' :: child) := List.append_assoc ..
  have hgone := h.fresh _ (hway.entry child) (Option.not_isSome_iff_eq_none.mp (hpath ▸ hnone))
  rw [hpath, hgone] at hthere
  cases hthere

/-- The two paths of an entry are the ends of one way. -/
theorem Remote.Composes.entryPaths (h : before.Composes old new) (hway : Way '/' way)
    (hlists : before.Lists (old ++ way) name) :
    ∃ way', Way '/' way' ∧ entryPath (old ++ way) name = old ++ way' ∧ entryPath (new ++ way) name = new ++ way' := by
  obtain ⟨child, hne, hnoSlash, hname, hthere⟩ := hlists
  have hpath : slashed (old ++ way) child = old ++ (way ++ '/' :: child) := List.append_assoc ..
  have hpath' : slashed (new ++ way) child = new ++ (way ++ '/' :: child) := List.append_assoc ..
  have hway' := hway.entry child
  rw [hpath] at hthere
  obtain ⟨hshort, hshort'⟩ := h _ (AList.lookup_isSome.mp hthere) (hway'.below old)
  have hlength : (old ++ (way ++ '/' :: child)).length - old.length = (way ++ '/' :: child).length := by
    rw [List.length_append, Nat.add_sub_cancel_left]
  rw [hlength, ← List.length_append, ← hpath'] at hshort'
  rw [← hpath] at hshort
  refine ⟨way ++ '/' :: child, hway', ?_, ?_⟩
  · rcases hname with rfl | rfl
    · rw [entryPath_name hne hnoSlash hshort, hpath]
    · rw [entryPath_slash hne hnoSlash hshort, hpath]
  · rcases hname with rfl | rfl
    · rw [entryPath_name hne hnoSlash hshort', hpath']
    · rw [entryPath_slash hne hnoSlash hshort', hpath']

/-- The rename of a file carries it over, or leaves it. -/
theorem renameFile_carried (env : Env) (replies : RenameReplies) {w : World}
    (h : before.Carried w.remote old new) (hapart : Apart '/' old new) (hway : Way '/' way) :
    before.Carried (renameFile env w (old ++ way) (new ++ way) replies).2.remote old new := by
  have hne : old ++ way ≠ new ++ way := hapart.ways_ne hway hway
  have hcopied := h.fcopy hapart hway env.conf.maxRetry (replies.fcopy (old ++ way) (new ++ way))
  unfold renameFile
  simp only
  split
  · exact hcopied
  · rename_i hstatus
    rw [dfsUnlink_remote, World.removeDirentOf_remote]
    refine hcopied.unlink hapart hway _ _ fun obj hobj => ?_
    -- the object is removed only after its copy has been reported
    rw [dfsFcopyTimeout_lookup_ne _ _ _ _ _ _ hne] at hobj
    exact dfsFcopyTimeout_copied hne.symm hobj (not_not.mp hstatus)

/-- The first half of the rename of a directory makes a directory, if anything. -/
theorem enterDirectory_carried (env : Env) (replies : RenameReplies) {w : World}
    (h : before.Carried w.remote old new) (hapart : Apart '/' old new) (hway : Way '/' way) :
    before.Carried (enterDirectory env w (old ++ way) (new ++ way) replies).2.remote old new := by
  have hmade : ∀ w₁, w₁ = w ∨ w₁ = (dfsMkdir env w (new ++ way) (replies.mkdir (new ++ way))).2 →
      before.Carried w₁.remote old new := by
    rintro w₁ (rfl | rfl)
    · exact h
    · exact h.mkdir hapart hway env.conf.maxRetry _
  have houtcome := enterDirectory_outcome env w (old ++ way) (new ++ way) replies
  generalize enterDirectory env w (old ++ way) (new ++ way) replies = entered at houtcome ⊢
  cases houtcome with
  | refused hw₁ => exact hmade _ hw₁
  | notEntered hw₁ => exact hmade _ hw₁
  | notListed hw₁ =>
    have hcarried := hmade _ hw₁
    exact hcarried
  | listed hw₁ =>
    have hcarried := hmade _ hw₁
    exact hcarried

/-- The names it reads are those of objects. -/
theorem enterDirectory_lists {w w' : World} {type : Ftype} {names : List CStr} (hroot : old ≠ "/".toList)
    (h : enterDirectory env w old new replies = (.ok (type, names), w')) :
    ∀ name ∈ names, w'.remote.Lists old name := by
  unfold enterDirectory at h
  simp only at h
  split at h
  · cases h
  · generalize (if (dfsNameiTimeout env.conf.maxRetry (replies.nameiTarget new) new w.remote).1 = .enoent then
      dfsMkdir env w new (replies.mkdir new) else (0, w)) = made at h
    obtain ⟨ret, w₁⟩ := made
    simp only at h
    split at h
    · cases h
    · split at h
      · cases h
      · split at h
        · cases h
        · obtain ⟨hnames, rfl⟩ := Prod.mk.inj h
          obtain ⟨-, rfl⟩ := Prod.mk.inj (Except.ok.inj hnames)
          intro name hmem
          refine Remote.lists_of_mem_children hroot ?_
          split at hmem
          · exact hmem
          · exact List.mem_of_mem_take hmem

/-- The end of the rename of a directory. -/
theorem dfsRmdir_carried {w : World} (h : before.Carried w.remote old new) (hapart : Apart '/' old new)
    (hway : Way '/' way) (rmdir : RmdirReplies) :
    before.Carried (dfsRmdir env (w.log (.dfsRmdir (old ++ way))) (old ++ way) rmdir).2.remote old new := by
  rw [(dfsRmdir_moves env w (old ++ way) rmdir).2]
  exact h.rmdir hapart hway _ _

/-- A rename by path keeps on carrying the objects over, wherever below the old path it is called. -/
def Carries (before : Remote) (old new : CStr)
    (rename : PathRenaming → CStr → CStr → Exec (ℤ × PathRenaming)) : Prop :=
  ∀ way s ret s', Way '/' way → before.Carried s.world.remote old new →
    rename s (old ++ way) (new ++ way) = .done (ret, s') → before.Carried s'.world.remote old new

/-- The rename of a file does. -/
theorem moveFile_carries (env : Env) (replies : RenameReplies) (hapart : Apart '/' old new) :
    Carries before old new fun s src dst => moveFile env s src dst replies := by
  intro way s ret s' hway h hrun
  have hfile := renameFile_carried env replies h hapart hway
  unfold moveFile at hrun
  simp only at hrun
  split at hrun
  · obtain ⟨age, -, hdone⟩ := Exec.bind_eq_done.mp hrun
    obtain ⟨-, rfl⟩ := Prod.mk.inj (Exec.done.inj hdone)
    exact hfile
  · obtain ⟨-, rfl⟩ := Prod.mk.inj (Exec.done.inj hrun)
    exact hfile

/-- What is done with an entry does, if nested calls do. -/
theorem moveEntry_carries (env : Env) (replies : RenameReplies)
    {recurse : PathRenaming → CStr → CStr → Exec (ℤ × PathRenaming)} (hapart : Apart '/' old new)
    (hrecurse : Carries before old new recurse) (type : Ftype) :
    Carries before old new fun s src dst => moveEntry env replies recurse s type src dst := by
  intro way s ret s' hway h hrun
  unfold moveEntry at hrun
  simp only at hrun
  split at hrun
  · obtain ⟨⟨ret₁, inner⟩, hcall, hdone⟩ := Exec.bind_eq_done.mp hrun
    obtain ⟨-, rfl⟩ := Prod.mk.inj (Exec.done.inj hdone)
    exact hrecurse way ⟨s.world, some (s.age.getD 1)⟩ ret₁ inner hway h hcall
  · exact moveFile_carries env replies hapart way s ret s' hway h hrun

/-- The loop over a listing does. -/
theorem moveEntries_carried {recurse : PathRenaming → CStr → CStr → Exec (ℤ × PathRenaming)}
    (hapart : Apart '/' old new) (hshort : before.Composes old new) (hrecurse : Carries before old new recurse)
    (hway : Way '/' way) {names : List CStr} (hnames : ∀ name ∈ names, before.Lists (old ++ way) name) {type : Ftype}
    {ret ret' : ℤ} {s s' : PathRenaming} (h : before.Carried s.world.remote old new)
    (hrun : moveEntries env replies recurse (old ++ way) (new ++ way) names type ret s = .done (ret', s')) :
    before.Carried s'.world.remote old new := by
  induction names generalizing type ret s with
  | nil =>
    obtain ⟨-, rfl⟩ := Prod.mk.inj (Exec.done.inj hrun)
    exact h
  | cons name names ih =>
    have hrest : ∀ other ∈ names, before.Lists (old ++ way) other :=
      fun other hmem => hnames other (List.mem_cons_of_mem _ hmem)
    rw [moveEntries] at hrun
    split at hrun
    · exact ih hrest h hrun
    · obtain ⟨age, -, hrun⟩ := Exec.bind_eq_done.mp hrun
      simp only at hrun
      split at hrun
      · obtain ⟨-, rfl⟩ := Prod.mk.inj (Exec.done.inj hrun)
        exact h
      · obtain ⟨⟨ret₁, s₁⟩, hentry, hrun⟩ := Exec.bind_eq_done.mp hrun
        obtain ⟨way', hway', hsrc, hdst⟩ := hshort.entryPaths hway (hnames name List.mem_cons_self)
        rw [hsrc, hdst] at hentry
        have hcarried := moveEntry_carries env replies hapart hrecurse _ way' ⟨s.world, age⟩ ret₁ s₁ hway' h hentry
        exact ih hrest hcarried hrun

/-- Nothing below a path is the root. -/
theorem way_ne_root (hold : old ≠ []) (hroot : old ≠ "/".toList) : old ++ way ≠ "/".toList := by
  obtain ⟨first, rest, rfl⟩ := List.exists_cons_of_ne_nil hold
  intro heq
  obtain ⟨rfl, hrest⟩ := List.cons.inj heq
  rw [(List.append_eq_nil_iff.mp hrest).1] at hroot
  exact hroot rfl

/-- The rename of a directory does, however deep. -/
theorem moveDirectory_carries (env : Env) (replies : RenameReplies) (hold : old ≠ []) (hroot : old ≠ "/".toList)
    (hapart : Apart '/' old new) (hshort : before.Composes old new) (depth : ℕ) :
    Carries before old new (moveDirectory env replies depth) := by
  induction depth with
  | zero => exact fun _ _ _ _ _ _ hrun => by cases hrun
  | succ depth ih =>
    intro way s ret s' hway h hrun
    have henter := enterDirectory_carried env replies h hapart hway
    rw [moveDirectory] at hrun
    split at hrun
    · rename_i heq
      obtain ⟨-, rfl⟩ := Prod.mk.inj (Exec.done.inj hrun)
      rw [heq] at henter
      exact henter
    · rename_i type names w₁ heq
      rw [heq] at henter
      obtain ⟨⟨ret₁, s₁⟩, hloop, hrun⟩ := Exec.bind_eq_done.mp hrun
      have hnames : ∀ name ∈ names, before.Lists (old ++ way) name :=
        fun name hmem => henter.lists hway (enterDirectory_lists (way_ne_root hold hroot) heq name hmem)
      have hlooped := moveEntries_carried hapart hshort ih hway hnames (s := ⟨w₁, s.age⟩) henter hloop
      simp only at hrun
      split at hrun
      · obtain ⟨-, rfl⟩ := Prod.mk.inj (Exec.done.inj hrun)
        exact hlooped
      · obtain ⟨-, rfl⟩ := Prod.mk.inj (Exec.done.inj hrun)
        exact dfsRmdir_carried hlooped hapart hway _

end Pieces

/-- Whatever calls fail and whichever replies are lost, a rename that has not written over a path in use loses no file
and writes over none but those it replaces. The kernel has seen to it that neither path is below the other. -/
theorem dfsRename_loses_nothing (env : Env) (replies : RenameReplies) (w : World) (ring : Ring) (old new : CStr)
    (depth : ℕ) (ret : ℤ) (s' : Renaming) (hold : old ≠ []) (hroot : old ≠ "/".toList)
    (hapart : Apart '/' old (renameTarget old new)) (hshort : w.remote.Composes old (renameTarget old new))
    (hidle : ring.live = []) (hrun : dfsRename env depth ⟨w, ring⟩ old new replies = .done (ret, s'))
    (hright : s'.ring.reused = false) : w.remote.Carried s'.world.remote old (renameTarget old new) := by
  have hstart := Remote.Carried.refl w.remote old (renameTarget old new)
  have hempty : Way '/' [] := nofun
  obtain ⟨⟨ret₁, s₁⟩, hcall, hdone⟩ := Exec.bind_eq_done.mp hrun
  obtain ⟨-, rfl⟩ := Prod.mk.inj (Exec.done.inj hdone)
  unfold renameByType at hcall
  split at hcall
  · have hfile := renameFile_carried env replies hstart hapart hempty
    simp only [List.append_nil] at hfile
    have heq := Exec.done.inj hcall
    unfold renameFileAt at heq
    simp only at heq
    split at heq
    · obtain ⟨-, rfl⟩ := Prod.mk.inj heq
      exact hfile
    · obtain ⟨-, rfl⟩ := Prod.mk.inj heq
      exact hfile
  · have hfollows := renameDirectory_follows_caller env replies hidle depth w old (renameTarget old new)
    cases hmove : moveDirectory env replies depth ⟨w, none⟩ old (renameTarget old new) with
    | done result =>
      obtain ⟨ret₂, moved⟩ := result
      rw [hmove] at hfollows
      obtain ⟨ring', hran, -⟩ := hfollows
      rw [hran] at hcall
      obtain ⟨-, rfl⟩ := Prod.mk.inj (Exec.done.inj hcall)
      refine moveDirectory_carries env replies hold hroot hapart hshort depth [] ⟨w, none⟩ ret₂ moved hempty hstart ?_
      rw [List.append_nil, List.append_nil, hmove]
    | blocked =>
      rw [hmove] at hfollows
      have hblocked : renameDirectory env replies depth ⟨w, ring⟩ (.caller old) (.caller (renameTarget old new)) =
        .blocked := hfollows
      rw [hblocked] at hcall
      cases hcall
    | undefined =>
      rw [hmove] at hfollows
      have hreused := hfollows ret₁ s₁ hcall
      rw [hright] at hreused
      cases hreused
  · obtain ⟨-, rfl⟩ := Prod.mk.inj (Exec.done.inj hcall)
    exact hstart

/-- The file that is not copied, although the rename returns zero, is still under its old path. -/
theorem dfsRename_loses_nothing_pair :
    ∃ s', dfsRename .plain 1 ⟨.start .empty (pair.store "/o".toList), .start⟩ "/o".toList "/n".toList halfRefused =
        .done (0, s') ∧
      (pair.store "/o".toList).Carried s'.world.remote "/o".toList "/n".toList :=
  ⟨_, rfl, dfsRename_loses_nothing .plain halfRefused (.start .empty (pair.store "/o".toList)) .start "/o".toList
    "/n".toList 1 0 _ (by decide) (by decide) (by decide) (by decide +kernel) rfl rfl rfl⟩

end Dropletfs
