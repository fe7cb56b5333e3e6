import Dropletfs.TreeRename
import Mathlib.Algebra.Order.BigOperators.Group.List
import Mathlib.Algebra.Order.Group.Nat

/-!
# The paths that a recursive rename gives

The rename of a directory gives each entry a path below the new one, as long as it writes over no
string in use. How many strings it formats for a directory can be counted on the store before,
since what it lists of the old directory was there before: it only removes from it.
-/

namespace Dropletfs

open Interleaving (entryPath)
open PathOrder

/-- The old directory with the new one, and each entry below at any depth with the path that a rename gives it. -/
inductive Remote.Gives (r : Remote) (old new : CStr) : CStr → CStr → Prop
  | top : r.Gives old new old new
  | entry {src dst name : CStr} : r.Gives old new src dst → name ∈ r.children src → skipped name = false →
      r.Gives old new (entryPath src name) (entryPath dst name)

/-- How many strings a rename formats at most for what a directory holds, to a depth: two for each entry, and one
more when a file is unlinked. -/
def Remote.strings (r : Remote) : ℕ → CStr → ℕ
  | 0, _ => 0
  | depth + 1, dir => ((r.children dir).map fun name => 2 + max 1 (r.strings depth (entryPath dir name))).sum

/-- A directory can be renamed without writing over a string in use: no directory below it needs more strings than the
ring has left beside its two paths. Neither path is below the other, and they fit into the strings. -/
structure Remote.Roomy (r : Remote) (depth : ℕ) (ring : Ring) (old new : CStr) : Prop where
  idle : ring.live = []
  apart : Apart '/' old new
  notRoot : old ≠ [] ∧ old ≠ "/".toList
  short : old.length + 1 < tmpstrMax
  short' : new.length + 1 < tmpstrMax
  few : ∀ src dst name, r.Gives old new src dst → name ∈ r.children src → skipped name = false →
    1 + r.strings depth (entryPath src name) < tmpstrNb

section Paths

variable {top dir old new src dst : CStr} {r : Remote}

/-- A slash at the end is not what a path is below another one for. -/
theorem below_dropTrailingSlash {text : CStr} (h : top ++ ['/'] <+: text) : Below '/' top (dropTrailingSlash text) := by
  obtain ⟨rest, rfl⟩ := h
  unfold dropTrailingSlash
  split
  · cases rest using List.reverseRecOn with
    | nil => exact .inl (by simp)
    | append_singleton rest last =>
      refine .inr ⟨rest, ?_⟩
      rw [← List.append_assoc, List.dropLast_concat]
  · exact .inr ⟨rest, rfl⟩

/-- The path formed for an entry is below the directory, and below what the directory is below. -/
theorem below_entryPath (hshort : top.length + 1 < tmpstrMax) (h : Below '/' top dir) (name : CStr) :
    Below '/' top (entryPath dir name) := by
  have hlong : top ++ ['/'] <+: slashed dir name := by
    rcases h with rfl | h
    · exact ⟨name, by simp [slashed]⟩
    · exact h.trans (List.prefix_append dir ('/' :: name))
  refine below_dropTrailingSlash (List.prefix_take_iff.mpr ⟨hlong, ?_⟩)
  rw [List.length_append, List.length_singleton]
  omega

/-- The old paths are below the old directory, and the new ones below the new one. -/
theorem Remote.Gives.below_both (h : r.Gives old new src dst) (hshort : old.length + 1 < tmpstrMax)
    (hshort' : new.length + 1 < tmpstrMax) : Below '/' old src ∧ Below '/' new dst := by
  induction h with
  | top => exact ⟨.refl .., .refl ..⟩
  | entry _ _ _ ih => exact ⟨below_entryPath hshort ih.1 _, below_entryPath hshort' ih.2 _⟩

/-- To a greater depth more strings are formatted. -/
theorem Remote.strings_le_succ (r : Remote) (depth : ℕ) (dir : CStr) :
    r.strings depth dir ≤ r.strings (depth + 1) dir := by
  induction depth generalizing dir with
  | zero => exact Nat.zero_le _
  | succ depth ih =>
    refine List.sum_le_sum fun name _ => ?_
    exact Nat.add_le_add_left (max_le_max (Nat.le_refl 1) (ih (entryPath dir name))) 2

/-- To a greater depth more strings are formatted. -/
theorem Remote.strings_mono (r : Remote) {depth depth' : ℕ} (h : depth ≤ depth') (dir : CStr) :
    r.strings depth dir ≤ r.strings depth' dir :=
  monotone_nat_of_le_succ (f := fun depth => r.strings depth dir) (fun depth => r.strings_le_succ depth dir) h

end Paths

/-- What is listed of the old directory, at any depth, was there before. -/
def Remote.ListedBefore (before r : Remote) (old : CStr) : Prop :=
  ∀ dir, Below '/' old dir → (r.children dir).Sublist (before.children dir)

namespace Remote.ListedBefore

variable {before r r' : Remote} {old path : CStr}

/-- Removing an object leaves what was listed, or less. -/
theorem erase (h : before.ListedBefore r old) (path : CStr) : before.ListedBefore (r.erase path) old :=
  fun dir hdir => ((List.kerase_sublist path r.entries).filterMap _).trans (h dir hdir)

/-- A change elsewhere leaves what was listed. -/
theorem elsewhere (h : before.ListedBefore r old) (hchanged : r.ChangedIn (· = path) r')
    (hroot : old ≠ [] ∧ old ≠ "/".toList) (hpath : ¬ Below '/' old path) : before.ListedBefore r' old := by
  intro dir hdir
  have hnotRoot : dir ≠ "/".toList := by
    rintro rfl
    rcases hdir with hsame | hprefix
    · exact hroot.2 hsame.symm
    · have hlength := hprefix.length_le
      simp only [List.length_append, List.length_singleton] at hlength
      exact hroot.1 (List.eq_nil_of_length_eq_zero (by have : "/".toList.length = 1 := rfl; omega))
  rw [hchanged.children dir fun other hother => ?_]
  · exact h dir hdir
  · subst hother
    exact childName_eq_none hnotRoot fun hbelow => hpath (hdir.trans hbelow)

/-- The attempts to unlink a path. -/
theorem unlink (h : before.ListedBefore r old) (maxRetry : ℤ) (replies : ℕ → Reply) (path : CStr) :
    before.ListedBefore (dfsUnlinkTimeout maxRetry replies path r).2 old := by
  refine writeTimeout_preserves maxRetry Status.retriable _ (before.ListedBefore · old) (fun i r hr => ?_) r h
  unfold dplUnlink
  simp only
  split
  · exact hr.erase path
  · exact hr

/-- The attempts to remove a directory. -/
theorem rmdir (h : before.ListedBefore r old) (maxRetry : ℤ) (replies : ℕ → Reply) (path : CStr) :
    before.ListedBefore (dfsRmdirTimeout maxRetry replies path r).2 old := by
  refine writeTimeout_preserves maxRetry Status.retriable _ (before.ListedBefore · old) (fun i r hr => ?_) r h
  unfold dplRmdir
  simp only
  split
  · simp only
    split
    · exact hr.erase path
    · exact hr
  · exact hr

end Remote.ListedBefore

/-- A property of the state that is kept by all that the rename of a directory does with the paths it should. -/
structure Remote.KeptBy (before : Remote) (env : Env) (replies : RenameReplies) (old new : CStr) (P : World → Prop) :
    Prop where
  cwd : ∀ w : World, ∀ dir, P w → P { w with cwd := dir }
  mkdir : ∀ w src dst, before.Gives old new src dst → P w → P (dfsMkdir env w dst (replies.mkdir dst)).2
  rmdir : ∀ w src dst, before.Gives old new src dst → P w →
    P (dfsRmdir env (w.log (.dfsRmdir src)) src (replies.rmdir src)).2
  file : ∀ w src dst name, before.Gives old new src dst → name ∈ before.children src → skipped name = false → P w →
    P (renameFile env w (entryPath src name) (entryPath dst name) replies).2

/-- The strings can be formatted. -/
def Room (age : Option ℕ) (need : ℕ) : Prop := ∀ a ∈ age, a + need < tmpstrNb

/-- The oldest string in use has become older by so many strings at most. -/
def Aged (age : Option ℕ) (need : ℕ) (age' : Option ℕ) : Prop := ∀ b ∈ age', ∃ a ∈ age, b ≤ a + need

/-- A piece of a rename by path writes over no string in use, formats so many at most, and keeps the property. -/
def Spared (P : World → Prop) (age : Option ℕ) (need : ℕ) : Exec (ℤ × PathRenaming) → Prop
  | .done (_, moved) => P moved.world ∧ Aged age need moved.age
  | .blocked => True
  | .undefined => False

section Ages

variable {P : World → Prop} {age age₁ age₂ : Option ℕ} {need need₁ need₂ : ℕ}

/-- Fewer strings can be formatted, too. -/
theorem Room.mono (h : Room age need) (hle : need₁ ≤ need) : Room age need₁ := fun a ha => by
  have := h a ha
  omega

/-- After some of the strings the others can be formatted. -/
theorem Room.after (h : Room age (need₁ + need₂)) (haged : Aged age need₁ age₁) : Room age₁ need₂ := by
  intro b hb
  obtain ⟨a, ha, hle⟩ := haged b hb
  have := h a ha
  omega

/-- Nothing was formatted. -/
theorem Aged.refl (age : Option ℕ) (need : ℕ) : Aged age need age := fun b hb => ⟨b, hb, by omega⟩

/-- Strings formatted one after another. -/
theorem Aged.trans (h₁ : Aged age need₁ age₁) (h₂ : Aged age₁ need₂ age₂) : Aged age (need₁ + need₂) age₂ := by
  intro c hc
  obtain ⟨b, hb, hle₂⟩ := h₂ c hc
  obtain ⟨a, ha, hle₁⟩ := h₁ b hb
  exact ⟨a, ha, by omega⟩

/-- More may have been formatted. -/
theorem Aged.mono (h : Aged age need₁ age₁) (hle : need₁ ≤ need) : Aged age need age₁ := by
  intro b hb
  obtain ⟨a, ha, hle₁⟩ := h b hb
  exact ⟨a, ha, by omega⟩

/-- Strings that there is room for are formatted. -/
theorem formatStrings_aged (h : Room age need) :
    ∃ age', formatStrings need age = .done age' ∧ Aged age need age' := by
  refine ⟨age.map (· + need), if_pos h, fun b hb => ?_⟩
  obtain ⟨a, ha, rfl⟩ := Option.mem_map.mp hb
  exact ⟨a, ha, Nat.le_refl _⟩

/-- A piece that starts after others. -/
theorem Spared.after {run : Exec (ℤ × PathRenaming)} (haged : Aged age need₁ age₁) (h : Spared P age₁ need₂ run)
    (hle : need₁ + need₂ ≤ need) : Spared P age need run := by
  cases run with
  | done result => exact ⟨h.1, (haged.trans h.2).mono hle⟩
  | blocked => trivial
  | undefined => exact h.elim

/-- What follows a piece that keeps the property. -/
theorem Spared.bind {run : Exec (ℤ × PathRenaming)} {next : ℤ × PathRenaming → Exec (ℤ × PathRenaming)}
    (h : Spared P age need₁ run)
    (hnext : ∀ ret moved, P moved.world → Aged age need₁ moved.age → Spared P age need (next (ret, moved))) :
    Spared P age need (run >>= next) := by
  cases run with
  | done result => exact hnext result.1 result.2 h.1 h.2
  | blocked => trivial
  | undefined => exact h.elim

end Ages

section Moves

variable {env : Env} {replies : RenameReplies} {before : Remote} {old new src dst : CStr} {P : World → Prop} {depth : ℕ}

/-- The strings formatted for an entry at most. -/
def Remote.entryStrings (r : Remote) (depth : ℕ) (dir name : CStr) : ℕ :=
  2 + max 1 (r.strings depth (entryPath dir name))

/-- The rename of a file keeps what its calls keep, and formats a string. -/
theorem moveFile_spared {w : World} {age : Option ℕ} {old new : CStr} (hP : P (renameFile env w old new replies).2)
    (hroom : Room age 1) : Spared P age 1 (moveFile env ⟨w, age⟩ old new replies) := by
  unfold moveFile
  generalize renameFile env w old new replies = result at hP ⊢
  obtain ⟨ret, w'⟩ := result
  simp only
  split
  · obtain ⟨age', hformat, haged⟩ := formatStrings_aged hroom
    rw [hformat]
    exact ⟨hP, haged⟩
  · exact ⟨hP, Aged.refl age _⟩

/-- What is done with an entry. -/
theorem moveEntry_spared {recurse : PathRenaming → CStr → CStr → Exec (ℤ × PathRenaming)} {w : World}
    {age : Option ℕ} {need : ℕ} {src dst : CStr} {type : Ftype} (hpos : 1 ≤ need)
    (hrecurse : ∀ a, a + need < tmpstrNb → Spared P (some a) need (recurse ⟨w, some a⟩ src dst))
    (hfile : P (renameFile env w src dst replies).2) (hroom : Room age need) (hnested : 1 + need < tmpstrNb) :
    Spared P age need (moveEntry env replies recurse ⟨w, age⟩ type src dst) := by
  unfold moveEntry
  split
  · have hage : age.getD 1 + need < tmpstrNb := by
      cases age with
      | none => exact hnested
      | some a => exact hroom a rfl
    have hcall := hrecurse _ hage
    simp only
    generalize recurse ⟨w, some (age.getD 1)⟩ src dst = run at hcall ⊢
    cases run with
    | done result =>
      refine ⟨hcall.1, fun b hb => ?_⟩
      cases age with
      | none => cases hb
      | some a => exact hcall.2 b hb
    | blocked => trivial
    | undefined => exact hcall.elim
  · exact (moveFile_spared hfile (hroom.mono hpos)).after (.refl age 0) (by omega)

/-- The loop over a directory, given the nested calls. -/
theorem moveEntries_spared {recurse : PathRenaming → CStr → CStr → Exec (ℤ × PathRenaming)}
    (hrecurse : ∀ w name a, name ∈ before.children src → skipped name = false → P w →
      a + before.strings depth (entryPath src name) < tmpstrNb →
      Spared P (some a) (before.strings depth (entryPath src name))
        (recurse ⟨w, some a⟩ (entryPath src name) (entryPath dst name)))
    (hfile : ∀ w name, name ∈ before.children src → skipped name = false → P w →
      P (renameFile env w (entryPath src name) (entryPath dst name) replies).2)
    (hfew : ∀ name ∈ before.children src, skipped name = false →
      1 + before.strings depth (entryPath src name) < tmpstrNb)
    {names : List CStr} (hnames : ∀ name ∈ names, name ∈ before.children src) (type : Ftype) (ret : ℤ) {w : World}
    {age : Option ℕ} (hP : P w) (hroom : Room age (names.map (before.entryStrings depth src)).sum) :
    Spared P age (names.map (before.entryStrings depth src)).sum
      (moveEntries env replies recurse src dst names type ret ⟨w, age⟩) := by
  induction names generalizing type ret w age with
  | nil => exact ⟨hP, Aged.refl age _⟩
  | cons name names ih =>
    have hrest : ∀ name ∈ names, name ∈ before.children src :=
      fun other hother => hnames other (List.mem_cons_of_mem _ hother)
    have hname := hnames name List.mem_cons_self
    rw [List.map_cons, List.sum_cons] at hroom ⊢
    cases hskipped : skipped name with
    | true =>
      rw [moveEntries, if_pos hskipped]
      exact (ih hrest type ret hP (hroom.mono (Nat.le_add_left _ _))).after (.refl age 0) (by omega)
    | false =>
      rw [moveEntries, if_neg (by rw [hskipped]; exact Bool.false_ne_true)]
      have hcost : before.entryStrings depth src name = 2 + max 1 (before.strings depth (entryPath src name)) := rfl
      have htwo : Room age 2 := hroom.mono (by omega)
      obtain ⟨age₁, hformat, haged₁⟩ := formatStrings_aged htwo
      simp only [hformat, Exec.done_bind]
      split
      · exact ⟨hP, haged₁.mono (by omega)⟩
      · rw [hcost, Nat.add_assoc] at hroom
        have hroom₁ := hroom.after haged₁
        have hentry : ∀ type, Spared P age₁ (max 1 (before.strings depth (entryPath src name))) (moveEntry env replies
            recurse ⟨w, age₁⟩ type (entryPath src name) (entryPath dst name)) := by
          intro type
          refine moveEntry_spared (le_max_left 1 _) (fun a ha => ?_) (hfile w name hname hskipped hP)
            (hroom₁.mono (Nat.le_add_right _ _)) ?_
          · exact (hrecurse w name a hname hskipped hP (by omega)).after (.refl (some a) 0) (by omega)
          · have := hfew name hname hskipped
            have : 1 + 1 < tmpstrNb := by decide
            omega
        refine ((hentry _).bind fun ret₁ moved hP₁ haged₂ => ?_).after haged₁ (by rw [hcost, Nat.add_assoc])
        exact (ih hrest _ ret₁ hP₁ (hroom₁.after haged₂)).after haged₂ (Nat.le_refl _)

/-- What is gone through of a directory is listed once it was entered. -/
theorem enterDirectory_listed {w w₁ : World} {type : Ftype} {names : List CStr}
    (h : enterDirectory env w src dst replies = (.ok (type, names), w₁)) :
    names.Sublist (w₁.remote.children src) := by
  unfold enterDirectory at h
  simp only at h
  split at h
  · cases h
  · generalize (if (dfsNameiTimeout env.conf.maxRetry (replies.nameiTarget dst) dst w.remote).1 = .enoent then
      dfsMkdir env w dst (replies.mkdir dst) else (0, w)) = made at h
    split at h
    · cases h
    · split at h
      · cases h
      · split at h
        · cases h
        · obtain ⟨hlisted, rfl⟩ := Prod.mk.inj h
          obtain ⟨-, rfl⟩ := Prod.mk.inj (Except.ok.inj hlisted)
          cases replies.readdir src with
          | none => exact .refl _
          | some count => exact List.take_sublist count _

/-- Entering a directory keeps what its calls keep. -/
theorem enterDirectory_kept (hkept : before.KeptBy env replies old new P) (hgives : before.Gives old new src dst)
    {w : World} (hP : P w) : P (enterDirectory env w src dst replies).2 := by
  have hmade : ∀ w₁, w₁ = w ∨ w₁ = (dfsMkdir env w dst (replies.mkdir dst)).2 → P w₁ := by
    rintro w₁ (rfl | rfl)
    · exact hP
    · exact hkept.mkdir w src dst hgives hP
  have houtcome := enterDirectory_outcome env w src dst replies
  generalize enterDirectory env w src dst replies = entered at houtcome ⊢
  cases houtcome with
  | refused h => exact hmade _ h
  | notEntered h => exact hmade _ h
  | notListed h => exact hkept.cwd _ _ (hmade _ h)
  | listed h => exact hkept.cwd _ _ (hmade _ h)

/-- The rename of a directory by path writes over no string in use, and keeps what its calls keep, if what is listed
was there before. -/
theorem moveDirectory_spared {ring : Ring} (hroomy : before.Roomy depth ring old new)
    (hkept : before.KeptBy env replies old new P) (hbefore : ∀ w, P w → before.ListedBefore w.remote old)
    {left : ℕ} (hleft : left ≤ depth)
    (hgives : before.Gives old new src dst) {w : World} {age : Option ℕ} (hP : P w)
    (hroom : Room age (before.strings left src)) :
    Spared P age (before.strings left src) (moveDirectory env replies left ⟨w, age⟩ src dst) := by
  induction left generalizing src dst w age with
  | zero => trivial
  | succ left ih =>
    have hleft' : left ≤ depth := Nat.le_of_succ_le hleft
    have hP₁ := enterDirectory_kept hkept hgives hP
    rw [moveDirectory]
    cases hentered : enterDirectory env w src dst replies with
    | mk result w₁ =>
    rw [hentered] at hP₁
    cases result with
    | error ret => exact ⟨hP₁, Aged.refl age _⟩
    | ok listing =>
      obtain ⟨type, names⟩ := listing
      have hsub : names.Sublist (before.children src) := (enterDirectory_listed hentered).trans
        (hbefore w₁ hP₁ src (hgives.below_both hroomy.short hroomy.short').1)
      have hcount : (names.map (before.entryStrings left src)).sum ≤ before.strings (left + 1) src :=
        (hsub.map _).sum_le_sum fun _ _ => Nat.zero_le _
      have hloop : Spared P age (names.map (before.entryStrings left src)).sum
          (moveEntries env replies (moveDirectory env replies left) src dst names type 0 ⟨w₁, age⟩) := by
        refine moveEntries_spared (fun w name a hname hskipped hP ha => ?_) (fun w name hname hskipped hP => ?_)
          (fun name hname hskipped => ?_) (fun name hname => hsub.subset hname) type 0 hP₁ (hroom.mono hcount)
        · exact ih hleft' (hgives.entry hname hskipped) hP fun b hb => Option.mem_some_iff.mp hb ▸ ha
        · exact hkept.file w src dst name hgives hname hskipped hP
        · have hfew := hroomy.few src dst name hgives hname hskipped
          have hmono := before.strings_mono hleft' (entryPath src name)
          omega
      refine hloop.bind fun ret moved hP₂ haged => ?_
      simp only
      split
      · exact ⟨hP₂, haged.mono hcount⟩
      · exact ⟨hkept.rmdir moved.world src dst hgives hP₂, haged.mono hcount⟩

/-- What becomes of the store when a file is renamed. -/
theorem renameFile_remote (env : Env) (w : World) (old new : CStr) (replies : RenameReplies) :
    (renameFile env w old new replies).2.remote =
        (dfsFcopyTimeout env.conf.maxRetry (replies.fcopy old new) old new w.remote).2 ∨
      (renameFile env w old new replies).2.remote =
        (dfsUnlinkTimeout env.conf.maxRetry (replies.unlink old).unlink old
          (dfsFcopyTimeout env.conf.maxRetry (replies.fcopy old new) old new w.remote).2).2 := by
  unfold renameFile
  simp only
  split
  · exact .inl rfl
  · refine .inr ?_
    rw [dfsUnlink_remote, World.removeDirentOf_remote]
    rfl

/-- What is listed of the old directory stays what was there before, as the calls add to the new one only. -/
theorem Remote.Roomy.listed {ring : Ring} (hroomy : before.Roomy depth ring old new)
    (hkept : before.KeptBy env replies old new P) :
    before.KeptBy env replies old new fun w => before.ListedBefore w.remote old ∧ P w where
  cwd w dir h := ⟨h.1, hkept.cwd w dir h.2⟩
  mkdir w src dst hgives h := by
    refine ⟨h.1.elsewhere (dfsMkdirTimeout_changedIn ..) hroomy.notRoot fun hbelow => ?_,
      hkept.mkdir w src dst hgives h.2⟩
    exact (hroomy.apart.both hbelow (hgives.below_both hroomy.short hroomy.short').2).ne rfl
  rmdir w src dst hgives h := by
    refine ⟨?_, hkept.rmdir w src dst hgives h.2⟩
    rw [(dfsRmdir_moves env w src (replies.rmdir src)).2]
    exact h.1.rmdir _ _ _
  file w src dst name hgives hname hskipped h := by
    refine ⟨?_, hkept.file w src dst name hgives hname hskipped h.2⟩
    have hbelow := ((hgives.entry hname hskipped).below_both hroomy.short hroomy.short').2
    have hcopied : before.ListedBefore (dfsFcopyTimeout env.conf.maxRetry
        (replies.fcopy (entryPath src name) (entryPath dst name)) (entryPath src name) (entryPath dst name)
        w.remote).2 old :=
      h.1.elsewhere (dfsFcopyTimeout_changedIn ..) hroomy.notRoot fun hold => (hroomy.apart.both hold hbelow).ne rfl
    rcases renameFile_remote env w (entryPath src name) (entryPath dst name) replies with hremote | hremote <;>
      rw [hremote]
    · exact hcopied
    · exact hcopied.unlink _ _ _

/-- What all calls of the rename of a directory keep on the paths it should work on, the rename keeps. -/
theorem renameDirectory_kept {w : World} {ring : Ring} (hroomy : w.remote.Roomy depth ring old new)
    (hkept : w.remote.KeptBy env replies old new P) (hP : P w) {ret : ℤ} {s' : Renaming}
    (h : renameDirectory env replies depth ⟨w, ring⟩ (.caller old) (.caller new) = .done (ret, s')) : P s'.world := by
  have hroom : Room none (w.remote.strings depth old) := fun a ha => absurd ha (Option.not_mem_none a)
  have hspared := moveDirectory_spared hroomy (hroomy.listed hkept) (fun _ h => h.1) (Nat.le_refl depth) .top
    ⟨fun dir _ => List.Sublist.refl _, hP⟩ hroom
  have hfollows := renameDirectory_follows_caller env replies hroomy.idle depth w old new
  generalize moveDirectory env replies depth ⟨w, none⟩ old new = run at hspared hfollows
  cases run with
  | done result =>
    obtain ⟨ring', hdone, -⟩ := hfollows
    rw [hdone] at h
    obtain ⟨-, rfl⟩ := Prod.mk.inj (Exec.done.inj h)
    exact hspared.1.2
  | blocked =>
    have hblocked : renameDirectory env replies depth ⟨w, ring⟩ (.caller old) (.caller new) = .blocked := hfollows
    rw [hblocked] at h
    cases h
  | undefined => exact hspared.elim

end Moves

end Dropletfs
