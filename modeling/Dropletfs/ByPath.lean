import Dropletfs.Interleaving

/-!
# Renaming with paths in place of slots

A rename that is given its paths as values, and of the strings it formats only counts how old
the oldest one in use has become. It is defined as long as that string is not a round old. The
rename with its strings in the ring does the same for as long, and has written over a string in
use when it returns after that.
-/

namespace Dropletfs

open Interleaving (Keeps Held reuses entryPath)

/-- The state of a rename by path: the age of the oldest string in use comes with the world. -/
structure PathRenaming where
  world : World
  age : Option ℕ

/-- Format some strings, as long as none in use is written over. -/
def formatStrings (count : ℕ) (age : Option ℕ) : Exec (Option ℕ) :=
  if ∀ a ∈ age, a + count < tmpstrNb then .done (age.map (· + count)) else .undefined

/-- `rename_file` by path. -/
def moveFile (env : Env) (s : PathRenaming) (old new : CStr) (replies : RenameReplies) : Exec (ℤ × PathRenaming) :=
  let (ret, w) := renameFile env s.world old new replies
  if ret = 0 then do
    let age ← formatStrings 1 s.age
    return (ret, ⟨w, age⟩)
  else return (ret, ⟨w, s.age⟩)

/-- What is done with an entry of the listing, by path. During a nested call the two paths of the entry are in use
as well. -/
def moveEntry (env : Env) (replies : RenameReplies)
    (recurse : PathRenaming → CStr → CStr → Exec (ℤ × PathRenaming)) (s : PathRenaming) (type : Ftype)
    (src dst : CStr) : Exec (ℤ × PathRenaming) :=
  if type = .dir then do
    let (ret, inner) ← recurse ⟨s.world, some (s.age.getD 1)⟩ src dst
    return (ret, ⟨inner.world, s.age.bind fun _ => inner.age⟩)
  else moveFile env s src dst replies

/-- The loop of `rename_directory` by path. -/
def moveEntries (env : Env) (replies : RenameReplies)
    (recurse : PathRenaming → CStr → CStr → Exec (ℤ × PathRenaming)) (old new : CStr) :
    List CStr → Ftype → ℤ → PathRenaming → Exec (ℤ × PathRenaming)
  | [], _, ret, s => .done (ret, s)
  | name :: names, type, ret, s =>
    if skipped name then moveEntries env replies recurse old new names type ret s
    else do
      let age ← formatStrings 2 s.age
      let src := entryPath old name
      let (status, found) := dfsNameiTimeout env.conf.maxRetry (replies.nameiEntry src) src s.world.remote
      if status ≠ .success ∧ status ≠ .enoent then return (-1, { s with age := age })
      else
        let type := found.getD type
        let (ret, s) ← moveEntry env replies recurse { s with age := age } type src (entryPath new name)
        moveEntries env replies recurse old new names type ret s

/-- `rename_directory` by path. -/
def moveDirectory (env : Env) (replies : RenameReplies) :
    ℕ → PathRenaming → CStr → CStr → Exec (ℤ × PathRenaming)
  | 0, _, _, _ => .blocked
  | depth + 1, s, old, new =>
    match enterDirectory env s.world old new replies with
    | (.error ret, w) => .done (ret, { s with world := w })
    | (.ok (type, names), w) => do
      let (ret, s) ← moveEntries env replies (moveDirectory env replies depth) old new names type 0 ⟨w, s.age⟩
      if ret = -1 then return (-1, s)
      else
        let w := (dfsRmdir env (s.world.log (.dfsRmdir old)) old (replies.rmdir old)).2
        return (0, ⟨w, s.age⟩)

/-- A piece of a rename has left the strings in use alone, and made the oldest as much older as the ring went on. -/
structure Formatted (ring ring' : Ring) (age age' : Option ℕ) : Prop where
  keeps : Keeps ring ring'
  reused : ring'.reused = ring.reused
  advanced : ∃ count, age' = age.map (· + count) ∧ ring'.current = (ring.current + count) % tmpstrNb ∧
    ∀ a ∈ age, a + count < tmpstrNb

namespace Formatted

variable {ring ring₁ ring' : Ring} {age age₁ age' : Option ℕ}

/-- Nothing was formatted. -/
theorem refl (h : ring.Eldest age) : Formatted ring ring age age where
  keeps := .refl ring
  reused := rfl
  advanced := by
    refine ⟨0, by cases age <;> rfl, (Nat.mod_eq_of_lt ring.current_lt).symm, ?_⟩
    rintro a rfl
    exact h.lt

/-- One piece after another. -/
theorem trans (h₁ : Formatted ring ring₁ age age₁) (h₂ : Formatted ring₁ ring' age₁ age') :
    Formatted ring ring' age age' where
  keeps := h₁.keeps.trans h₂.keeps
  reused := h₂.reused.trans h₁.reused
  advanced := by
    obtain ⟨count, rfl, hcurrent, hroom⟩ := h₁.advanced
    obtain ⟨count', rfl, hcurrent', hroom'⟩ := h₂.advanced
    refine ⟨count + count', ?_, ?_, ?_⟩
    · cases age with
      | none => rfl
      | some a => exact congrArg some (Nat.add_assoc a count count')
    · rw [hcurrent', hcurrent, Nat.mod_add_mod, Nat.add_assoc]
    · rintro a rfl
      have := hroom' (a + count) rfl
      omega

/-- The age of the oldest string in use is kept up. -/
theorem eldest (h : Formatted ring ring' age age') (hring : ring.Eldest age) : ring'.Eldest age' := by
  obtain ⟨count, rfl, hcurrent, hroom⟩ := h.advanced
  exact hring.advance h.keeps.live hcurrent hroom

/-- A string that goes to a slot not in use. -/
theorem push (hring : ring.Eldest age) (hroom : ∀ a ∈ age, a + 1 < tmpstrNb) (text : CStr) :
    Formatted ring (ring.push text) age (age.map (· + 1)) where
  keeps := .push (decide_eq_false (hring.next_free hroom)) text
  reused := SlotRing.push_reused_of_free (hring.next_free hroom) text
  advanced := ⟨1, rfl, SlotRing.push_current ring text, hroom⟩

end Formatted

/-- A rename with its strings in the ring, started with this ring, does what a rename by path does as long as the
latter is defined. -/
def Follows (ring : Ring) (age : Option ℕ) (run : Exec (ℤ × Renaming)) : Exec (ℤ × PathRenaming) → Prop
  | .done (ret, moved) => ∃ ring', run = .done (ret, ⟨moved.world, ring'⟩) ∧ Formatted ring ring' age moved.age
  | .blocked => run = .blocked
  | .undefined => ∀ ret s', run = .done (ret, s') → s'.ring.reused = true

/-- What follows in the one also follows in the other. -/
theorem Follows.bind {ring : Ring} {age : Option ℕ} {run : Exec (ℤ × Renaming)} {moved : Exec (ℤ × PathRenaming)}
    {next : ℤ × Renaming → Exec (ℤ × Renaming)} {next' : ℤ × PathRenaming → Exec (ℤ × PathRenaming)}
    (h : Follows ring age run moved)
    (hnext : ∀ ret m ring', moved = .done (ret, m) → Formatted ring ring' age m.age →
      Follows ring' m.age (next (ret, ⟨m.world, ring'⟩)) (next' (ret, m)))
    (hreused : ∀ ret s ret' s', next (ret, s) = .done (ret', s') → s.ring.reused = true → s'.ring.reused = true) :
    Follows ring age (run >>= next) (moved >>= next') := by
  cases moved with
  | done result =>
    obtain ⟨ret, m⟩ := result
    obtain ⟨ring₁, rfl, hformatted⟩ := h
    have hlater := hnext ret m ring₁ rfl hformatted
    simp only [Exec.done_bind]
    generalize next' (ret, m) = moved' at hlater ⊢
    cases moved' with
    | done result =>
      obtain ⟨ring', hdone, hformatted'⟩ := hlater
      exact ⟨ring', hdone, hformatted.trans hformatted'⟩
    | blocked => exact hlater
    | undefined => exact hlater
  | blocked =>
    have hblocked : run = .blocked := h
    rw [hblocked]
    rfl
  | undefined =>
    intro ret s' hdone
    obtain ⟨⟨ret₁, s₁⟩, hrun, hnext'⟩ := Exec.bind_eq_done.mp hdone
    exact hreused ret₁ s₁ ret s' hnext' (h ret₁ s₁ hrun)

/-- Formatting a string in a slot not in use. -/
theorem printf_free {ring : Ring} {dir : StrPtr} {text : CStr} (hdir : Held ring dir text)
    (hfree : SlotRing.next tmpstrNb ring.current ∉ ring.live) (name : CStr) :
    ring.printf dir name =
      .done (SlotRing.next tmpstrNb ring.current, ring.push (tmpstrPrintf (slashed text name))) := by
  have hother : dir ≠ .slot (SlotRing.next tmpstrNb ring.current) := by
    rintro rfl
    exact hfree (hdir.live _ (List.mem_singleton.mpr rfl))
  rw [Ring.printf, if_neg hother, hdir.deref]
  rfl

/-- Formatting a string keeps a reuse recorded, and records one. -/
theorem printf_reused {ring ring' : Ring} {dir : StrPtr} {name : CStr} {i : ℕ}
    (hprintf : ring.printf dir name = .done (i, ring'))
    (h : ring.reused = true ∨ SlotRing.next tmpstrNb ring.current ∈ ring.live) : ring'.reused = true := by
  unfold Ring.printf at hprintf
  split at hprintf
  · cases hprintf
  · obtain ⟨-, rfl⟩ := Prod.mk.inj (Exec.done.inj hprintf)
    rcases h with hreused | hlive
    · exact SlotRing.push_reused_of_reused hreused _
    · exact SlotRing.push_reused_of_live hlive _

section Reused

variable {env : Env} {replies : RenameReplies}

/-- The rename of a file keeps a reuse recorded. -/
theorem renameFileAt_reused {s s' : Renaming} {old new : StrPtr} {ret : ℤ}
    (h : renameFileAt env s old new replies = (ret, s')) (hreused : s.ring.reused = true) :
    s'.ring.reused = true := by
  unfold renameFileAt at h
  simp only at h
  split at h
  · obtain ⟨-, rfl⟩ := Prod.mk.inj h
    exact SlotRing.push_reused_of_reused hreused _
  · obtain ⟨-, rfl⟩ := Prod.mk.inj h
    exact hreused

/-- The loop, at an entry, formats the two paths of the entry first. What follows keeps a reuse recorded, if nested
calls and the rest of the loop do. -/
theorem renameEntries_cons {recurse : Renaming → StrPtr → StrPtr → Exec (ℤ × Renaming)} {old new : StrPtr}
    {name : CStr} {names : List CStr} {type : Ftype} {ret ret' : ℤ} {s s' : Renaming}
    (hrecurse : ∀ s old new ret s', recurse s old new = .done (ret, s') → s.ring.reused = true →
      s'.ring.reused = true)
    (hrest : ∀ type ret s, renameEntries env replies recurse old new names type ret s = .done (ret', s') →
      s.ring.reused = true → s'.ring.reused = true) (hskipped : ¬ skipped name = true)
    (h : renameEntries env replies recurse old new (name :: names) type ret s = .done (ret', s')) :
    ∃ src ring₁ dst ring₂, s.ring.printf old name = .done (src, ring₁) ∧
      Ring.printf ring₁ new name = .done (dst, ring₂) ∧
      (ring₂.reused = true → s'.ring.reused = true) := by
  simp only [renameEntries, hskipped] at h
  obtain ⟨⟨src, ring₁⟩, hsrc, h⟩ := Exec.bind_eq_done.mp h
  obtain ⟨⟨dst, ring₂⟩, hdst, h⟩ := Exec.bind_eq_done.mp h
  refine ⟨src, ring₁, dst, ring₂, hsrc, hdst, fun hreused => ?_⟩
  simp only at h
  split at h
  · obtain ⟨-, rfl⟩ := Prod.mk.inj (Exec.done.inj h)
    exact hreused
  · obtain ⟨⟨ret₁, s₁⟩, hentry, h⟩ := Exec.bind_eq_done.mp h
    apply hrest _ _ _ h
    unfold renameEntry at hentry
    split at hentry
    · exact hrecurse _ _ _ _ _ hentry hreused
    · exact renameFileAt_reused (Exec.done.inj hentry) hreused

/-- The loop keeps a reuse recorded, if nested calls do. -/
theorem renameEntries_reused {recurse : Renaming → StrPtr → StrPtr → Exec (ℤ × Renaming)}
    (hrecurse : ∀ s old new ret s', recurse s old new = .done (ret, s') → s.ring.reused = true →
      s'.ring.reused = true) {old new : StrPtr} {names : List CStr} {type : Ftype} {ret ret' : ℤ} {s s' : Renaming}
    (h : renameEntries env replies recurse old new names type ret s = .done (ret', s'))
    (hreused : s.ring.reused = true) : s'.ring.reused = true := by
  induction names generalizing type ret s with
  | nil =>
    obtain ⟨-, rfl⟩ := Prod.mk.inj (Exec.done.inj h)
    exact hreused
  | cons name names ih =>
    by_cases hskipped : skipped name = true
    · simp only [renameEntries, hskipped, if_true] at h
      exact ih h hreused
    · obtain ⟨src, ring₁, dst, ring₂, hsrc, hdst, hlater⟩ :=
        renameEntries_cons hrecurse (fun _ _ _ h hreused => ih h hreused) hskipped h
      have hreused₁ : ring₁.reused = true := printf_reused hsrc (.inl hreused)
      exact hlater (printf_reused hdst (.inl hreused₁))

/-- The rename of a directory keeps a reuse recorded. -/
theorem renameDirectory_reused {depth : ℕ} {s s' : Renaming} {old new : StrPtr} {ret : ℤ}
    (h : renameDirectory env replies depth s old new = .done (ret, s')) (hreused : s.ring.reused = true) :
    s'.ring.reused = true := by
  induction depth generalizing s old new ret s' with
  | zero => cases h
  | succ depth ih =>
    simp only [renameDirectory] at h
    split at h
    · obtain ⟨-, rfl⟩ := Prod.mk.inj (Exec.done.inj h)
      exact hreused
    · obtain ⟨⟨ret₁, s₁⟩, hloop, h⟩ := Exec.bind_eq_done.mp h
      have hreused₁ : s₁.ring.reused = true :=
        renameEntries_reused (fun s old new ret s' hcall hs => ih hcall hs) hloop hreused
      simp only at h
      split at h
      · obtain ⟨-, rfl⟩ := Prod.mk.inj (Exec.done.inj h)
        exact hreused₁
      · obtain ⟨-, rfl⟩ := Prod.mk.inj (Exec.done.inj h)
        exact hreused₁

end Reused

/-- A call that marks slots as in use and gives them up again. -/
theorem Follows.leave {ring : Ring} {slots : List ℕ} {age : Option ℕ} {run : Exec (ℤ × Renaming)}
    {moved : Exec (ℤ × PathRenaming)} (h : Follows (ring.enter slots) (some (age.getD 1)) run moved) :
    Follows ring age (do let (ret, s) ← run; return (ret, { s with ring := s.ring.leave ring.live }))
      (do let (ret, inner) ← moved; return (ret, ⟨inner.world, age.bind fun _ => inner.age⟩)) := by
  cases moved with
  | done result =>
    obtain ⟨ret, m⟩ := result
    obtain ⟨ring', rfl, hformatted⟩ := h
    obtain ⟨count, hage, hcurrent, hroom⟩ := hformatted.advanced
    refine ⟨ring'.leave ring.live, rfl, ⟨rfl, fun i hi => ?_⟩, hformatted.reused, count, ?_, hcurrent, ?_⟩
    · exact hformatted.keeps.slots i (List.mem_append_right _ hi)
    · cases age with
      | none => rfl
      | some a => exact hage
    · rintro a rfl
      exact hroom a rfl
  | blocked =>
    have hblocked : run = .blocked := h
    rw [hblocked]
    rfl
  | undefined =>
    intro ret s' hdone
    obtain ⟨⟨ret₁, s₁⟩, hrun, hreturn⟩ := Exec.bind_eq_done.mp hdone
    obtain ⟨-, rfl⟩ := Prod.mk.inj (Exec.done.inj hreturn)
    exact h ret₁ s₁ hrun

/-- A rename that starts by formatting strings. -/
theorem Follows.after {ring ring₁ : Ring} {age age₁ : Option ℕ} {run : Exec (ℤ × Renaming)}
    {moved : Exec (ℤ × PathRenaming)} (hformatted : Formatted ring ring₁ age age₁) (h : Follows ring₁ age₁ run moved) :
    Follows ring age run moved := by
  cases moved with
  | done result =>
    obtain ⟨ring', hdone, hlater⟩ := h
    exact ⟨ring', hdone, hformatted.trans hlater⟩
  | blocked => exact h
  | undefined => exact h

section Follows

variable (env : Env) (replies : RenameReplies) {ring : Ring} {age : Option ℕ}

/-- The rename of a file. -/
theorem renameFileAt_follows (hring : ring.Eldest age) (w : World) (old new : StrPtr) :
    Follows ring age (.done (renameFileAt env ⟨w, ring⟩ old new replies))
      (moveFile env ⟨w, age⟩ (ring.deref old) (ring.deref new) replies) := by
  unfold renameFileAt moveFile
  simp only
  generalize renameFile env w (ring.deref old) (ring.deref new) replies = result
  obtain ⟨ret, w'⟩ := result
  by_cases hret : ret = 0
  · simp only [hret, if_true]
    by_cases hroom : ∀ a ∈ age, a + 1 < tmpstrNb
    · rw [formatStrings, if_pos hroom]
      exact ⟨_, rfl, .push hring hroom _⟩
    · rw [formatStrings, if_neg hroom]
      intro ret' s' hdone
      obtain ⟨-, rfl⟩ := Prod.mk.inj (Exec.done.inj hdone)
      exact SlotRing.push_reused_of_live (hring.next_live hroom) _
  · simp only [hret, if_false]
    exact ⟨ring, rfl, .refl hring⟩

/-- What is done with an entry whose paths were the last strings formatted. -/
theorem renameEntry_follows {recurse : Renaming → StrPtr → StrPtr → Exec (ℤ × Renaming)}
    {recurse' : PathRenaming → CStr → CStr → Exec (ℤ × PathRenaming)}
    (hrecurse : ∀ w ring age old new, (ring.enter (old.slots ++ new.slots)).Eldest age →
      ∃ run, recurse ⟨w, ring⟩ old new =
          (do let (ret, s) ← run; return (ret, { s with ring := s.ring.leave ring.live })) ∧
        Follows (ring.enter (old.slots ++ new.slots)) age run
          (recurse' ⟨w, age⟩ (ring.deref old) (ring.deref new)))
    (hring : ring.Eldest age) (hage : ∀ a ∈ age, 1 ≤ a) (w : World) (type : Ftype) {src dst : ℕ}
    (hsrc : ring.Aged src 1) (hdst : ring.Aged dst 0) :
    Follows ring age (renameEntry env replies recurse ⟨w, ring⟩ type (.slot src) (.slot dst))
      (moveEntry env replies recurse' ⟨w, age⟩ type (ring.slots src) (ring.slots dst)) := by
  unfold renameEntry moveEntry
  split
  · have henter : (ring.enter [src, dst]).Eldest (some (age.getD 1)) :=
      hring.enter hsrc hdst (by decide) hage
    obtain ⟨run, hrun, hfollows⟩ := hrecurse w ring (some (age.getD 1)) (.slot src) (.slot dst) henter
    rw [hrun]
    exact hfollows.leave
  · exact renameFileAt_follows env replies hring w (.slot src) (.slot dst)

/-- The loop formats the two paths of an entry. -/
theorem entryPaths_follow {old new : StrPtr} {P Q : CStr} (hring : ring.Eldest age) (hold : Held ring old P)
    (hnew : Held ring new Q) (hroom : ∀ a ∈ age, a + 2 < tmpstrNb) (name : CStr) :
    ∃ src ring₁ dst ring₂, ring.printf old name = .done (src, ring₁) ∧
      Ring.printf ring₁ new name = .done (dst, ring₂) ∧
      Formatted ring ((ring₂.amend src dropTrailingSlash).amend dst dropTrailingSlash) age (age.map (· + 2)) ∧
      ((ring₂.amend src dropTrailingSlash).amend dst dropTrailingSlash).Aged src 1 ∧
      ((ring₂.amend src dropTrailingSlash).amend dst dropTrailingSlash).Aged dst 0 ∧
      ((ring₂.amend src dropTrailingSlash).amend dst dropTrailingSlash).slots src = entryPath P name ∧
      ((ring₂.amend src dropTrailingSlash).amend dst dropTrailingSlash).slots dst = entryPath Q name := by
  have hroom₁ : ∀ a ∈ age, a + 1 < tmpstrNb := fun a ha => by have := hroom a ha; omega
  have hfirst := Formatted.push hring hroom₁ (tmpstrPrintf (slashed P name))
  have hring₁ := hfirst.eldest hring
  have hroom₂ : ∀ a ∈ age.map (· + 1), a + 1 < tmpstrNb := by
    intro a ha
    obtain ⟨b, hb, rfl⟩ := Option.mem_map.mp ha
    exact hroom b hb
  have hsecond := Formatted.push hring₁ hroom₂ (tmpstrPrintf (slashed Q name))
  have htwo : (age.map (· + 1)).map (· + 1) = age.map (· + 2) := by
    cases age <;> rfl
  have hpaths := @Interleaving.entryPaths_formed ring P Q name
    (decide_eq_false (hring.next_free hroom₁)) (decide_eq_false (hring₁.next_free hroom₂))
  obtain ⟨hkeeps, hsrc, hdst⟩ := hpaths
  refine ⟨_, _, _, _, printf_free hold (hring.next_free hroom₁) name,
    printf_free (hnew.keeps hfirst.keeps) (hring₁.next_free hroom₂) name, ?_, ?_, ?_, hsrc, hdst⟩
  · rw [← htwo]
    exact ⟨hkeeps, (hfirst.trans hsecond).reused, (hfirst.trans hsecond).advanced⟩
  · exact (SlotRing.aged_current (ring.push (tmpstrPrintf (slashed P name)))).push (tmpstrPrintf (slashed Q name))
  · exact SlotRing.aged_current _

/-- The loop, given the nested calls. -/
theorem renameEntries_follows {recurse : Renaming → StrPtr → StrPtr → Exec (ℤ × Renaming)}
    {recurse' : PathRenaming → CStr → CStr → Exec (ℤ × PathRenaming)}
    (hrecurse : ∀ w ring age old new, (ring.enter (old.slots ++ new.slots)).Eldest age →
      ∃ run, recurse ⟨w, ring⟩ old new =
          (do let (ret, s) ← run; return (ret, { s with ring := s.ring.leave ring.live })) ∧
        Follows (ring.enter (old.slots ++ new.slots)) age run
          (recurse' ⟨w, age⟩ (ring.deref old) (ring.deref new)))
    (hreused : ∀ s old new ret s', recurse s old new = .done (ret, s') → s.ring.reused = true →
      s'.ring.reused = true)
    {old new : StrPtr} {P Q : CStr} (names : List CStr) (type : Ftype) (ret : ℤ) (w : World) (hring : ring.Eldest age)
    (hold : Held ring old P) (hnew : Held ring new Q) :
    Follows ring age (renameEntries env replies recurse old new names type ret ⟨w, ring⟩)
      (moveEntries env replies recurse' P Q names type ret ⟨w, age⟩) := by
  induction names generalizing type ret w ring age with
  | nil => exact ⟨ring, rfl, .refl hring⟩
  | cons name names ih =>
    by_cases hskipped : skipped name = true
    · simp only [renameEntries, moveEntries, hskipped, if_true]
      exact ih type ret w hring hold hnew
    · by_cases hroom : ∀ a ∈ age, a + 2 < tmpstrNb
      · obtain ⟨src, ring₁, dst, ring₂, hprintf, hprintf', hformatted, hsrc, hdst, hsrcPath, hdstPath⟩ :=
          entryPaths_follow hring hold hnew hroom name
        have hring₂ := hformatted.eldest hring
        rw [renameEntries, moveEntries, if_neg hskipped, if_neg hskipped]
        simp only [hprintf, hprintf', formatStrings, if_pos hroom, Exec.done_bind]
        refine .after hformatted ?_
        rw [← hsrcPath, ← hdstPath]
        split
        · exact ⟨_, rfl, .refl hring₂⟩
        · refine .bind (renameEntry_follows env replies hrecurse hring₂ ?_ w _ hsrc hdst) ?_ ?_
          · intro a ha
            obtain ⟨b, -, rfl⟩ := Option.mem_map.mp ha
            omega
          · intro ret₁ m ring' _ hentry
            have hkeeps := hformatted.keeps.trans hentry.keeps
            exact ih _ ret₁ m.world (hentry.eldest hring₂) (hold.keeps hkeeps) (hnew.keeps hkeeps)
          · exact fun _ _ _ _ hdone hs => renameEntries_reused hreused hdone hs
      · rw [moveEntries, if_neg hskipped, formatStrings, if_neg hroom]
        intro ret' s' hdone
        obtain ⟨src, ring₁, dst, ring₂, hsrc, hdst, hlater⟩ := renameEntries_cons hreused
          (fun _ _ _ h hs => renameEntries_reused hreused h hs) hskipped hdone
        -- the first string reuses a slot, or it does not and the second one does
        refine hlater ?_
        by_cases hroom₁ : ∀ a ∈ age, a + 1 < tmpstrNb
        · obtain ⟨-, rfl⟩ := Prod.mk.inj
            (Exec.done.inj ((printf_free hold (hring.next_free hroom₁) name).symm.trans hsrc))
          have hring₁ := (Formatted.push hring hroom₁ (tmpstrPrintf (slashed P name))).eldest hring
          refine printf_reused hdst (.inr (hring₁.next_live fun hroom₂ => hroom fun a ha => ?_))
          exact hroom₂ (a + 1) (Option.mem_map.mpr ⟨a, ha, rfl⟩)
        · have hreused₁ : ring₁.reused = true := printf_reused hsrc (.inr (hring.next_live hroom₁))
          exact printf_reused hdst (.inl hreused₁)

/-- The rename of a directory, however deep. -/
theorem renameDirectory_follows (depth : ℕ) (w : World) (old new : StrPtr)
    (hring : (ring.enter (old.slots ++ new.slots)).Eldest age) :
    ∃ run, renameDirectory env replies depth ⟨w, ring⟩ old new =
        (do let (ret, s) ← run; return (ret, { s with ring := s.ring.leave ring.live })) ∧
      Follows (ring.enter (old.slots ++ new.slots)) age run
        (moveDirectory env replies depth ⟨w, age⟩ (ring.deref old) (ring.deref new)) := by
  induction depth generalizing w ring age old new with
  | zero => exact ⟨.blocked, rfl, rfl⟩
  | succ depth ih =>
    simp only [renameDirectory, moveDirectory]
    generalize enterDirectory env w (ring.deref old) (ring.deref new) replies = entered
    obtain ⟨result, w₁⟩ := entered
    cases result with
    | error ret => exact ⟨.done (ret, ⟨w₁, ring.enter (old.slots ++ new.slots)⟩), rfl, _, rfl, .refl hring⟩
    | ok listing =>
      obtain ⟨type, names⟩ := listing
      have hold : Held (ring.enter (old.slots ++ new.slots)) old (ring.deref old) := by
        refine ⟨?_, fun i hi => List.mem_append_left _ (List.mem_append_left _ hi)⟩
        cases old <;> rfl
      have hnew : Held (ring.enter (old.slots ++ new.slots)) new (ring.deref new) := by
        refine ⟨?_, fun i hi => List.mem_append_left _ (List.mem_append_right _ hi)⟩
        cases new <;> rfl
      have hloop := renameEntries_follows env replies (fun w _ _ old new hring => ih w old new hring)
        (fun _ _ _ _ _ hcall hs => renameDirectory_reused hcall hs) names type 0 w₁ hring hold hnew
      refine ⟨renameEntries env replies (renameDirectory env replies depth) old new names type 0
        ⟨w₁, ring.enter (old.slots ++ new.slots)⟩ >>= fun (ret, s) =>
          if ret = -1 then return (-1, s)
          else return (0, ⟨(dfsRmdir env (s.world.log (.dfsRmdir (s.ring.deref old))) (s.ring.deref old)
            (replies.rmdir (s.ring.deref old))).2, s.ring⟩), ?_, ?_⟩
      · simp only
        cases renameEntries env replies (renameDirectory env replies depth) old new names type 0
          ⟨w₁, ring.enter (old.slots ++ new.slots)⟩ with
        | done looped =>
          obtain ⟨ret, s⟩ := looped
          simp only [Exec.done_bind]
          split <;> rfl
        | blocked => rfl
        | undefined => rfl
      · refine hloop.bind ?_ ?_
        · intro ret m ring' _ hlooped
          have hring' := hlooped.eldest hring
          simp only
          rw [(hold.keeps hlooped.keeps).deref]
          split
          · exact ⟨ring', rfl, .refl hring'⟩
          · exact ⟨ring', rfl, .refl hring'⟩
        · intro ret s ret' s' hdone hs
          simp only at hdone
          split at hdone
          · obtain ⟨-, rfl⟩ := Prod.mk.inj (Exec.done.inj hdone)
            exact hs
          · obtain ⟨-, rfl⟩ := Prod.mk.inj (Exec.done.inj hdone)
            exact hs

/-- The rename of a directory with paths of the caller, no strings of the ring being in use. -/
theorem renameDirectory_follows_caller (hidle : ring.live = []) (depth : ℕ) (w : World) (old new : CStr) :
    Follows ring none (renameDirectory env replies depth ⟨w, ring⟩ (.caller old) (.caller new))
      (moveDirectory env replies depth ⟨w, none⟩ old new) := by
  have hring : (ring.enter ((StrPtr.caller old).slots ++ (StrPtr.caller new).slots)).Eldest none := hidle
  obtain ⟨run, hrun, hfollows⟩ := renameDirectory_follows env replies depth w _ _ hring
  rw [hrun]
  simp only [Ring.deref] at hfollows
  generalize moveDirectory env replies depth ⟨w, none⟩ old new = moved at hfollows ⊢
  cases moved with
  | done result =>
    obtain ⟨ret, m⟩ := result
    obtain ⟨ring', rfl, hformatted⟩ := hfollows
    have hlive : ring'.live = ring.live := hformatted.keeps.live
    refine ⟨ring', ?_, hformatted⟩
    simp only [Exec.done_bind, SlotRing.leave, ← hlive]
    rfl
  | blocked =>
    have hblocked : run = .blocked := hfollows
    rw [hblocked]
    rfl
  | undefined =>
    intro ret s' hdone
    obtain ⟨⟨ret₁, s₁⟩, hran, hreturn⟩ := Exec.bind_eq_done.mp hdone
    obtain ⟨-, rfl⟩ := Prod.mk.inj (Exec.done.inj hreturn)
    exact hfollows ret₁ s₁ hran

end Follows

end Dropletfs
