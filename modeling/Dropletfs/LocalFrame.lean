import Dropletfs.LocalFiles

/-!
# What a sequence of local calls leaves alone

A call that works on a few names changes those names, the inodes they lead to, and the
descriptors it opens itself. Everything else in the local file system is as before: the
other names, the content behind them, and the descriptors that were open.
-/

namespace Dropletfs.LocalFs

/-- Between two states only the given names, the inodes these led to, new inodes, and descriptors that
were not open have changed. -/
structure Frame (N : CStr → Prop) (fs fs' : LocalFs) : Prop where
  names : ∀ name, ¬ N name → fs'.names name = fs.names name
  inodes : ∀ ino < fs.nextIno, (∀ name, N name → fs.names name ≠ some ino) → fs'.inodes ino = fs.inodes ino
  origin : ∀ name ino, N name → fs'.names name = some ino →
    fs.nextIno ≤ ino ∨ ∃ other, N other ∧ fs.names other = some ino
  files : ∀ fd file, fs.files fd = some file → fs'.files fd = some file
  nextIno : fs.nextIno ≤ fs'.nextIno

/-- A descriptor opened since on one of the names. -/
structure Owns (N : CStr → Prop) (fs fs' : LocalFs) (fd : ℕ) (file : OpenFile) : Prop where
  unused : fs.files fd = none
  isOpen : fs'.files fd = some file
  origin : fs.nextIno ≤ file.ino ∨ ∃ name, N name ∧ fs.names name = some file.ino

/-- The ways `open` can succeed: on an existing name, truncating it or not, or on a new one. -/
inductive OpenFileOutcome (fs : LocalFs) (proc : Process) (name : CStr) (flags : OpenFlags)
    (mode : BitVec 32) : ℕ → LocalFs → Prop
  | existing {fd ino : ℕ} : fs.files fd = none → fs.names (collapse name) = some ino →
      OpenFileOutcome fs proc name flags mode fd
        ((if flags.trunc then fs.setContent ino [] else fs).bind fd ino flags.write)
  | created {fd : ℕ} : fs.files fd = none → fs.names (collapse name) = none → flags.creat = true →
      OpenFileOutcome fs proc name flags mode fd ((fs.create proc name mode).bind fd fs.nextIno flags.write)

/-- `open` succeeds in one of these ways, on the descriptor of the reply. -/
theorem openFile_outcome {fs fs' : LocalFs} {proc : Process} {name : CStr} {flags : OpenFlags}
    {mode : BitVec 32} {reply : Option ℕ} {fd : ℕ}
    (h : fs.openFile proc name flags mode reply = some (fd, fs')) :
    reply = some fd ∧ OpenFileOutcome fs proc name flags mode fd fs' := by
  unfold openFile at h
  split at h
  · cases h
  · split at h
    · cases h
    · rename_i hfree
      have hnone : ∀ fd, ¬ (fs.files fd).isSome = true → fs.files fd = none := by simp
      split at h
      · rename_i ino hresolve
        simp only [Option.some.injEq, Prod.mk.injEq] at h
        obtain ⟨rfl, rfl⟩ := h
        exact ⟨rfl, .existing (hnone _ hfree) hresolve⟩
      · rename_i hresolve
        split at h
        · rename_i hcreat
          simp only [Option.some.injEq, Prod.mk.injEq] at h
          obtain ⟨rfl, rfl⟩ := h
          exact ⟨rfl, .created (hnone _ hfree) hresolve hcreat⟩
        · cases h

/-- The descriptor `open` returns is at offset zero of the inode its name then leads to. -/
theorem openFile_file {fs fs' : LocalFs} {proc : Process} {name : CStr} {flags : OpenFlags}
    {mode : BitVec 32} {reply : Option ℕ} {fd : ℕ}
    (h : fs.openFile proc name flags mode reply = some (fd, fs')) :
    fs.files fd = none ∧ ∃ ino, fs'.files fd = some ⟨ino, 0, flags.write⟩ ∧
      fs'.names (collapse name) = some ino := by
  cases (openFile_outcome h).2 with
  | existing hfree hname =>
    refine ⟨hfree, _, Function.update_self .., ?_⟩
    split <;> exact hname
  | created hfree _ _ => exact ⟨hfree, _, Function.update_self .., Function.update_self ..⟩

/-- Opening with truncation leaves an empty file. -/
theorem openFile_trunc {fs fs' : LocalFs} {proc : Process} {name : CStr} {flags : OpenFlags}
    {mode : BitVec 32} {reply : Option ℕ} {fd : ℕ} (htrunc : flags.trunc = true)
    (h : fs.openFile proc name flags mode reply = some (fd, fs')) : fs'.fdContent fd = some [] := by
  cases (openFile_outcome h).2 with
  | existing _ _ => simp [fdContent, bind, htrunc, setContent]
  | created _ _ _ => simp [fdContent, bind, create]

/-- Opening without truncation and without creation changes the descriptors only. -/
theorem openFile_plain {fs fs' : LocalFs} {proc : Process} {name : CStr} {flags : OpenFlags}
    {mode : BitVec 32} {reply : Option ℕ} {fd : ℕ} (htrunc : flags.trunc = false)
    (hcreat : flags.creat = false) (h : fs.openFile proc name flags mode reply = some (fd, fs')) :
    ∃ ino, fs.files fd = none ∧ fs.names (collapse name) = some ino ∧ fs' = fs.bind fd ino flags.write := by
  cases (openFile_outcome h).2 with
  | existing hfree hname => exact ⟨_, hfree, hname, by simp [htrunc]⟩
  | created _ _ hcreat' => simp [hcreat] at hcreat'

/-- Renaming leaves the descriptors alone. -/
theorem rename_files (fs : LocalFs) (old new : CStr) : (fs.rename old new).files = fs.files := by
  unfold rename
  split <;> rfl

/-- Closing several descriptors frees these. -/
theorem closeAll_eq (fs : LocalFs) (fds : List ℕ) :
    fs.closeAll fds = { fs with files := fun fd => if fd ∈ fds then none else fs.files fd } := by
  induction fds generalizing fs with
  | nil => simp [closeAll]
  | cons first rest ih =>
    have hcons : fs.closeAll (first :: rest) = (fs.close first).closeAll rest := rfl
    rw [hcons, ih]
    simp only [close, LocalFs.mk.injEq, true_and, and_true]
    funext fd
    simp only [Function.update_apply, List.mem_cons]
    grind

namespace Frame

variable {N : CStr → Prop} {fs fs₁ fs₂ : LocalFs}

/-- Nothing has changed yet. -/
theorem refl (N : CStr → Prop) (fs : LocalFs) : Frame N fs fs where
  names _ _ := rfl
  inodes _ _ _ := rfl
  origin name _ hN h := .inr ⟨name, hN, h⟩
  files _ _ h := h
  nextIno := Nat.le_refl _

/-- More names may change. -/
theorem mono {M : CStr → Prop} (h : Frame N fs fs₁) (hNM : ∀ name, N name → M name) : Frame M fs fs₁ where
  names name hM := h.names name fun hN => hM (hNM name hN)
  inodes ino hlt hM := h.inodes ino hlt fun name hN => hM name (hNM name hN)
  origin := by
    intro name ino hM hname
    by_cases hN : N name
    · rcases h.origin name ino hN hname with hnew | ⟨other, hother, hold⟩
      · exact .inl hnew
      · exact .inr ⟨other, hNM other hother, hold⟩
    · exact .inr ⟨name, hM, by rw [← h.names name hN]; exact hname⟩
  files := h.files
  nextIno := h.nextIno

/-- Replacing the content of an inode that is new or that one of the names led to. -/
theorem setContent (h : Frame N fs fs₁) {ino : ℕ} (bytes : Bytes)
    (horigin : fs.nextIno ≤ ino ∨ ∃ name, N name ∧ fs.names name = some ino) :
    Frame N fs (fs₁.setContent ino bytes) where
  names := h.names
  inodes := by
    intro i hlt hN
    have hne : i ≠ ino := by
      rintro rfl
      rcases horigin with hnew | ⟨name, hname, hold⟩
      · omega
      · exact hN name hname hold
    simp only [LocalFs.setContent, Function.update_of_ne hne]
    exact h.inodes i hlt hN
  origin := h.origin
  files := h.files
  nextIno := h.nextIno

/-- Binding a descriptor that was not open. -/
theorem bind (h : Frame N fs fs₁) {fd : ℕ} (hfree : fs.files fd = none) (ino : ℕ) (write : Bool) :
    Frame N fs (fs₁.bind fd ino write) where
  names := h.names
  inodes := h.inodes
  origin := h.origin
  files := by
    intro fd' file hfile
    have hne : fd' ≠ fd := by
      rintro rfl
      rw [hfree] at hfile
      cases hfile
    simp only [LocalFs.bind, Function.update_of_ne hne]
    exact h.files fd' file hfile
  nextIno := h.nextIno

/-- A new file under one of the names. -/
theorem create (h : Frame N fs fs₁) (proc : Process) {name : CStr} (mode : BitVec 32)
    (hN : N (collapse name)) : Frame N fs (fs₁.create proc name mode) where
  names := by
    intro other hother
    have hne : other ≠ collapse name := fun heq => hother (heq ▸ hN)
    simp only [LocalFs.create, Function.update_of_ne hne]
    exact h.names other hother
  inodes := by
    intro ino hlt hnot
    have hne : ino ≠ fs₁.nextIno := by
      have := h.nextIno
      omega
    simp only [LocalFs.create, Function.update_of_ne hne]
    exact h.inodes ino hlt hnot
  origin := by
    intro other ino hother hname
    simp only [LocalFs.create, Function.update_apply] at hname
    split at hname
    · obtain rfl := Option.some.inj hname
      exact .inl h.nextIno
    · exact h.origin other ino hother hname
  files := h.files
  nextIno := Nat.le_succ_of_le h.nextIno

/-- A descriptor that is free now was not open before. -/
theorem free_before (h : Frame N fs fs₁) {fd : ℕ} (hfree : fs₁.files fd = none) : fs.files fd = none := by
  cases hfile : fs.files fd with
  | none => rfl
  | some file =>
    rw [h.files fd file hfile] at hfree
    cases hfree

/-- Opening one of the names, or any name without truncating or creating it. -/
theorem openFile (h : Frame N fs fs₁) {proc : Process} {name : CStr} {flags : OpenFlags} {mode : BitVec 32}
    {reply : Option ℕ} {fd : ℕ} (hN : N (collapse name) ∨ (flags.trunc = false ∧ flags.creat = false))
    (hopen : fs₁.openFile proc name flags mode reply = some (fd, fs₂)) : Frame N fs fs₂ := by
  cases (openFile_outcome hopen).2 with
  | existing hfree hname =>
    apply Frame.bind _ (h.free_before hfree)
    split
    · rename_i htrunc
      rcases hN with hN | ⟨hfalse, -⟩
      · exact h.setContent [] (h.origin _ _ hN hname)
      · rw [hfalse] at htrunc
        cases htrunc
    · exact h
  | created hfree hname hcreat =>
    rcases hN with hN | ⟨-, hfalse⟩
    · exact (h.create proc mode hN).bind (h.free_before hfree) _ _
    · rw [hfalse] at hcreat
      cases hcreat

/-- The descriptor returned by opening one of the names is a new one of theirs. -/
theorem openFile_owns (h : Frame N fs fs₁) {proc : Process} {name : CStr} {flags : OpenFlags}
    {mode : BitVec 32} {reply : Option ℕ} {fd : ℕ} (hN : N (collapse name))
    (hopen : fs₁.openFile proc name flags mode reply = some (fd, fs₂)) :
    ∃ file, Owns N fs fs₂ fd file ∧ file.offset = 0 ∧ fs₂.names (collapse name) = some file.ino := by
  obtain ⟨hfree, ino, hfile, hname⟩ := openFile_file hopen
  exact ⟨_, ⟨h.free_before hfree, hfile, (h.openFile (.inl hN) hopen).origin _ _ hN hname⟩, rfl, hname⟩

/-- Closing a descriptor that was not open. -/
theorem close (h : Frame N fs fs₁) {fd : ℕ} (hfree : fs.files fd = none) : Frame N fs (fs₁.close fd) where
  names := h.names
  inodes := h.inodes
  origin := h.origin
  files := by
    intro fd' file hfile
    have hne : fd' ≠ fd := by
      rintro rfl
      rw [hfree] at hfile
      cases hfile
    simp only [LocalFs.close, Function.update_of_ne hne]
    exact h.files fd' file hfile
  nextIno := h.nextIno

/-- Moving the offset of a descriptor that was not open. -/
theorem seek (h : Frame N fs fs₁) {fd : ℕ} (hfree : fs.files fd = none) (offset : ℕ) :
    Frame N fs (fs₁.seek fd offset) where
  names := h.names
  inodes := h.inodes
  origin := h.origin
  files := by
    intro fd' file hfile
    have hne : fd' ≠ fd := by
      rintro rfl
      rw [hfree] at hfile
      cases hfile
    simp only [LocalFs.seek, Function.update_of_ne hne]
    exact h.files fd' file hfile
  nextIno := h.nextIno

/-- Writing through a descriptor opened since on one of the names. -/
theorem append (h : Frame N fs fs₁) {fd : ℕ} {file : OpenFile} (hown : Owns N fs fs₁ fd file) (data : Bytes) :
    Frame N fs (fs₁.append fd data) := by
  unfold LocalFs.append
  rw [hown.isOpen]
  exact (h.setContent _ hown.origin).seek hown.unused _

/-- Removing one of the names. -/
theorem unlink (h : Frame N fs fs₁) {name : CStr} (reply : Bool) (hN : N (collapse name)) :
    Frame N fs (fs₁.unlink name reply) := by
  unfold LocalFs.unlink
  split
  · refine ⟨?_, h.inodes, ?_, h.files, h.nextIno⟩
    · intro other hother
      have hne : other ≠ collapse name := fun heq => hother (heq ▸ hN)
      simp only [forget, Function.update_of_ne hne]
      exact h.names other hother
    · intro other ino hother hname
      simp only [forget, Function.update_apply] at hname
      split at hname
      · cases hname
      · exact h.origin other ino hother hname
  · exact h

/-- Renaming one of the names to another of them. -/
theorem rename (h : Frame N fs fs₁) {old new : CStr} (hold : N (collapse old)) (hnew : N (collapse new)) :
    Frame N fs (fs₁.rename old new) := by
  unfold LocalFs.rename
  split
  · exact h
  · rename_i ino hino
    refine ⟨?_, h.inodes, ?_, h.files, h.nextIno⟩
    · intro other hother
      have hne : other ≠ collapse new := fun heq => hother (heq ▸ hnew)
      have hne' : other ≠ collapse old := fun heq => hother (heq ▸ hold)
      simp only [move, Function.update_of_ne hne, Function.update_of_ne hne']
      exact h.names other hother
    · intro other i hother hname
      simp only [move, Function.update_apply] at hname
      split at hname
      · obtain rfl := Option.some.inj hname
        exact h.origin _ _ hold hino
      · split at hname
        · cases hname
        · exact h.origin other i hother hname

/-- A name that is none of those changed has the content it had. -/
theorem contentAt (h : Frame N fs fs₁) {name : CStr} (hN : ¬ N (collapse name)) :
    fs₁.contentAt name = fs.contentAt name := by
  unfold LocalFs.contentAt LocalFs.resolve
  rw [h.names _ hN]
  cases hname : fs.names (collapse name) with
  | none => rfl
  | some ino =>
    have hother : ∀ other, N other → fs.names other ≠ some ino := by
      intro other hother hsame
      exact hN (fs.names_inj _ _ _ hsame hname ▸ hother)
    simp only [Option.map_some, h.inodes ino (fs.names_lt _ _ hname) hother]

/-- A descriptor open since stays one when other descriptors are closed. -/
theorem owns_close {fd other : ℕ} {file : OpenFile} (h : Owns N fs fs₁ fd file)
    (hne : fd ≠ other) : Owns N fs (fs₁.close other) fd file :=
  ⟨h.unused, by simp only [LocalFs.close, Function.update_of_ne hne]; exact h.isOpen, h.origin⟩

end Frame

/-- Opening a file leaves the open descriptors alone. -/
theorem openFile_files {fs fs' : LocalFs} {proc : Process} {name : CStr} {flags : OpenFlags}
    {mode : BitVec 32} {reply : Option ℕ} {fd other : ℕ} {file : OpenFile}
    (h : fs.openFile proc name flags mode reply = some (fd, fs')) (hfile : fs.files other = some file) :
    fs'.files other = some file :=
  ((Frame.refl (fun _ => True) fs).openFile (.inl trivial) h).files other file hfile

/-- A descriptor open since stays one when another is opened. -/
theorem Owns.openFile {N : CStr → Prop} {fs fs₁ fs₂ : LocalFs} {proc : Process} {name : CStr}
    {flags : OpenFlags} {mode : BitVec 32} {reply : Option ℕ} {fd other : ℕ} {file : OpenFile}
    (hown : Owns N fs fs₁ other file) (h : fs₁.openFile proc name flags mode reply = some (fd, fs₂)) :
    Owns N fs fs₂ other file :=
  ⟨hown.unused, openFile_files h hown.isOpen, hown.origin⟩

/-- What `fstat` reports of an open descriptor. -/
theorem fstat_eq_some {fs : LocalFs} {fd : ℤ} {reply : Option FileTimes} {st : Stat} :
    fs.fstat fd reply = some st ↔ ∃ file times, 0 ≤ fd ∧ fs.files fd.toNat = some file ∧ reply = some times ∧
      (fs.inodes file.ino).content.length ≤ offMax ∧
      st = ⟨sIfreg ||| (fs.inodes file.ino).mode, 1, (fs.inodes file.ino).uid, (fs.inodes file.ino).gid,
        (fs.inodes file.ino).content.length, times.atime, times.mtime, times.ctime⟩ := by
  unfold fstat
  by_cases hfd : fd < 0
  · simp [hfd, Int.not_le.mpr hfd]
  · have hnonneg : 0 ≤ fd := Int.not_lt.mp hfd
    cases fs.files fd.toNat with
    | none => simp [hfd]
    | some file =>
      cases reply with
      | none => simp [hfd]
      | some times => simp [hfd, hnonneg, eq_comm]

/-- `fstat` succeeds on a descriptor whose file is empty. -/
theorem fstat_empty {fs : LocalFs} {fd : ℤ} (times : FileTimes) (hfd : 0 ≤ fd)
    (h : fs.fdContent fd.toNat = some []) : ∃ st, fs.fstat fd (some times) = some st := by
  obtain ⟨file, hfile, hcontent⟩ := Option.map_eq_some_iff.mp h
  have hshort : (fs.inodes file.ino).content.length ≤ offMax := by
    rw [hcontent]
    exact Nat.zero_le _
  exact ⟨_, fstat_eq_some.mpr ⟨file, times, hfd, hfile, rfl, hshort, rfl⟩⟩

end Dropletfs.LocalFs
