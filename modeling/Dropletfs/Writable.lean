import Dropletfs.WriteBack

/-!
# Write access of the shared descriptor

All handles of a path share the descriptor of its entry. It is opened with the access of
whichever open came first, and later opens that do not truncate keep it as it is.
-/

namespace Dropletfs

/-- The descriptor of the entry at an address is open with write access. -/
def World.WritableAt (w : World) (addr : ℕ) : Prop :=
  ∃ pe file, w.heap addr = some pe ∧ 0 ≤ pe.fd ∧ w.fs.files pe.fd.toNat = some file ∧ file.writable = true

/-- A write that the kernel is ready to take succeeds. -/
def World.TakesWrites (w : World) (addr : ℕ) : Prop :=
  ∀ data offset replies, replies.pwrite.isSome = true →
    ∃ ret w', dfsWrite w addr data offset replies = .done (ret, w') ∧ 0 ≤ ret

/-- An open of a path gets write access: it truncates the cache file, or the entry has no descriptor yet,
or one with write access. -/
def GetsWriteAccess (w : World) (path : CStr) (flags : BitVec 32) : Prop :=
  getModeFromFlags flags = .creat ∨
    ∀ pe, w.entry path = some pe → 0 ≤ pe.fd → ∃ file, w.fs.files pe.fd.toNat = some file ∧ file.writable = true

/-- A descriptor takes writes exactly when it has write access. -/
theorem World.Holds.takesWrites_iff {w : World} {addr : ℕ} {pe : Pentry} {file : OpenFile} {content : Bytes}
    (h : w.Holds addr pe file content) :
    (w.WritableAt addr ↔ file.writable = true) ∧ (w.TakesWrites addr ↔ file.writable = true) := by
  have hfd := h.fd
  constructor
  · constructor
    · rintro ⟨pe', file', hheap, -, hopen, hwritable⟩
      obtain rfl := Option.some.inj (hheap.symm.trans h.heap)
      obtain rfl := Option.some.inj (hopen.symm.trans h.isOpen)
      exact hwritable
    · exact fun hwritable => ⟨pe, file, h.heap, hfd, h.isOpen, hwritable⟩
  · constructor
    · intro htakes
      obtain ⟨ret, w', hwrite, hret⟩ := htakes [] 0 ⟨some 0, 1, Nat.one_pos⟩ rfl
      by_contra hreadonly
      rw [Bool.not_eq_true] at hreadonly
      simp [dfsWrite, h.heap, show ¬ pe.fd < 0 by omega, LocalFs.pwrite, h.isOpen, hreadonly] at hwrite
      omega
    · intro hwritable data offset replies hreply
      obtain ⟨count, hcount⟩ := Option.isSome_iff_exists.mp hreply
      simp [dfsWrite, h.heap, show ¬ pe.fd < 0 by omega, LocalFs.pwrite, h.isOpen, hcount, hwritable]

/-- After a successful open the descriptor has write access exactly when the open got it. -/
theorem dfsOpen_writable_iff {env : Env} {w : World} {path : CStr} {flags : BitVec 32} {replies : OpenReplies}
    {opened : Opened} {addr : ℕ} (hsound : w.Sound env) (hmode : getModeFromFlags flags ≠ .rdonly)
    (hopen : dfsOpen env w path flags replies = .done opened) (hret : opened.ret = 0)
    (hfh : opened.fh = some addr) :
    ∃ pe file content, opened.world.Holds addr pe file content ∧
      (file.writable = true ↔ GetsWriteAccess w path flags) := by
  cases dfsOpen_outcome hopen with
  | noEntry => simp at hret
  | lockFailed => simp at hret
  | failed => simp at hret
  | @succeeded _ w' before after fs ret hfound _ hcall hne =>
    obtain rfl : _ = addr := Option.some.inj hfh
    obtain ⟨hheld, -⟩ := before.held_fd replies.semPost (getModeFromFlags flags)
    have hrewound := (hsound.grown (findOrPopulate_grown hfound.lookup)).rewound _ _ hfound.heap
    have husable : (before.held replies.semPost (getModeFromFlags flags)).Usable := by
      rw [Pentry.Usable, hheld]
      exact hrewound.usable
    -- an entry that the table already had is the only one that can have a descriptor
    have hbefore : ∀ pe, w.entry path = some pe → 0 ≤ pe.fd → pe = before := by
      intro pe hentry hpos
      rcases findOrPopulate_cases hfound.lookup with ⟨htable, rfl⟩ | ⟨htable, -⟩
      · simp only [World.entry, htable, Option.bind_some, hfound.heap, Option.some.injEq] at hentry
        exact hentry.symm
      · simp [World.entry, htable] at hentry
    cases openByMode_outcome husable hcall with
    | failed => exact absurd rfl hne
    | kept hcreat hpos =>
      rw [hheld] at hpos
      obtain ⟨fd, file, hfd, hfile, hoffset⟩ := hrewound.resolve_left (by omega)
      refine ⟨_, file, _, World.holds_put _ (by simp only [hheld, hfd]) hfile hoffset rfl, ?_⟩
      rcases findOrPopulate_cases hfound.lookup with ⟨htable, rfl⟩ | ⟨-, rfl, rfl⟩
      · have hentry : w'.entry path = some before := by
          rw [World.entry, htable]
          exact hfound.heap
        constructor
        · intro hwritable
          refine .inr fun pe hpe hpos => ?_
          obtain rfl := hbefore pe hpe hpos
          exact ⟨file, by rw [hfd, Int.toNat_natCast]; exact hfile, hwritable⟩
        · rintro (hmode' | hall)
          · exact absurd hmode' hcreat
          · obtain ⟨file', hfile', hwritable⟩ := hall before hentry hpos
            rw [hfd, Int.toNat_natCast, hfile] at hfile'
            exact Option.some.inj hfile' ▸ hwritable
      · have hnew := hfound.heap
        simp only [World.insert, Function.update_self, Option.some.injEq] at hnew
        rw [← hnew] at hpos
        simp [pentryNew] at hpos
    | @fetched _ obj bytes fd metadata digest hcreat hnone _ _ _ _ hat =>
      rw [hheld] at hnone
      obtain ⟨ino, -, hfile, hcontent⟩ := hat
      refine ⟨_, _, bytes, World.holds_put _ rfl hfile rfl hcontent, ?_⟩
      simp only [hmode, ne_eq, not_false_eq_true, decide_true, true_iff]
      refine .inr fun pe hpe hpos => ?_
      obtain rfl := hbefore pe hpe hpos
      omega
    | created hcreat _ hnew =>
      obtain ⟨-, ino, hfile, -⟩ := LocalFs.openFile_file hnew
      refine ⟨_, _, _, World.holds_put _ rfl hfile rfl rfl, ?_⟩
      exact ⟨fun _ => .inl hcreat, fun _ => rfl⟩

/-- After a successful open for writing, the descriptor of the entry has write access, and writes through
the handle do not fail for lack of it, exactly when the open truncated the cache file or found no
descriptor without write access. -/
theorem opened_writable_iff (env : Env) (s : Session) (path : CStr) (flags : BitVec 32) (replies : OpenReplies)
    (opened : Opened) (addr : ℕ) (hreached : s.Reached env GuardedRuns.unguarded)
    (hwrite : flags &&& oAccmode = oWronly ∨ flags &&& oAccmode = oRdwr)
    (hopen : dfsOpen env s.world path flags replies = .done opened) (hret : opened.ret = 0)
    (hfh : opened.fh = some addr) :
    (opened.world.WritableAt addr ↔ GetsWriteAccess s.world path flags) ∧
      (opened.world.TakesWrites addr ↔ GetsWriteAccess s.world path flags) := by
  have hmode : getModeFromFlags flags ≠ .rdonly := by
    intro hmode
    obtain ⟨hrdonly, -⟩ := (getModeFromFlags_eq_rdonly flags).mp hmode
    rcases hwrite with h | h <;> rw [isRdonly, h] at hrdonly <;> cases hrdonly
  obtain ⟨pe, file, content, hholds, hiff⟩ := dfsOpen_writable_iff hreached.sound hmode hopen hret hfh
  obtain ⟨hat, htakes⟩ := hholds.takesWrites_iff
  exact ⟨hat.trans hiff, htakes.trans hiff⟩

/-- A file that was opened read-only and is then opened with `O_WRONLY|O_APPEND` cannot be written. -/
theorem opened_readonly_not_writable :
    ∃ (s : Session) (opened : Opened), s.Reached Env.plain GuardedRuns.unguarded ∧
      dfsOpen Env.plain s.world "/f".toList (oWronly ||| oAppend) (.granted 4) = .done opened ∧
      opened.ret = 0 ∧ opened.fh = some 0 ∧ ¬ opened.world.WritableAt 0 := by
  refine ⟨_, _, GuardedRuns.Reaches.step (s := .start .empty (.file "/f".toList [65]))
    (i := .open "/f".toList oRdonly (.granted 3)) (.start (Session.start_initial ..)) trivial rfl, rfl, rfl, rfl, ?_⟩
  rintro ⟨pe, file, hheap, -, hopen, hwritable⟩
  obtain rfl := Option.some.inj (hheap.symm.trans rfl)
  obtain rfl := Option.some.inj (hopen.symm.trans rfl)
  cases hwritable

/-- A file opened for the first time with `O_RDWR|O_APPEND` can be written. -/
theorem opened_first_writable :
    ∃ opened : Opened, opened.ret = 0 ∧
      (opened.world.WritableAt 0 ↔
        GetsWriteAccess (World.start .empty (.file "/f".toList [65])) "/f".toList (oRdwr ||| oAppend)) :=
  ⟨_, rfl, (opened_writable_iff Env.plain (.start .empty (.file "/f".toList [65])) "/f".toList (oRdwr ||| oAppend)
    (.granted 3) _ 0 (.start (Session.start_initial ..)) (.inr rfl) rfl rfl rfl).1⟩

end Dropletfs
