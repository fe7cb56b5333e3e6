import Dropletfs.EntryFrame
import Dropletfs.Session

/-!
# The calls a request issues

Apart from a rename, a request issues at most one call that changes the store. What it is about
can be told from the request and the state before it.
-/

namespace Dropletfs

namespace World

/-- Changing an entry issues nothing. -/
theorem modify_trace (w : World) (addr : ℕ) (change : Pentry → Pentry) : (w.modify addr change).trace = w.trace := by
  unfold modify
  split <;> rfl

/-- Adding a path to the list of its directory issues nothing. -/
theorem fillDirent_trace (w : World) (path : CStr) (reply : Bool) : (w.fillDirent path reply).trace = w.trace := by
  unfold fillDirent
  split
  · rfl
  · exact modify_trace ..

/-- Taking a path out of the list of a directory issues nothing. -/
theorem removeDirentOf_trace (w : World) (dir : Option CStr) (path : CStr) (junk : Filetype) :
    (w.removeDirentOf dir path junk).trace = w.trace := by
  unfold removeDirentOf
  split
  · rfl
  · exact modify_trace ..

/-- Removing a path from the table issues nothing. -/
theorem remove_trace (w : World) (path : CStr) : (w.remove path).trace = w.trace := by
  unfold remove free
  split
  · rfl
  · split <;> rfl

end World

section Requests

variable {env : Env} {w : World}

/-- A lookup on an entry issues nothing that changes the store. -/
theorem getattrByPlaceholder_trace {addr : ℕ} {pe : Pentry} {path : CStr} {st : Stat} {replies : GetattrReplies}
    {looked : Lookup} (h : getattrByPlaceholder env w addr pe path st replies = .done looked) :
    looked.world.trace = w.trace := by
  unfold getattrByPlaceholder at h
  split at h
  · unfold getattrRemote at h
    split at h
    · obtain rfl := Exec.done.inj h
      rfl
    · split at h
      · cases h
      · simp only at h
        split at h <;> obtain rfl := Exec.done.inj h <;> rfl
  · unfold getattrLocal at h
    split at h
    · obtain rfl := Exec.done.inj h
      rfl
    · split at h <;> obtain rfl := Exec.done.inj h <;> rfl
  · unfold getattrUnset at h
    split at h
    · simp only at h
      split at h
      · obtain rfl := Exec.done.inj h
        rfl
      · split at h
        · obtain rfl := Exec.done.inj h
          exact World.fillDirent_trace ..
        · split at h
          · obtain rfl := Exec.done.inj h
            rfl
          · split at h
            · cases h
            · split at h
              · obtain rfl := Exec.done.inj h
                rfl
              · obtain rfl := Exec.done.inj h
                exact World.fillDirent_trace ..
    · obtain rfl := Exec.done.inj h
      rfl

/-- A lookup issues nothing that changes the store. -/
theorem dfsGetattr_trace {path : CStr} {replies : GetattrReplies} {looked : Lookup}
    (h : dfsGetattr env w path replies = .done looked) : looked.world.trace = w.trace := by
  have hentry : ∀ (w₁ : World) addr pe, getattrEntry env w₁ addr pe path replies = .done looked →
      looked.world.trace = w₁.trace := by
    intro w₁ addr pe hcall
    obtain ⟨looked₁, hinner, hdone⟩ := Exec.bind_eq_done.mp hcall
    obtain rfl := Exec.done.inj hdone
    exact (World.modify_trace ..).trans (getattrByPlaceholder_trace hinner)
  unfold dfsGetattr at h
  simp only at h
  split at h
  · obtain rfl := Exec.done.inj h
    rfl
  · split at h
    · split at h
      · cases h
      · exact hentry _ _ _ h
    · split at h
      · obtain rfl := Exec.done.inj h
        rfl
      · exact hentry (w.insert path _).2 _ _ h

/-- Opening a directory issues nothing that changes the store. -/
theorem dfsOpendir_trace (env : Env) (w : World) (path : CStr) (replies : OpendirReplies) :
    (dfsOpendir env w path replies).2.trace = w.trace := by
  unfold dfsOpendir
  simp only
  split
  · rfl
  · split
    · rfl
    · split <;> rfl

/-- Finding or making an entry issues nothing. -/
theorem findOrPopulate_trace {w' : World} {path : CStr} {replies : OpenReplies} {addr : ℕ}
    (h : findOrPopulate w path replies = some (addr, w')) : w'.trace = w.trace := by
  rcases findOrPopulate_cases h with ⟨-, rfl⟩ | ⟨-, -, rfl⟩ <;> rfl

/-- Opening a file issues nothing that changes the store. -/
theorem dfsOpen_trace {path : CStr} {flags : BitVec 32} {replies : OpenReplies} {opened : Opened}
    (h : dfsOpen env w path flags replies = .done opened) : opened.world.trace = w.trace := by
  cases dfsOpen_outcome h with
  | noEntry => rfl
  | lockFailed hfound =>
    have hsame := findOrPopulate_trace hfound.lookup
    exact hsame
  | failed hfound =>
    have hsame := findOrPopulate_trace hfound.lookup
    exact hsame
  | succeeded hfound =>
    have hsame := findOrPopulate_trace hfound.lookup
    exact hsame

/-- After the open, a create makes an object unless the path is excluded. -/
theorem createEntry_trace {addr : ℕ} {pe : Pentry} {path : CStr} {mode : BitVec 32} {exclude : Bool}
    {replies : CreateReplies} {created : Opened}
    (h : createEntry env w addr pe path mode exclude replies = .done created) :
    created.world.trace = w.trace ∨
      exclude = false ∧ created.world.trace = w.trace ++ [.mknod path] := by
  unfold createEntry at h
  simp only at h
  split at h
  · obtain rfl := Exec.done.inj h
    exact .inl rfl
  · split at h
    · obtain rfl := Exec.done.inj h
      exact .inl rfl
    · unfold createObject at h
      simp only at h
      split at h
      · cases h
      · split at h
        · obtain rfl := Exec.done.inj h
          exact .inl rfl
        · rename_i hexclude
          rw [Bool.not_eq_true] at hexclude
          obtain rfl := Exec.done.inj h
          exact .inr ⟨hexclude, rfl⟩

/-- A create makes an object unless the path is excluded. -/
theorem dfsCreate_trace {path : CStr} {mode flags : BitVec 32} {replies : CreateReplies} {created : Opened}
    (h : dfsCreate env w path mode flags replies = .done created) :
    created.world.trace = w.trace ∨
      reMatcher env.conf.regex path = false ∧ created.world.trace = w.trace ++ [.mknod path] := by
  cases dfsCreate_outcome h with
  | refused => exact .inl rfl
  | noEntry _ hopen =>
    have hopened := dfsOpen_trace hopen
    exact .inl hopened
  | entry _ hopen _ _ hentry =>
    rw [← dfsOpen_trace hopen]
    exact createEntry_trace hentry

/-- An upload opens the object for writing, if it gets that far. -/
theorem upload_trace {w' : World} {path : CStr} {fd : ℕ} {st : Stat} {replies : ReleaseReplies} {ok : Bool}
    (h : upload env w path fd st replies = .done (ok, w')) :
    w'.trace = w.trace ∨ ∃ size, w'.trace = w.trace ++ [.openwrite path env.conf.usesAes size] := by
  obtain ⟨packed, -, -, rfl⟩ := upload_eq_done h
  cases houtgoing : packed.outgoing with
  | none => exact .inl (by simp only [pushPacked, houtgoing])
  | some outgoing =>
    refine .inr ⟨outgoing.size, ?_⟩
    simp only [pushPacked, houtgoing]
    exact push_trace ..

/-- Removing a file issues the one call. -/
theorem dfsUnlink_trace (env : Env) (w : World) (path : CStr) (replies : UnlinkReplies) :
    (dfsUnlink env w path replies).2.trace = w.trace ++ [.unlink path] := by
  unfold dfsUnlink
  simp only
  split
  · rfl
  · split
    · rfl
    · rw [World.removeDirentOf_trace, World.remove_trace]
      rfl

/-- Removing a directory issues the one call. -/
theorem dfsRmdir_trace (env : Env) (w : World) (path : CStr) (replies : RmdirReplies) :
    (dfsRmdir env w path replies).2.trace = w.trace ++ [.rmdir path] := by
  unfold dfsRmdir
  simp only
  split
  · rfl
  · split
    · rfl
    · rw [World.removeDirentOf_trace]
      rfl

/-- Moving a file issues its copy, and then perhaps the removal of the old one. -/
theorem renameFile_trace (env : Env) (w : World) (old new : CStr) (replies : RenameReplies) :
    ∃ removed, (renameFile env w old new replies).2.trace =
        w.trace ++ ([.renameFile old new, .fcopy old new] ++ removed) ∧ (removed = [] ∨ removed = [.unlink old]) := by
  unfold renameFile
  simp only
  split
  · exact ⟨[], by simp [World.log], .inl rfl⟩
  · refine ⟨[.unlink old], ?_, .inr rfl⟩
    rw [dfsUnlink_trace, World.removeDirentOf_trace]
    simp [World.log]

/-- A visit of the collector issues nothing. -/
theorem gcCallback_trace {path : CStr} {replies : GcReplies} {w' : World}
    (h : gcCallback env w path replies = .done w') : w'.trace = w.trace := by
  cases gcCallback_outcome h with
  | untouched => rfl
  | kept => rfl
  | collected => exact World.remove_trace ..

end Requests

/-- The calls that a request other than a rename can issue in a state. -/
inductive Issues (env : Env) (s : Session) : Op → List Event → Prop
  | nothing {op : Op} : Issues env s op []
  | mkdir {path : CStr} {replies : ℕ → Reply} : Issues env s (.mkdir path replies) [.mkdir path]
  | mknod {path : CStr} {replies : ℕ → Reply} : Issues env s (.mknod path replies) [.mknod path]
  | create {path : CStr} {mode flags : BitVec 32} {replies : CreateReplies} :
      reMatcher env.conf.regex path = false → Issues env s (.create path mode flags replies) [.mknod path]
  | release {i : ℕ} {replies : ReleaseReplies} {handle : Handle} {pe : Pentry} {size : ℕ} :
      s.handles[i]? = some handle → s.world.heap handle.addr = some pe → isRdonly handle.flags = false →
      pe.exclude = false →
      Issues env s (.release i replies) [.openwrite handle.path env.conf.usesAes size]
  | unlink {path : CStr} {replies : UnlinkReplies} : Issues env s (.unlink path replies) [.unlink path]
  | rmdir {path : CStr} {replies : RmdirReplies} : Issues env s (.rmdir path replies) [.rmdir path]

/-- The request is a rename. -/
def Op.isRename : Op → Bool
  | .rename .. => true
  | _ => false

/-- A request other than a rename issues one of those. -/
theorem Session.step_issues {env : Env} {s s' : Session} {op : Op} (hop : op.isRename = false)
    (hstep : s.step env op = .done s') :
    ∃ issued, Issues env s op issued ∧ s'.world.trace = s.world.trace ++ issued := by
  have hnothing : s'.world.trace = s.world.trace →
      ∃ issued, Issues env s op issued ∧ s'.world.trace = s.world.trace ++ issued :=
    fun h => ⟨[], .nothing, by rw [h, List.append_nil]⟩
  cases op with
  | getattr path replies =>
    obtain ⟨looked, hcall, hdone⟩ := Exec.bind_eq_done.mp hstep
    obtain rfl := Exec.done.inj hdone
    exact hnothing (dfsGetattr_trace hcall)
  | opendir path replies =>
    obtain rfl := Exec.done.inj hstep
    exact hnothing (dfsOpendir_trace ..)
  | mkdir path replies =>
    obtain rfl := Exec.done.inj hstep
    exact ⟨_, .mkdir, rfl⟩
  | mknod path replies =>
    obtain rfl := Exec.done.inj hstep
    exact ⟨_, .mknod, rfl⟩
  | create path mode flags replies =>
    obtain ⟨created, hcall, hdone⟩ := Exec.bind_eq_done.mp hstep
    obtain rfl := Exec.done.inj hdone
    rcases dfsCreate_trace hcall with hsame | ⟨hmatcher, hmore⟩
    · exact hnothing hsame
    · exact ⟨_, .create hmatcher, hmore⟩
  | «open» path flags replies =>
    obtain ⟨opened, hcall, hdone⟩ := Exec.bind_eq_done.mp hstep
    obtain rfl := Exec.done.inj hdone
    exact hnothing (dfsOpen_trace hcall)
  | read i size offset replies =>
    simp only [Session.step] at hstep
    split at hstep
    · obtain rfl := Exec.done.inj hstep
      exact hnothing rfl
    · obtain ⟨_, -, hdone⟩ := Exec.bind_eq_done.mp hstep
      obtain rfl := Exec.done.inj hdone
      exact hnothing rfl
  | write i data offset replies =>
    simp only [Session.step] at hstep
    split at hstep
    · obtain rfl := Exec.done.inj hstep
      exact hnothing rfl
    · split at hstep
      · obtain rfl := Exec.done.inj hstep
        exact hnothing rfl
      · obtain ⟨⟨ret, w⟩, hcall, hdone⟩ := Exec.bind_eq_done.mp hstep
        obtain rfl := Exec.done.inj hdone
        obtain ⟨fs, hw⟩ := dfsWrite_frame hcall
        exact hnothing (by rw [hw])
  | release i replies =>
    simp only [Session.step] at hstep
    split at hstep
    · obtain rfl := Exec.done.inj hstep
      exact hnothing rfl
    · rename_i handle hget
      obtain ⟨released, hcall, hdone⟩ := Exec.bind_eq_done.mp hstep
      obtain rfl := Exec.done.inj hdone
      cases dfsRelease_outcome hcall with
      | unusable => exact hnothing rfl
      | readOnly => exact hnothing rfl
      | excluded => exact hnothing rfl
      | uploaded hheap _ _ hrdonly hexclude hupload =>
        rcases upload_trace hupload with hsame | ⟨size, hmore⟩
        · exact hnothing hsame
        · exact ⟨_, .release hget hheap hrdonly hexclude, hmore⟩
  | unlink path replies =>
    obtain rfl := Exec.done.inj hstep
    exact ⟨_, .unlink, dfsUnlink_trace ..⟩
  | rmdir path replies =>
    obtain rfl := Exec.done.inj hstep
    exact ⟨_, .rmdir, dfsRmdir_trace ..⟩
  | rename => cases hop
  | gc path replies =>
    obtain ⟨w, hcall, hdone⟩ := Exec.bind_eq_done.mp hstep
    obtain rfl := Exec.done.inj hdone
    exact hnothing (gcCallback_trace hcall)

end Dropletfs
