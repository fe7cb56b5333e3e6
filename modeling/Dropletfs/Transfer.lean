import Dropletfs.Remote

/-!
# Moving bytes between descriptors and the library

`write_all` repeats short and interrupted writes, `cb_get_buffered` hands each chunk of a
download to it, and `read_write_all_vfile` sends a file from the current offset of its
descriptor to its end in blocks. The results of the system calls are inputs.
-/

namespace Dropletfs

/-- `WRITE_BLOCK_SIZE`. -/
def writeBlockSize : ℕ := 1000 * 1000

/-- The result of one `write` call. -/
inductive WriteResult where
  | interrupted
  | failed
  | took (count : ℕ)
  deriving DecidableEq, Repr

/-- `write_all`: the value returned, the bytes that reached the descriptor, and the results left
over. When the results run out, the remaining write is complete. -/
def writeAll : List WriteResult → Bytes → ℤ × Bytes × List WriteResult
  | [], buf => (0, buf, [])
  | .interrupted :: results, buf => writeAll results buf
  | .failed :: results, _ => (-1, [], results)
  | .took count :: results, buf =>
    if buf.length ≤ count then (0, buf, results)
    else
      let next := writeAll results (buf.drop count)
      (next.1, buf.take count ++ next.2.1, next.2.2)

/-- What of a buffered output reaches its file: all of it, or what came before an error. -/
def flushed (reply : Option ℕ) (out : Bytes) : Bytes :=
  match reply with
  | none => out
  | some count => out.take count

/-- The chunks in which the library passes on a content. -/
def chunks : List ℕ → Bytes → List Bytes
  | [], rest => [rest]
  | size :: sizes, rest => rest.take size :: chunks sizes (rest.drop size)

/-- `cb_get_buffered` on each chunk until one is refused: whether none was, and the bytes that
reached the descriptor. -/
def cbGetBuffered : List WriteResult → List Bytes → Bool × Bytes
  | _, [] => (true, [])
  | results, chunk :: rest =>
    let written := writeAll results chunk
    if written.1 = 0 then
      let next := cbGetBuffered written.2.2 rest
      (next.1, written.2.1 ++ next.2)
    else (false, written.2.1)

/-- What `read_write_all_vfile` returns, has sent, and has left unread. -/
structure Sent where
  ret : ℤ
  sent : Bytes
  unread : Bytes

/-- The loop of `read_write_all_vfile`. Read number `i` fails or asks for a number of bytes, of
which at least one is delivered before the end of the file and at most a block. -/
def sendBlocks (reads : ℕ → Option ℕ) (writes : ℕ → Status) : (fuel i : ℕ) → (unread sent : Bytes) → Sent
  | 0, _, unread, sent => ⟨-1, sent, unread⟩
  | fuel + 1, i, unread, sent =>
    match reads i with
    | none => ⟨-1, sent, unread⟩
    | some count =>
      if unread = [] then ⟨0, sent, []⟩
      else
        let size := max 1 (min count writeBlockSize)
        if writes i = .success then
          sendBlocks reads writes fuel (i + 1) (unread.drop size) (sent ++ unread.take size)
        else ⟨-1, sent, unread.drop size⟩

/-- `read_write_all_vfile` on a descriptor with the given bytes left to read. -/
def readWriteAllVfile (reads : ℕ → Option ℕ) (writes : ℕ → Status) (unread : Bytes) : Sent :=
  sendBlocks reads writes (unread.length + 1) 0 unread []

/-- The chunks make up the content. -/
theorem chunks_flatten (sizes : List ℕ) (content : Bytes) : (chunks sizes content).flatten = content := by
  induction sizes generalizing content with
  | nil => simp [chunks]
  | cons size sizes ih => simp [chunks, ih]

/-- `write_all` returns zero only when the whole buffer was written. -/
theorem writeAll_eq_zero (results : List WriteResult) (buf : Bytes) (h : (writeAll results buf).1 = 0) :
    (writeAll results buf).2.1 = buf := by
  induction results generalizing buf with
  | nil => rfl
  | cons result results ih =>
    cases result with
    | interrupted => exact ih buf h
    | failed => simp [writeAll] at h
    | took count =>
      by_cases hfits : buf.length ≤ count
      · simp [writeAll, hfits]
      · simp only [writeAll, hfits, if_false] at h ⊢
        rw [ih _ h, List.take_append_drop]

/-- When no chunk is refused, the bytes written are those of the chunks. -/
theorem cbGetBuffered_eq_flatten (results : List WriteResult) (pieces : List Bytes)
    (h : (cbGetBuffered results pieces).1 = true) : (cbGetBuffered results pieces).2 = pieces.flatten := by
  induction pieces generalizing results with
  | nil => simp [cbGetBuffered]
  | cons chunk rest ih =>
    simp only [cbGetBuffered] at h ⊢
    by_cases hzero : (writeAll results chunk).1 = 0
    · simp only [hzero, if_true] at h ⊢
      rw [ih _ h, writeAll_eq_zero _ _ hzero, List.flatten_cons]
    · simp [hzero] at h

/-- `write_all` returns zero when no write fails, and none of the results left over is a failure. -/
theorem writeAll_of_no_failure (results : List WriteResult) (buf : Bytes) (h : .failed ∉ results) :
    (writeAll results buf).1 = 0 ∧ .failed ∉ (writeAll results buf).2.2 := by
  induction results generalizing buf with
  | nil => exact ⟨rfl, h⟩
  | cons result results ih =>
    simp only [List.mem_cons, not_or] at h
    obtain ⟨hresult, hresults⟩ := h
    cases result with
    | interrupted => exact ih buf hresults
    | failed => exact absurd rfl hresult
    | took count =>
      by_cases hfits : buf.length ≤ count
      · simpa only [writeAll, hfits, if_true, true_and] using hresults
      · simpa only [writeAll, hfits, if_false] using ih (buf.drop count) hresults

/-- When no write fails, no chunk is refused. -/
theorem cbGetBuffered_of_no_failure (results : List WriteResult) (pieces : List Bytes)
    (h : .failed ∉ results) : (cbGetBuffered results pieces).1 = true := by
  induction pieces generalizing results with
  | nil => simp [cbGetBuffered]
  | cons chunk rest ih =>
    obtain ⟨hzero, hleft⟩ := writeAll_of_no_failure results chunk h
    simp only [cbGetBuffered, hzero, if_true]
    exact ih _ hleft

/-- The loop returns zero or -1. -/
theorem sendBlocks_ret_cases (reads : ℕ → Option ℕ) (writes : ℕ → Status) (fuel i : ℕ) (unread sent : Bytes) :
    (sendBlocks reads writes fuel i unread sent).ret = 0 ∨
      (sendBlocks reads writes fuel i unread sent).ret = -1 := by
  induction fuel generalizing i unread sent with
  | zero => exact .inr rfl
  | succ fuel ih =>
    unfold sendBlocks
    split
    · exact .inr rfl
    · split
      · exact .inl rfl
      · simp only
        split
        · exact ih _ _ _
        · exact .inr rfl

/-- Nothing becomes unread again. -/
theorem sendBlocks_unread_le (reads : ℕ → Option ℕ) (writes : ℕ → Status) (fuel i : ℕ) (unread sent : Bytes) :
    (sendBlocks reads writes fuel i unread sent).unread.length ≤ unread.length := by
  induction fuel generalizing i unread sent with
  | zero => exact le_rfl
  | succ fuel ih =>
    have hdrop : ∀ size, (unread.drop size).length ≤ unread.length := fun size => by
      rw [List.length_drop]
      exact Nat.sub_le ..
    unfold sendBlocks
    split
    · exact le_rfl
    · split
      · exact Nat.zero_le _
      · simp only
        split
        · exact (ih _ _ _).trans (hdrop _)
        · exact hdrop _

/-- What has been sent is what had been sent, and then the front of what was unread. -/
theorem sendBlocks_sent (reads : ℕ → Option ℕ) (writes : ℕ → Status) (fuel i : ℕ) (unread sent : Bytes)
    (h : (sendBlocks reads writes fuel i unread sent).ret = 0) :
    (sendBlocks reads writes fuel i unread sent).sent = sent ++ unread ∧
      (sendBlocks reads writes fuel i unread sent).unread = [] := by
  induction fuel generalizing i unread sent with
  | zero => simp [sendBlocks] at h
  | succ fuel ih =>
    unfold sendBlocks at h ⊢
    cases hread : reads i with
    | none => simp [hread] at h
    | some count =>
      simp only [hread] at h ⊢
      by_cases hend : unread = []
      · simp [hend]
      · simp only [hend, if_false] at h ⊢
        by_cases hwrite : writes i = .success
        · simp only [hwrite, if_true] at h ⊢
          obtain ⟨hsent, hunread⟩ := ih _ _ _ h
          exact ⟨by rw [hsent, List.append_assoc, List.take_append_drop], hunread⟩
        · simp [hwrite] at h

/-- The loop returns zero when every read and every write succeeds. -/
theorem sendBlocks_ret (reads : ℕ → Option ℕ) (writes : ℕ → Status) (fuel i : ℕ) (unread sent : Bytes)
    (hfuel : unread.length < fuel) (hreads : ∀ j, (reads j).isSome) (hwrites : ∀ j, writes j = .success) :
    (sendBlocks reads writes fuel i unread sent).ret = 0 := by
  induction fuel generalizing i unread sent with
  | zero => omega
  | succ fuel ih =>
    unfold sendBlocks
    obtain ⟨count, hcount⟩ := Option.isSome_iff_exists.mp (hreads i)
    simp only [hcount, hwrites i, if_true]
    split
    · rfl
    · rename_i hend
      apply ih
      have hpos := List.length_pos_iff.mpr hend
      rw [List.length_drop]
      omega

/-- A transfer that does not fail has sent everything that was unread. -/
theorem readWriteAllVfile_sent (reads : ℕ → Option ℕ) (writes : ℕ → Status) (unread : Bytes)
    (h : (readWriteAllVfile reads writes unread).ret ≠ -1) :
    (readWriteAllVfile reads writes unread).sent = unread := by
  have hret := (sendBlocks_ret_cases reads writes (unread.length + 1) 0 unread []).resolve_right h
  simpa [readWriteAllVfile] using (sendBlocks_sent reads writes _ _ _ _ hret).1

/-- A transfer whose reads and writes all succeed returns zero. -/
theorem readWriteAllVfile_ret (reads : ℕ → Option ℕ) (writes : ℕ → Status) (unread : Bytes)
    (hreads : ∀ j, (reads j).isSome) (hwrites : ∀ j, writes j = .success) :
    (readWriteAllVfile reads writes unread).ret = 0 :=
  sendBlocks_ret reads writes _ _ _ _ (Nat.lt_succ_self _) hreads hwrites

end Dropletfs
