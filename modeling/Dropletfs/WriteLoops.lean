import Dropletfs.Transfer

/-!
# The loops that move bytes, pass by pass

Here `write_all` runs as it is written: a pointer into the buffer, a count of the bytes that
remain, and one result of `write` after another, of which there are infinitely many. What is in
the file and what remains of the buffer always make up the whole. The callback of a download runs
it on each chunk, and goes on with the results that are left.
-/

namespace Dropletfs

/-- `INT_MAX`. -/
def intMax : ℕ := 2 ^ 31 - 1

/-- `write_all` between two calls of `write`: the bytes of the descriptor, the pointer into the buffer, and the
count of the bytes that remain. -/
structure Writing where
  file : Bytes
  buf : ℕ
  remain : ℤ

/-- What `write(fd, buf, remain)` takes, when it takes up to a number of bytes. -/
def Writing.taken (w : Writing) (count : ℕ) : ℕ := min count (unsignedLong w.remain)

/-- The bytes appended, the pointer and the count moved on. -/
def Writing.advance (w : Writing) (chunk : Bytes) (count : ℕ) : Writing where
  file := w.file ++ (chunk.drop w.buf).take (w.taken count)
  buf := w.buf + w.taken count
  remain := w.remain - w.taken count

/-- The loop of `write_all`, from result number `i` on: the value returned, the number of the next result, and the
bytes of the descriptor. It may take more passes than it is given. -/
def writeAllFrom (results : ℕ → WriteResult) (chunk : Bytes) : (passes i : ℕ) → Writing → Option (ℤ × ℕ × Bytes)
  | 0, _, _ => none
  | passes + 1, i, w =>
    match results i with
    | .interrupted => writeAllFrom results chunk passes (i + 1) w
    | .failed => some (-1, i + 1, w.file)
    | .took count =>
      let w := w.advance chunk count
      if w.remain = 0 then some (0, i + 1, w.file) else writeAllFrom results chunk passes (i + 1) w

/-- `write_all(fd, buf, len)`, where `len` was converted to `int`. -/
def writeAllOf (results : ℕ → WriteResult) (passes i : ℕ) (chunk file : Bytes) : Option (ℤ × ℕ × Bytes) :=
  writeAllFrom results chunk passes i ⟨file, 0, Int.bmod chunk.length (2 ^ 32)⟩

/-- `cb_get_buffered` on one chunk after another, until it refuses one. -/
def cbGetBufferedFrom (results : ℕ → WriteResult) (passes : ℕ) : ℕ → List Bytes → Bytes → Option (List ℤ × ℕ × Bytes)
  | i, [], file => some ([], i, file)
  | i, chunk :: rest, file => do
    let (ret, i, file) ← writeAllOf results passes i chunk file
    if ret ≠ 0 then return ([-1], i, file)
    else
      let (rets, i, file) ← cbGetBufferedFrom results passes i rest file
      return (0 :: rets, i, file)

/-- What was written of a chunk and what remains of it make up the chunk, whose length is an `int`. -/
structure Writing.Splits (w : Writing) (chunk before : Bytes) : Prop where
  written : w.file = before ++ chunk.take w.buf
  remaining : (w.buf : ℤ) + w.remain = chunk.length
  inside : w.buf ≤ chunk.length
  small : chunk.length ≤ intMax

namespace Writing.Splits

variable {w : Writing} {chunk before : Bytes}

/-- At the start nothing was written. -/
theorem start (before : Bytes) (hsmall : chunk.length ≤ intMax) :
    Splits ⟨before, 0, Int.bmod chunk.length (2 ^ 32)⟩ chunk before where
  written := (List.append_nil _).symm
  remaining := by
    unfold intMax at hsmall
    have hlength : Int.bmod (chunk.length : ℤ) (2 ^ 32) = chunk.length :=
      Int.bmod_eq_of_le (by omega) (by omega)
    simp only [hlength]
    omega
  inside := Nat.zero_le _
  small := hsmall

/-- A write takes at most what remains. -/
theorem taken_eq (h : w.Splits chunk before) (count : ℕ) : w.taken count = min count (chunk.length - w.buf) := by
  have hremain := h.remaining
  have hinside := h.inside
  have hsmall := h.small
  unfold intMax at hsmall
  rw [taken, unsignedLong]
  omega

/-- It moves bytes from what remains to what was written. -/
theorem advance (h : w.Splits chunk before) (count : ℕ) : (w.advance chunk count).Splits chunk before where
  written := by
    rw [Writing.advance, h.written, List.append_assoc, ← List.take_add]
  remaining := by
    have hremain := h.remaining
    simp only [Writing.advance]
    push_cast
    omega
  inside := by
    have hinside := h.inside
    simp only [Writing.advance, h.taken_eq]
    omega
  small := h.small

/-- Some prefix of the chunk was written. -/
theorem isPrefix (h : w.Splits chunk before) : ∃ front, front <+: chunk ∧ w.file = before ++ front :=
  ⟨chunk.take w.buf, List.take_prefix .., h.written⟩

/-- When nothing remains, all of the chunk was written. -/
theorem all (h : w.Splits chunk before) (hremain : w.remain = 0) : w.file = before ++ chunk := by
  have hbuf : w.buf = chunk.length := by
    have hremaining := h.remaining
    omega
  rw [h.written, hbuf, List.take_length]

end Writing.Splits

/-- However the writes go, zero means that the whole chunk was appended, and -1 that a prefix of it was. -/
theorem writeAllFrom_spec (results : ℕ → WriteResult) {chunk before : Bytes} (passes i : ℕ) {w : Writing}
    (h : w.Splits chunk before) {ret : ℤ} {next : ℕ} {file : Bytes}
    (hrun : writeAllFrom results chunk passes i w = some (ret, next, file)) :
    (ret = 0 ∧ file = before ++ chunk) ∨ (ret = -1 ∧ ∃ front, front <+: chunk ∧ file = before ++ front) := by
  induction passes generalizing i w with
  | zero => cases hrun
  | succ passes ih =>
    rw [writeAllFrom] at hrun
    cases hresult : results i with
    | interrupted =>
      rw [hresult] at hrun
      exact ih (i + 1) h hrun
    | failed =>
      rw [hresult] at hrun
      simp only [Option.some.injEq, Prod.mk.injEq] at hrun
      obtain ⟨rfl, -, rfl⟩ := hrun
      exact .inr ⟨rfl, h.isPrefix⟩
    | took count =>
      rw [hresult] at hrun
      simp only at hrun
      by_cases hremain : (w.advance chunk count).remain = 0
      · rw [if_pos hremain] at hrun
        simp only [Option.some.injEq, Prod.mk.injEq] at hrun
        obtain ⟨rfl, -, rfl⟩ := hrun
        exact .inl ⟨rfl, (h.advance count).all hremain⟩
      · rw [if_neg hremain] at hrun
        exact ih (i + 1) (h.advance count) hrun

/-- A call of `write_all` appends its whole buffer or fails after a prefix of it. -/
theorem writeAllOf_spec (results : ℕ → WriteResult) {passes i next : ℕ} {chunk before file : Bytes} {ret : ℤ}
    (hsmall : chunk.length ≤ intMax) (hrun : writeAllOf results passes i chunk before = some (ret, next, file)) :
    (ret = 0 ∧ file = before ++ chunk) ∨ (ret = -1 ∧ ∃ front, front <+: chunk ∧ file = before ++ front) :=
  writeAllFrom_spec results passes i (.start before hsmall) hrun

/-- When every callback returns zero, the chunks were appended one after another. -/
theorem cbGetBufferedFrom_spec (results : ℕ → WriteResult) (passes : ℕ) {i next : ℕ} {pieces : List Bytes}
    {before file : Bytes} {rets : List ℤ} (hsmall : ∀ chunk ∈ pieces, chunk.length ≤ intMax)
    (hrun : cbGetBufferedFrom results passes i pieces before = some (rets, next, file))
    (hrets : ∀ ret ∈ rets, ret = 0) :
    file = before ++ pieces.flatten := by
  induction pieces generalizing i before rets with
  | nil =>
    simp only [cbGetBufferedFrom, Option.some.injEq, Prod.mk.injEq] at hrun
    rw [← hrun.2.2, List.flatten_nil, List.append_nil]
  | cons chunk pieces ih =>
    simp only [List.mem_cons, forall_eq_or_imp] at hsmall
    obtain ⟨hchunk, hpieces⟩ := hsmall
    rw [cbGetBufferedFrom, Option.bind_eq_bind, Option.bind_eq_some_iff] at hrun
    obtain ⟨⟨ret, i', file'⟩, hwrite, hrest⟩ := hrun
    simp only at hrest
    rcases writeAllOf_spec results hchunk hwrite with ⟨rfl, rfl⟩ | ⟨rfl, -⟩
    · rw [if_neg (by decide), Option.bind_eq_bind, Option.bind_eq_some_iff] at hrest
      obtain ⟨⟨rets', i'', file''⟩, hmore, hreturn⟩ := hrest
      simp only [Option.pure_def, Option.some.injEq, Prod.mk.injEq] at hreturn
      obtain ⟨rfl, rfl, rfl⟩ := hreturn
      rw [ih hpieces hmore fun ret hmem => hrets ret (List.mem_cons_of_mem _ hmem), List.flatten_cons,
        List.append_assoc]
    · rw [if_pos (by decide)] at hrest
      simp only [Option.pure_def, Option.some.injEq, Prod.mk.injEq] at hrest
      obtain ⟨rfl, -, -⟩ := hrest
      exact absurd (hrets (-1) List.mem_cons_self) (by decide)

/-- Nothing remains after a write exactly when it could take all that remained. -/
theorem Writing.Splits.advance_remain_eq_zero {w : Writing} {chunk before : Bytes} (h : w.Splits chunk before)
    (count : ℕ) : (w.advance chunk count).remain = 0 ↔ chunk.length - w.buf ≤ count := by
  have hremain := h.remaining
  have hinside := h.inside
  simp only [Writing.advance, h.taken_eq]
  omega

/-- `write_all` returns when its writes do not stop making progress: again and again one fails or takes something. -/
theorem writeAllFrom_returns (results : ℕ → WriteResult) {chunk before : Bytes}
    (hprogress : ∀ i, ∃ d, results (i + d) = .failed ∨ ∃ count, results (i + d) = .took (count + 1))
    (n d i : ℕ) {w : Writing} (h : w.Splits chunk before) (hn : chunk.length - w.buf ≤ n)
    (hd : results (i + d) = .failed ∨ ∃ count, results (i + d) = .took (count + 1)) :
    ∃ passes, (writeAllFrom results chunk passes i w).isSome = true := by
  -- the bytes that remain are fewer after a write that takes some, and the wait for one gets shorter before it
  induction n using Nat.strong_induction_on generalizing d i w with
  | _ n ihn =>
    induction d generalizing i w with
    | zero =>
      rcases hd with hfailed | ⟨count, htook⟩
      · rw [Nat.add_zero] at hfailed
        exact ⟨1, by rw [writeAllFrom, hfailed]; rfl⟩
      · rw [Nat.add_zero] at htook
        by_cases hremain : (w.advance chunk (count + 1)).remain = 0
        · refine ⟨1, ?_⟩
          rw [writeAllFrom, htook]
          simp only [hremain, if_true, Option.isSome_some]
        · have hmore := mt (h.advance_remain_eq_zero (count + 1)).mpr hremain
          have hless : chunk.length - (w.advance chunk (count + 1)).buf < n := by
            simp only [Writing.advance, h.taken_eq]
            omega
          obtain ⟨d', hd'⟩ := hprogress (i + 1)
          obtain ⟨passes, hpasses⟩ := ihn _ hless d' (i + 1) (h.advance _) le_rfl hd'
          refine ⟨passes + 1, ?_⟩
          rw [writeAllFrom, htook]
          simp only [if_neg hremain, hpasses]
    | succ d ihd =>
      have hnext : results (i + 1 + d) = .failed ∨ ∃ count, results (i + 1 + d) = .took (count + 1) := by
        rw [Nat.add_assoc, Nat.add_comm 1 d]
        exact hd
      cases hresult : results i with
      | interrupted =>
        obtain ⟨passes, hpasses⟩ := ihd (i + 1) h hn hnext
        exact ⟨passes + 1, by rw [writeAllFrom, hresult]; exact hpasses⟩
      | failed => exact ⟨1, by rw [writeAllFrom, hresult]; rfl⟩
      | took count =>
        by_cases hremain : (w.advance chunk count).remain = 0
        · refine ⟨1, ?_⟩
          rw [writeAllFrom, hresult]
          simp only [hremain, if_true, Option.isSome_some]
        · have hless : chunk.length - (w.advance chunk count).buf ≤ n := by
            simp only [Writing.advance]
            omega
          obtain ⟨passes, hpasses⟩ := ihd (i + 1) (h.advance count) hless hnext
          refine ⟨passes + 1, ?_⟩
          rw [writeAllFrom, hresult]
          simp only [if_neg hremain, hpasses]

/-- On some results followed by a complete write, the loop does what the download is modelled with. -/
theorem writeAllFrom_eq_writeAll (results : ℕ → WriteResult) {chunk before : Bytes} (listed : List WriteResult) (i : ℕ)
    {w : Writing} (h : w.Splits chunk before)
    (hresults : ∀ k, results (i + k) = (listed[k]?).getD (.took chunk.length)) :
    ∃ next, writeAllFrom results chunk (listed.length + 1) i w =
      some ((writeAll listed (chunk.drop w.buf)).1, next, w.file ++ (writeAll listed (chunk.drop w.buf)).2.1) := by
  induction listed generalizing i w with
  | nil =>
    have hlast : results i = .took chunk.length := hresults 0
    have htaken : (chunk.drop w.buf).take (w.taken chunk.length) = chunk.drop w.buf := by
      apply List.take_of_length_le
      rw [h.taken_eq, List.length_drop]
      omega
    refine ⟨i + 1, ?_⟩
    rw [writeAllFrom, hlast]
    simp only
    rw [if_pos ((h.advance_remain_eq_zero _).mpr (Nat.sub_le ..)), Writing.advance, htaken, writeAll]
  | cons result listed ih =>
    have hfirst : results i = result := hresults 0
    have hrest : ∀ k, results (i + 1 + k) = (listed[k]?).getD (.took chunk.length) := by
      intro k
      have hk := hresults (k + 1)
      rwa [List.getElem?_cons_succ, Nat.add_comm k 1, ← Nat.add_assoc] at hk
    rw [List.length_cons, writeAllFrom, hfirst]
    cases result with
    | interrupted => exact ih (i + 1) h hrest
    | failed => exact ⟨i + 1, by rw [writeAll, List.append_nil]⟩
    | took count =>
      have hinside := h.inside
      have hdone := h.advance_remain_eq_zero count
      rw [← List.length_drop] at hdone
      simp only [writeAll]
      by_cases hall : (chunk.drop w.buf).length ≤ count
      · have htaken : (chunk.drop w.buf).take (w.taken count) = chunk.drop w.buf := by
          apply List.take_of_length_le
          rw [h.taken_eq, ← List.length_drop]
          omega
        rw [if_pos (hdone.mpr hall), if_pos hall, Writing.advance, htaken]
        exact ⟨i + 1, rfl⟩
      · obtain ⟨next, hrun⟩ := ih (i + 1) (h.advance count) hrest
        have htaken : w.taken count = count := by
          rw [h.taken_eq, ← List.length_drop]
          omega
        refine ⟨next, ?_⟩
        rw [if_neg (mt hdone.mp hall), if_neg hall, hrun]
        simp only [Writing.advance, htaken, List.drop_drop, List.append_assoc]

/-- Nothing is lost or repeated: callbacks that all return zero appended the chunks in order, a failed `write_all`
appended a prefix of its buffer, and a transfer to the library that returns zero passed on what was unread. -/
theorem transfers_exact :
    (∀ (results : ℕ → WriteResult) (passes i next : ℕ) (pieces : List Bytes) (before file : Bytes) (rets : List ℤ),
      (∀ chunk ∈ pieces, chunk.length ≤ intMax) →
      cbGetBufferedFrom results passes i pieces before = some (rets, next, file) → (∀ ret ∈ rets, ret = 0) →
      file = before ++ pieces.flatten) ∧
    (∀ (results : ℕ → WriteResult) (passes i next : ℕ) (chunk before file : Bytes), chunk.length ≤ intMax →
      writeAllOf results passes i chunk before = some (-1, next, file) →
      ∃ front, front <+: chunk ∧ file = before ++ front) ∧
    ∀ (reads : ℕ → Option ℕ) (writes : ℕ → Status) (unread : Bytes), (readWriteAllVfile reads writes unread).ret = 0 →
      (readWriteAllVfile reads writes unread).sent = unread := by
  refine ⟨fun results passes i next pieces before file rets hsmall hrun hrets => ?_,
    fun results passes i next chunk before file hsmall hrun => ?_, fun reads writes unread hret => ?_⟩
  · exact cbGetBufferedFrom_spec results passes hsmall hrun hrets
  · rcases writeAllOf_spec results hsmall hrun with ⟨hret, -⟩ | ⟨-, hpart⟩
    · exact absurd hret (by decide)
    · exact hpart
  · exact readWriteAllVfile_sent reads writes unread (by rw [hret]; decide)

/-- A chunk of three bytes, of which the first write takes one, the next is interrupted and the last takes the rest. -/
theorem transfers_interrupted :
    cbGetBufferedFrom (fun i => if i = 0 then .took 1 else if i = 1 then .interrupted else .took 2) 3 0 [[1, 2, 3]] [] =
        some ([0], 3, [1, 2, 3]) ∧
      ([1, 2, 3] : Bytes) = [] ++ [[1, 2, 3]].flatten := by
  have hrun : cbGetBufferedFrom (fun i => if i = 0 then .took 1 else if i = 1 then .interrupted else .took 2) 3 0
      [[1, 2, 3]] [] = some ([0], 3, [1, 2, 3]) := by decide
  exact ⟨hrun, transfers_exact.1 _ 3 0 3 [[1, 2, 3]] [] _ [0] (by decide) hrun (by decide)⟩

end Dropletfs
