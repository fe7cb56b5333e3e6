import Dropletfs.CString
import Dropletfs.Library.Exec
import Dropletfs.Library.Streaming

/-!
# Compressing and decompressing files in chunks

`zip` and `unzip` drive the two zlib streams over a file in chunks of 16384 bytes. The
streams are a parameter. What the round trip needs of them, for the content at hand, is
the documented behaviour: a stream stops early only for lack of room, ends when all of its
input has been passed on and room is left, and inflating what deflating put out yields the
content.
-/

namespace Dropletfs

open Streaming (Call Answer Transformer Proper Responsive Settled consumed emitted drain)

/-- The return codes of zlib. -/
inductive ZRet where
  | ok
  | streamEnd
  | needDict
  | errno
  | streamError
  | dataError
  | memError
  | bufError
  | versionError
  deriving DecidableEq, Repr

/-- zlib: its two streams, and bounds on the output for a number of input bytes. -/
structure Zlib where
  deflateInit : ℤ → ZRet
  deflate : ℤ → Transformer UInt8 ZRet
  deflateBound : ℤ → ℕ → ℕ
  inflateInit : ZRet
  inflate : Transformer UInt8 ZRet
  inflateBound : ℕ → ℕ

/-- zlib as it behaves when it cannot get memory. -/
def Zlib.unavailable : Zlib where
  deflateInit _ := .memError
  deflate _ _ _ := ⟨.streamError, 0, []⟩
  deflateBound _ _ := 0
  inflateInit := .memError
  inflate _ _ := ⟨.streamError, 0, []⟩
  inflateBound _ := 0

/-- Which `fread` and which `fwrite` fails. -/
structure ZipIo where
  readFails : ℕ → Bool
  writeFails : ℕ → Bool

/-- No read and no write fails. -/
def ZipIo.clean : ZipIo := ⟨fun _ => false, fun _ => false⟩

/-- `CHUNK`. -/
def chunkSize : ℕ := 16384

/-- Why an inner loop is left before the output buffer has room: an error is returned, or an
assertion fails. -/
inductive ZStop where
  | failed (ret : ZRet)
  | aborted
  deriving DecidableEq, Repr

/-- After each call of `deflate`: its assertion, then the `fwrite` of the output. -/
def zipStop (io : ZipIo) (calls : List (Call UInt8)) (answer : Answer UInt8 ZRet) : Option ZStop :=
  if answer.code = .streamError then some .aborted
  else if io.writeFails calls.length then some (.failed .errno)
  else none

/-- The outer loop of `zip`, from chunk number `k` on. -/
def zipLoop (z : Zlib) (level : ℤ) (io : ZipIo) (rounds : ℕ) :
    ℕ → ℕ → Bytes → List (Call UInt8) → Exec (ZRet × Bytes)
  | 0, _, _, _ => .blocked
  | fuel + 1, k, source, calls =>
    if io.readFails k then .done (.errno, emitted (z.deflate level) calls)
    else
      let chunk := source.take chunkSize
      let eof : Bool := chunk.length < chunkSize
      match drain (z.deflate level) (zipStop io) chunkSize eof rounds calls chunk with
      | .running => .blocked
      | .stopped .aborted _ => .undefined
      | .stopped (.failed ret) calls => .done (ret, emitted (z.deflate level) calls)
      | .settled code calls rest =>
        if rest ≠ [] then .undefined
        else if eof then
          if code = .streamEnd then .done (.ok, emitted (z.deflate level) calls) else .undefined
        else zipLoop z level io rounds fuel (k + 1) (source.drop chunkSize) calls

/-- `zip`: the value returned and what was written to the destination. -/
def zip (z : Zlib) (level : ℤ) (source : Bytes) (io : ZipIo) : Exec (ZRet × Bytes) :=
  if z.deflateInit level ≠ .ok then .done (z.deflateInit level, [])
  else
    zipLoop z level io (z.deflateBound level source.length / chunkSize + 2) (source.length / chunkSize + 1)
      0 source []

/-- After each call of `inflate`: its assertion, the errors it returns, then the `fwrite`. -/
def unzipStop (io : ZipIo) (calls : List (Call UInt8)) (answer : Answer UInt8 ZRet) : Option ZStop :=
  match answer.code with
  | .streamError => some .aborted
  | .needDict => some (.failed .dataError)
  | .dataError => some (.failed .dataError)
  | .memError => some (.failed .memError)
  | _ => if io.writeFails calls.length then some (.failed .errno) else none

/-- The outer loop of `unzip`, from chunk number `k` on, `ret` being the last code of `inflate`. -/
def unzipLoop (z : Zlib) (io : ZipIo) (rounds : ℕ) :
    ℕ → ℕ → Bytes → List (Call UInt8) → ZRet → Exec (ZRet × Bytes)
  | 0, _, _, _, _ => .blocked
  | fuel + 1, k, source, calls, ret =>
    if io.readFails k then .done (.errno, emitted z.inflate calls)
    else
      let chunk := source.take chunkSize
      if chunk = [] then
        .done (if ret = .streamEnd then .ok else .dataError, emitted z.inflate calls)
      else
        match drain z.inflate (unzipStop io) chunkSize false rounds calls chunk with
        | .running => .blocked
        | .stopped .aborted _ => .undefined
        | .stopped (.failed ret) calls => .done (ret, emitted z.inflate calls)
        | .settled code calls _ =>
          if code = .streamEnd then .done (.ok, emitted z.inflate calls)
          else unzipLoop z io rounds fuel (k + 1) (source.drop chunkSize) calls code

/-- `unzip`: the value returned and what was written to the destination. -/
def unzip (z : Zlib) (source : Bytes) (io : ZipIo) : Exec (ZRet × Bytes) :=
  if z.inflateInit ≠ .ok then .done (z.inflateInit, [])
  else
    unzipLoop z io (z.inflateBound source.length / chunkSize + 2) (source.length / chunkSize + 2) 0 source []
      z.inflateInit

/-- Inflating the stream, in whatever portions, yields the content. -/
structure Zlib.Inflates (z : Zlib) (stream content : Bytes) : Prop where
  nonempty : stream ≠ []
  responsive : Responsive z.inflate stream (z.inflateBound stream.length)
  clean : ∀ calls c, Proper z.inflate stream (c :: calls) → unzipStop .clean calls (z.inflate calls c) = none
  ends : ∀ calls c, Proper z.inflate stream (c :: calls) → (z.inflate calls c).out.length < c.room →
    consumed z.inflate calls ++ c.input = stream → (z.inflate calls c).code = .streamEnd
  content_of_end : ∀ calls c, Proper z.inflate stream (c :: calls) →
    (z.inflate calls c).code = .streamEnd → emitted z.inflate (c :: calls) = content

/-- Deflating the content, in whatever portions, yields a stream that inflates to the content. -/
structure Zlib.Undoes (z : Zlib) (level : ℤ) (content : Bytes) : Prop where
  inflateInit : z.inflateInit = .ok
  responsive : Responsive (z.deflate level) content (z.deflateBound level content.length)
  clean : ∀ calls c, Proper (z.deflate level) content (c :: calls) →
    (z.deflate level calls c).code ≠ .streamError
  ends : ∀ calls c, Proper (z.deflate level) content (c :: calls) → c.finish = true →
    (z.deflate level calls c).out.length < c.room → (z.deflate level calls c).code = .streamEnd
  inflates : ∀ calls c, Proper (z.deflate level) content (c :: calls) → c.finish = true →
    (z.deflate level calls c).code = .streamEnd →
    z.Inflates (emitted (z.deflate level) (c :: calls)) content

/-- A file shorter than a chunk is read whole. -/
theorem take_chunk_of_short (source : Bytes) (h : (source.take chunkSize).length < chunkSize) :
    source.take chunkSize = source := by
  apply List.take_of_length_le
  rw [List.length_take] at h
  omega

/-- One full chunk less is left to read. -/
theorem length_drop_chunk (source : Bytes) (h : ¬ (source.take chunkSize).length < chunkSize) :
    (source.drop chunkSize).length / chunkSize + 1 = source.length / chunkSize := by
  rw [List.length_take] at h
  rw [List.length_drop]
  have hle : chunkSize ≤ source.length := by omega
  have hpos : 0 < chunkSize := by decide
  rw [Nat.div_eq_sub_div hpos hle]

/-- From any point, `zip` goes on to emit a complete stream of the whole content. -/
theorem zipLoop_ends (z : Zlib) (level : ℤ) (content : Bytes) (io : ZipIo) (hz : z.Undoes level content)
    (hread : ∀ i, io.readFails i = false) (hwrite : ∀ i, io.writeFails i = false) (rounds : ℕ)
    (hrounds : z.deflateBound level content.length < rounds * chunkSize)
    (fuel k : ℕ) (source : Bytes) (calls : List (Call UInt8)) (hfuel : source.length / chunkSize < fuel)
    (hproper : Proper (z.deflate level) content calls)
    (hsource : consumed (z.deflate level) calls ++ source = content)
    (hopen : ∀ d ∈ calls, d.finish = false) :
    ∃ c prev, Proper (z.deflate level) content (c :: prev) ∧ c.finish = true ∧
      (z.deflate level prev c).code = .streamEnd ∧
      zipLoop z level io rounds fuel k source calls =
        .done (.ok, emitted (z.deflate level) (c :: prev)) := by
  induction fuel generalizing k source calls with
  | zero => exact absurd hfuel (Nat.not_lt_zero _)
  | succ fuel ih =>
    have hstop : ∀ calls c, Proper (z.deflate level) content (c :: calls) →
        zipStop io calls (z.deflate level calls c) = none := by
      intro calls c hc
      simp only [zipStop, hz.clean calls c hc, hwrite, if_false, Bool.false_eq_true]
    have hstart : consumed (z.deflate level) calls ++ source.take chunkSize <+: content := by
      rw [← hsource]
      exact (List.prefix_append_right_inj _).mpr (List.take_prefix _ _)
    by_cases heof : (source.take chunkSize).length < chunkSize
    · have hwhole := take_chunk_of_short source heof
      obtain ⟨code, calls', hdrain, hsettled⟩ := Streaming.drain_settles (z.deflate level) (zipStop io)
        content _ chunkSize true hz.responsive (by decide) hstop rounds calls (source.take chunkSize) hproper
        hstart (fun _ => by rw [hwhole, hsource]) (fun _ _ _ => rfl) (by omega)
      obtain ⟨c, prev, rfl, rfl, hroom, hfin, hcroom, -⟩ := hsettled.last
      have hend := hz.ends prev c hsettled.proper hfin (by rw [hcroom]; exact hroom)
      refine ⟨c, prev, hsettled.proper, hfin, hend, ?_⟩
      simp only [zipLoop, hread, heof, decide_true, hdrain, hend, Bool.false_eq_true, if_false, if_true,
        ne_eq, not_true_eq_false]
    · obtain ⟨code, calls', hdrain, hsettled⟩ := Streaming.drain_settles (z.deflate level) (zipStop io)
        content _ chunkSize false hz.responsive (by decide) hstop rounds calls (source.take chunkSize) hproper
        hstart (fun h => by simp at h) (fun d hd h => by rw [hopen d hd] at h; exact h) (by omega)
      have hdiv := length_drop_chunk source heof
      obtain ⟨c, prev, hc, hfin, hend, hloop⟩ := ih (k + 1) (source.drop chunkSize) calls' (by omega)
        hsettled.proper (by rw [hsettled.consumed_eq, List.append_assoc, List.take_append_drop, hsource])
        (fun d hd => by
          rcases hsettled.marks d hd with hbefore | hmark
          · exact hopen d hbefore
          · exact hmark)
      refine ⟨c, prev, hc, hfin, hend, ?_⟩
      simp only [zipLoop, hread, heof, decide_false, hdrain, Bool.false_eq_true, if_false, ne_eq,
        not_true_eq_false]
      exact hloop

/-- From any point, `unzip` goes on to write the whole content. -/
theorem unzipLoop_ends (z : Zlib) (stream content : Bytes) (io : ZipIo) (hz : z.Inflates stream content)
    (hread : ∀ i, io.readFails i = false) (hwrite : ∀ i, io.writeFails i = false) (rounds : ℕ)
    (hrounds : z.inflateBound stream.length < rounds * chunkSize)
    (fuel k : ℕ) (source : Bytes) (calls : List (Call UInt8)) (ret : ZRet)
    (hfuel : source.length / chunkSize < fuel) (hproper : Proper z.inflate stream calls)
    (hsource : consumed z.inflate calls ++ source = stream) (hopen : ∀ d ∈ calls, d.finish = false)
    (hleft : source ≠ []) :
    unzipLoop z io rounds fuel k source calls ret = .done (.ok, content) := by
  induction fuel generalizing k source calls ret with
  | zero => exact absurd hfuel (Nat.not_lt_zero _)
  | succ fuel ih =>
    have hstop : ∀ calls c, Proper z.inflate stream (c :: calls) →
        unzipStop io calls (z.inflate calls c) = none := by
      intro calls c hc
      have hclean := hz.clean calls c hc
      unfold unzipStop at hclean ⊢
      cases hcode : (z.inflate calls c).code <;> simp [hcode, hwrite, ZipIo.clean] at hclean ⊢
    have hstart : consumed z.inflate calls ++ source.take chunkSize <+: stream := by
      rw [← hsource]
      exact (List.prefix_append_right_inj _).mpr (List.take_prefix _ _)
    have hchunk : source.take chunkSize ≠ [] := by
      cases source with
      | nil => exact absurd rfl hleft
      | cons b rest => simp [chunkSize]
    obtain ⟨code, calls', hdrain, hsettled⟩ := Streaming.drain_settles z.inflate (unzipStop io) stream _
      chunkSize false hz.responsive (by decide) hstop rounds calls (source.take chunkSize) hproper hstart
      (fun h => by simp at h) (fun d hd h => by rw [hopen d hd] at h; exact h) (by omega)
    obtain ⟨c, prev, rfl, rfl, hroom, -, hcroom, hupto⟩ := hsettled.last
    by_cases hend : (z.inflate prev c).code = .streamEnd
    · have hcontent := hz.content_of_end prev c hsettled.proper hend
      simp only [unzipLoop, hread, hchunk, hdrain, hend, hcontent, Bool.false_eq_true, if_false, if_true]
    · have hmore : source.drop chunkSize ≠ [] := by
        intro hnil
        apply hend
        apply hz.ends prev c hsettled.proper (by rw [hcroom]; exact hroom)
        rw [hupto, ← hsource]
        conv_rhs => rw [← List.take_append_drop chunkSize source, hnil, List.append_nil]
      have hfull : ¬ (source.take chunkSize).length < chunkSize := by
        intro hshort
        apply hmore
        rw [← take_chunk_of_short source hshort, List.drop_take]
        simp
      have hdiv := length_drop_chunk source hfull
      simp only [unzipLoop, hread, hchunk, hdrain, hend, Bool.false_eq_true, if_false]
      exact ih (k + 1) (source.drop chunkSize) _ _ (by omega) hsettled.proper
        (by rw [hsettled.consumed_eq, List.append_assoc, List.take_append_drop, hsource])
        (fun d hd => by
          rcases hsettled.marks d hd with hbefore | hmark
          · exact hopen d hbefore
          · exact hmark) hmore

/-- Fuel for the inner loop that a bound on the output cannot exhaust. -/
theorem lt_rounds_mul_chunk (bound : ℕ) : bound < (bound / chunkSize + 2) * chunkSize := by
  have hmod := Nat.mod_lt bound (show chunkSize > 0 by decide)
  have hdiv := Nat.div_add_mod bound chunkSize
  rw [Nat.add_mul, Nat.mul_comm]
  omega

/-- Compressing succeeds, with a stream that inflates to the content. -/
theorem zip_inflates (z : Zlib) (level : ℤ) (content : Bytes) (io : ZipIo) (hz : z.Undoes level content)
    (hinit : z.deflateInit level = .ok) (hread : ∀ i, io.readFails i = false)
    (hwrite : ∀ i, io.writeFails i = false) :
    ∃ stream, zip z level content io = .done (.ok, stream) ∧ z.Inflates stream content := by
  obtain ⟨c, prev, hc, hfin, hend, hloop⟩ := zipLoop_ends z level content io hz hread hwrite
    (z.deflateBound level content.length / chunkSize + 2) (lt_rounds_mul_chunk _)
    (content.length / chunkSize + 1) 0 content [] (Nat.lt_succ_self _) .nil rfl (by simp)
  refine ⟨emitted (z.deflate level) (c :: prev), ?_, hz.inflates prev c hc hfin hend⟩
  simpa only [zip, hinit, ne_eq, not_true_eq_false, if_false] using hloop

/-- Decompressing a stream that inflates to the content gives the content. -/
theorem unzip_inflates {z : Zlib} {stream content : Bytes} {io : ZipIo} (hz : z.Inflates stream content)
    (hinit : z.inflateInit = .ok) (hread : ∀ i, io.readFails i = false)
    (hwrite : ∀ i, io.writeFails i = false) :
    unzip z stream io = .done (.ok, content) := by
  simp only [unzip, hinit, ne_eq, not_true_eq_false, if_false]
  exact unzipLoop_ends z _ content io hz hread hwrite _ (lt_rounds_mul_chunk _) _ 0 _ [] _ (by omega) .nil rfl
    (by simp) hz.nonempty

/-- Compressing succeeds, and decompressing the result gives the content back. -/
theorem zip_unzip (z : Zlib) (level : ℤ) (content : Bytes) (io : ZipIo) (hz : z.Undoes level content)
    (hinit : z.deflateInit level = .ok) (hread : ∀ i, io.readFails i = false)
    (hwrite : ∀ i, io.writeFails i = false) :
    ∃ stream, zip z level content io = .done (.ok, stream) ∧
      ∀ io' : ZipIo, (∀ i, io'.readFails i = false) → (∀ i, io'.writeFails i = false) →
        unzip z stream io' = .done (.ok, content) := by
  obtain ⟨stream, hzip, hinflates⟩ := zip_inflates z level content io hz hinit hread hwrite
  exact ⟨stream, hzip, fun io' hread' hwrite' => unzip_inflates hinflates hz.inflateInit hread' hwrite'⟩

/-- Giving up for an `fwrite` is the only way the results of the calls matter to `unzip`. -/
theorem unzipStop_clean (io : ZipIo) (calls : List (Call UInt8)) (answer : Answer UInt8 ZRet)
    (h : unzipStop io calls answer = none) : unzipStop .clean calls answer = none := by
  unfold unzipStop at h ⊢
  cases hcode : answer.code <;> simp [hcode, ZipIo.clean] at h ⊢

/-- An inner loop that gives up makes `unzip` return an error. -/
theorem unzipStop_failed (io : ZipIo) (calls : List (Call UInt8)) (answer : Answer UInt8 ZRet) (ret : ZRet)
    (h : unzipStop io calls answer = some (.failed ret)) : ret ≠ .ok := by
  rintro rfl
  unfold unzipStop at h
  cases hcode : answer.code <;> simp [hcode] at h

/-- A decompression that returns `Z_OK` does what one without any failing call does. -/
theorem unzipLoop_clean (z : Zlib) (io : ZipIo) (rounds fuel k : ℕ) (source : Bytes)
    (calls : List (Call UInt8)) (ret : ZRet) (out : Bytes)
    (h : unzipLoop z io rounds fuel k source calls ret = .done (.ok, out)) :
    unzipLoop z .clean rounds fuel k source calls ret = .done (.ok, out) := by
  induction fuel generalizing k source calls ret with
  | zero => simp [unzipLoop] at h
  | succ fuel ih =>
    simp only [unzipLoop] at h ⊢
    cases hread : io.readFails k with
    | true => simp [hread] at h
    | false =>
      simp only [hread, ZipIo.clean, Bool.false_eq_true, if_false] at h ⊢
      by_cases hchunk : source.take chunkSize = []
      · simpa only [hchunk, if_true] using h
      · simp only [hchunk, if_false] at h ⊢
        cases hdrain : drain z.inflate (unzipStop io) chunkSize false rounds calls (source.take chunkSize) with
        | running => simp [hdrain] at h
        | stopped reason calls' =>
          obtain ⟨before, answer, hreason⟩ := Streaming.drain_stopped _ _ _ _ _ _ _ hdrain
          cases reason with
          | aborted => simp [hdrain] at h
          | failed code =>
            have hcode := unzipStop_failed io before answer code hreason
            simp [hdrain, hcode] at h
        | settled code calls' rest =>
          have hsame := Streaming.drain_settled_mono z.inflate (unzipStop_clean io) chunkSize false rounds
            calls (source.take chunkSize) hdrain
          rw [hdrain] at h
          rw [show unzipStop ⟨fun _ => false, fun _ => false⟩ = unzipStop .clean from rfl, hsame]
          simp only at h ⊢
          split at h
          · rename_i hend
            rwa [if_pos hend]
          · rename_i hend
            rw [if_neg hend]
            exact ih _ _ _ _ h

/-- Giving up for an `fwrite` is the only way the results of the calls matter to `zip`. -/
theorem zipStop_clean (io : ZipIo) (calls : List (Call UInt8)) (answer : Answer UInt8 ZRet)
    (h : zipStop io calls answer = none) : zipStop .clean calls answer = none := by
  unfold zipStop at h ⊢
  split at h
  · cases h
  · rename_i hcode
    rw [if_neg hcode]
    rfl

/-- An inner loop that gives up makes `zip` return an error. -/
theorem zipStop_failed (io : ZipIo) (calls : List (Call UInt8)) (answer : Answer UInt8 ZRet) (ret : ZRet)
    (h : zipStop io calls answer = some (.failed ret)) : ret ≠ .ok := by
  rintro rfl
  unfold zipStop at h
  split at h
  · cases h
  · split at h
    · cases h
    · cases h

/-- A compression that returns `Z_OK` does what one without any failing call does. -/
theorem zipLoop_clean (z : Zlib) (level : ℤ) (io : ZipIo) (rounds fuel k : ℕ) (source : Bytes)
    (calls : List (Call UInt8)) (out : Bytes)
    (h : zipLoop z level io rounds fuel k source calls = .done (.ok, out)) :
    zipLoop z level .clean rounds fuel k source calls = .done (.ok, out) := by
  induction fuel generalizing k source calls with
  | zero => simp [zipLoop] at h
  | succ fuel ih =>
    simp only [zipLoop] at h ⊢
    cases hread : io.readFails k with
    | true => simp [hread] at h
    | false =>
      simp only [hread, ZipIo.clean, Bool.false_eq_true, if_false] at h ⊢
      cases hdrain : drain (z.deflate level) (zipStop io) chunkSize
          (decide ((source.take chunkSize).length < chunkSize)) rounds calls (source.take chunkSize) with
      | running =>
        rw [hdrain] at h
        cases h
      | stopped reason calls' =>
        obtain ⟨before, answer, hreason⟩ := Streaming.drain_stopped _ _ _ _ _ _ _ hdrain
        rw [hdrain] at h
        cases reason with
        | aborted => cases h
        | failed code =>
          have hcode := zipStop_failed io before answer code hreason
          simp [hcode] at h
      | settled code calls' rest =>
        have hsame := Streaming.drain_settled_mono (z.deflate level) (zipStop_clean io) chunkSize _ rounds calls
          (source.take chunkSize) hdrain
        rw [hdrain] at h
        rw [show zipStop ⟨fun _ => false, fun _ => false⟩ = zipStop .clean from rfl, hsame]
        simp only at h ⊢
        split at h
        · cases h
        · rename_i hrest
          rw [if_neg hrest]
          split at h
          · rename_i heof
            rw [if_pos heof]
            exact h
          · rename_i heof
            rw [if_neg heof]
            exact ih _ _ _ h

/-- What `zip` returns with `Z_OK` it returns when no call fails. -/
theorem zip_clean {z : Zlib} {level : ℤ} {content out : Bytes} {io : ZipIo}
    (h : zip z level content io = .done (.ok, out)) : zip z level content .clean = .done (.ok, out) := by
  unfold zip at h ⊢
  split at h
  · rename_i hinit
    simp only [Exec.done.injEq, Prod.mk.injEq] at h
    exact absurd h.1 hinit
  · rename_i hinit
    rw [if_neg hinit]
    exact zipLoop_clean _ _ _ _ _ _ _ _ _ h

/-- `zip` returns `Z_OK` only after `deflateInit` did. -/
theorem zip_ok_init {z : Zlib} {level : ℤ} {content out : Bytes} {io : ZipIo}
    (h : zip z level content io = .done (.ok, out)) : z.deflateInit level = .ok := by
  by_contra hfailed
  rw [zip, if_pos hfailed] at h
  simp only [Exec.done.injEq, Prod.mk.injEq] at h
  exact hfailed h.1

/-- The stream that `zip` makes inflates to the content. -/
theorem zip_ok_inflates {z : Zlib} {level : ℤ} {content out : Bytes} {io : ZipIo} (hz : z.Undoes level content)
    (h : zip z level content io = .done (.ok, out)) : z.Inflates out content := by
  obtain ⟨stream, hstream, hinflates⟩ :=
    zip_inflates z level content .clean hz (zip_ok_init h) (fun _ => rfl) fun _ => rfl
  rw [zip_clean h] at hstream
  simp only [Exec.done.injEq, Prod.mk.injEq, true_and] at hstream
  rwa [hstream]

/-- The end of a stream is reported only once all of it was consumed. -/
def Zlib.Whole (z : Zlib) (stream : Bytes) : Prop :=
  ∀ calls c, Proper z.inflate stream (c :: calls) → (z.inflate calls c).code = .streamEnd →
    consumed z.inflate (c :: calls) = stream

/-- From any point before the end of a stream, `unzip` does not succeed on a part of the stream. -/
theorem unzipLoop_short {z : Zlib} {stream content part : Bytes} {io : ZipIo} (hz : z.Inflates stream content)
    (hwhole : z.Whole stream) (hpart : part <+: stream) (hshort : part ≠ stream) (rounds fuel k : ℕ)
    (source : Bytes) (calls : List (Call UInt8)) (ret : ZRet) (hproper : Proper z.inflate stream calls)
    (hsource : consumed z.inflate calls ++ source = part) (hopen : ∀ d ∈ calls, d.finish = false)
    (hret : ret ≠ .streamEnd) (out : Bytes) :
    unzipLoop z io rounds fuel k source calls ret ≠ .done (.ok, out) := by
  induction fuel generalizing k source calls ret with
  | zero => simp [unzipLoop]
  | succ fuel ih =>
    intro h
    simp only [unzipLoop] at h
    by_cases hread : io.readFails k = true
    · simp [hread] at h
    · rw [if_neg hread] at h
      by_cases hchunk : source.take chunkSize = []
      · simp [hchunk, hret] at h
      · have hstart : consumed z.inflate calls ++ source.take chunkSize <+: part := by
          rw [← hsource]
          exact (List.prefix_append_right_inj _).mpr (List.take_prefix _ _)
        cases hdrain : drain z.inflate (unzipStop io) chunkSize false rounds calls (source.take chunkSize) with
        | running => simp [hchunk, hdrain] at h
        | stopped reason calls' =>
          obtain ⟨before, answer, hreason⟩ := Streaming.drain_stopped _ _ _ _ _ _ _ hdrain
          cases reason with
          | aborted => simp [hchunk, hdrain] at h
          | failed code =>
            have hcode := unzipStop_failed io before answer code hreason
            simp [hchunk, hdrain, hcode] at h
        | settled code calls' rest =>
          obtain ⟨-, hsettled⟩ := Streaming.drain_settled z.inflate (unzipStop io) stream _ chunkSize false
            hz.responsive (by decide) rounds calls (source.take chunkSize) hproper (hstart.trans hpart)
            (fun h => by simp at h) (fun d hd h => by rw [hopen d hd] at h; exact h) hdrain
          have hcode : code ≠ .streamEnd := by
            obtain ⟨c, prev, rfl, rfl, -⟩ := hsettled.last
            intro hend
            have hall := hwhole prev c hsettled.proper hend
            rw [hsettled.consumed_eq] at hall
            exact hshort (hpart.eq_of_length (Nat.le_antisymm hpart.length_le (hall ▸ hstart.length_le)))
          simp only [hchunk, hdrain, hcode, if_false] at h
          refine ih (k + 1) (source.drop chunkSize) calls' code hsettled.proper ?_ ?_ hcode h
          · rw [hsettled.consumed_eq, List.append_assoc, List.take_append_drop, hsource]
          · intro d hd
            rcases hsettled.marks d hd with hbefore | hmark
            · exact hopen d hbefore
            · exact hmark

/-- What comes before the end of a stream cannot be decompressed. -/
theorem unzip_short {z : Zlib} {stream content part : Bytes} {io : ZipIo} (hz : z.Inflates stream content)
    (hwhole : z.Whole stream) (hpart : part <+: stream) (hshort : part ≠ stream) (out : Bytes) :
    unzip z part io ≠ .done (.ok, out) := by
  intro h
  unfold unzip at h
  split at h
  · rename_i hinit
    simp only [Exec.done.injEq, Prod.mk.injEq] at h
    exact hinit h.1
  · rename_i hinit
    simp only [ne_eq, not_not] at hinit
    have hret : z.inflateInit ≠ .streamEnd := by
      rw [hinit]
      decide
    exact unzipLoop_short hz hwhole hpart hshort _ _ _ part [] _ .nil rfl (by simp) hret out h

/-- The stream zlib makes of an empty file at level 3. -/
def emptyStream : Bytes := [0x78, 0x5e, 0x03, 0x00, 0x00, 0x00, 0x00, 0x01]

/-- The stream zlib makes of the one letter `A` at level 3. -/
def letterStream : Bytes := [0x78, 0x5e, 0x73, 0x04, 0x00, 0x00, 0x42, 0x00, 0x42]

/-- The room that finishing calls have given for output. -/
def roomGiven (calls : List (Call UInt8)) : ℕ :=
  (calls.map fun c => if c.finish then c.room else 0).sum

/-- The input that calls have offered. -/
def inputOffered (calls : List (Call UInt8)) : ℕ := (calls.map fun c => c.input.length).sum

/-- The room for output that calls have given since a stream of this length was offered whole. -/
def roomOnceWhole (length : ℕ) : List (Call UInt8) → ℕ
  | [] => 0
  | c :: calls => roomOnceWhole length calls + if length ≤ inputOffered (c :: calls) then c.room else 0

/-- zlib as it acts on one short file and on the stream of that file: the output comes when all of the input
is there. -/
def Zlib.onFile (content stream : Bytes) : Zlib where
  deflateInit _ := .ok
  deflate _ calls c :=
    if c.finish then
      let rest := stream.drop (roomGiven calls)
      ⟨if rest.length ≤ c.room then .streamEnd else .ok, c.input.length, rest.take c.room⟩
    else ⟨.ok, c.input.length, []⟩
  deflateBound _ _ := stream.length
  inflateInit := .ok
  inflate calls c :=
    if stream.length ≤ inputOffered (c :: calls) then
      let rest := content.drop (roomOnceWhole stream.length calls)
      ⟨if rest.length ≤ c.room then .streamEnd else .ok, c.input.length, rest.take c.room⟩
    else ⟨.ok, c.input.length, []⟩
  inflateBound _ := content.length

namespace Zlib

variable {content stream : Bytes}

/-- What `deflate` has put out. -/
theorem onFile_emitted (level : ℤ) (calls : List (Call UInt8)) :
    emitted ((onFile content stream).deflate level) calls = stream.take (roomGiven calls) := by
  induction calls with
  | nil => rfl
  | cons c calls ih =>
    rw [emitted, ih]
    cases hfin : c.finish with
    | false => simp [onFile, roomGiven, hfin]
    | true =>
      simp only [onFile, hfin, if_true]
      rw [show roomGiven (c :: calls) = roomGiven calls + c.room by simp [roomGiven, hfin, Nat.add_comm], List.take_add]

/-- What `inflate` has put out. -/
theorem onFile_emitted_inflate (calls : List (Call UInt8)) :
    emitted (onFile content stream).inflate calls = content.take (roomOnceWhole stream.length calls) := by
  induction calls with
  | nil => rfl
  | cons c calls ih =>
    rw [emitted, ih, roomOnceWhole]
    by_cases hall : stream.length ≤ inputOffered (c :: calls)
    · simp only [onFile, hall, if_true]
      rw [List.take_add]
    · simp only [onFile, hall, if_false, Nat.add_zero, List.append_nil]

/-- Every call of `inflate` consumes its input. -/
theorem onFile_consumes (calls : List (Call UInt8)) (c : Call UInt8) :
    ((onFile content stream).inflate calls c).consumed = c.input.length := by
  simp only [onFile]
  split <;> rfl

/-- What `inflate` has consumed. -/
theorem onFile_consumed (calls : List (Call UInt8)) :
    (consumed (onFile content stream).inflate calls).length = inputOffered calls := by
  induction calls with
  | nil => rfl
  | cons c calls ih =>
    rw [consumed, onFile_consumes, List.take_length, List.length_append, ih]
    simp [inputOffered, Nat.add_comm]

/-- The end of the stream is reported only when all of it was offered and what is left of the content fits. -/
theorem onFile_ended {calls : List (Call UInt8)} {c : Call UInt8}
    (h : ((onFile content stream).inflate calls c).code = .streamEnd) :
    stream.length ≤ inputOffered (c :: calls) ∧
      (content.drop (roomOnceWhole stream.length calls)).length ≤ c.room := by
  by_cases hall : stream.length ≤ inputOffered (c :: calls)
  · refine ⟨hall, ?_⟩
    by_contra hless
    simp only [onFile, hall, hless, if_true, if_false] at h
    cases h
  · simp only [onFile, hall, if_false] at h
    cases h

/-- The stream inflates to the file. -/
theorem onFile_inflates (h : stream ≠ []) : (onFile content stream).Inflates stream content where
  nonempty := h
  responsive :=
    { consumed_le := fun calls c _ => (onFile_consumes calls c).le
      out_le := by
        intro calls c _
        simp only [onFile]
        split
        · exact List.length_take_le _ _
        · exact Nat.zero_le _
      absorbs := fun calls c _ _ => onFile_consumes calls c
      bounded := by
        intro calls _
        rw [onFile_emitted_inflate]
        exact List.length_take_le' _ _ }
  clean := by
    intro calls c _
    simp only [onFile]
    split
    · split <;> simp [unzipStop, ZipIo.clean]
    · simp [unzipStop, ZipIo.clean]
  ends := by
    intro calls c _ hroom hall
    have hlength := congrArg List.length hall
    rw [List.length_append, onFile_consumed] at hlength
    have hoffered : stream.length ≤ inputOffered (c :: calls) := by
      have hsum : inputOffered (c :: calls) = c.input.length + inputOffered calls := rfl
      omega
    simp only [onFile, hoffered, if_true, List.length_take] at hroom ⊢
    rw [if_pos (by omega)]
  content_of_end := by
    intro calls c _ hend
    obtain ⟨hoffered, hfits⟩ := onFile_ended hend
    rw [onFile_emitted_inflate]
    apply List.take_of_length_le
    rw [roomOnceWhole, if_pos hoffered]
    rw [List.length_drop] at hfits
    omega

/-- Its end is reported when all of the stream was consumed. -/
theorem onFile_whole : (onFile content stream).Whole stream := by
  intro calls c hproper hend
  obtain ⟨hoffered, -⟩ := onFile_ended hend
  cases hproper with
  | cons _ hstart =>
    have hconsumed : consumed (onFile content stream).inflate (c :: calls) =
        consumed (onFile content stream).inflate calls ++ c.input := by
      rw [consumed, onFile_consumes, List.take_length]
    rw [hconsumed]
    apply hstart.eq_of_length_le
    rw [← hconsumed, onFile_consumed]
    exact hoffered

/-- Deflating the file yields that stream. -/
theorem onFile_undoes (level : ℤ) (h : stream ≠ []) : (onFile content stream).Undoes level content where
  inflateInit := rfl
  responsive :=
    { consumed_le := by
        intro calls c _
        simp only [onFile]
        split <;> exact Nat.le_refl _
      out_le := by
        intro calls c _
        simp only [onFile]
        split
        · exact List.length_take_le _ _
        · exact Nat.zero_le _
      absorbs := by
        intro calls c _ _
        simp only [onFile]
        split <;> rfl
      bounded := by
        intro calls _
        rw [onFile_emitted]
        exact List.length_take_le' _ _ }
  clean := by
    intro calls c _
    simp only [onFile]
    split
    · simp only
      split <;> simp
    · simp
  ends := by
    intro calls c _ hfin hroom
    simp only [onFile, hfin, if_true, List.length_take] at hroom ⊢
    rw [if_pos (by omega)]
  inflates := by
    intro calls c _ hfin hend
    have hall : emitted ((onFile content stream).deflate level) (c :: calls) = stream := by
      rw [onFile_emitted]
      apply List.take_of_length_le
      simp only [onFile, hfin, if_true, List.length_drop] at hend
      have hle : stream.length - roomGiven calls ≤ c.room := by
        by_contra hnot
        simp [hnot] at hend
      have hgiven : roomGiven (c :: calls) = roomGiven calls + c.room := by
        simp [roomGiven, hfin, Nat.add_comm]
      omega
    rw [hall]
    exact onFile_inflates h

end Zlib
end Dropletfs
