import Mathlib.Data.List.Basic

/-!
# Streams driven through bounded buffers

A streaming transformer is called with some input and some room for output. It reports how
much of the input it consumed and what it put out. Its answers may depend on all earlier
calls. A driver that keeps calling until the output buffer is not filled has passed on the
whole input, provided the transformer stops early only for lack of room and its total
output is bounded.
-/

namespace Streaming

variable {α ρ ε : Type*}

/-- One call: the input offered, whether it is the last, and the room for output. -/
structure Call (α : Type*) where
  input : List α
  finish : Bool
  room : ℕ

/-- The answer to a call: a code, how much input was consumed, and the output. -/
structure Answer (α ρ : Type*) where
  code : ρ
  consumed : ℕ
  out : List α

/-- A transformer: its answer to a call, given the calls before it, most recent first. -/
abbrev Transformer (α ρ : Type*) := List (Call α) → Call α → Answer α ρ

/-- All the input consumed by the calls. -/
def consumed (s : Transformer α ρ) : List (Call α) → List α
  | [] => []
  | c :: calls => consumed s calls ++ c.input.take (s calls c).consumed

/-- All the output of the calls. -/
def emitted (s : Transformer α ρ) : List (Call α) → List α
  | [] => []
  | c :: calls => emitted s calls ++ (s calls c).out

/-- Calls that offer the content in order, with room for output, and announce its end only with
the rest of it. -/
inductive Proper (s : Transformer α ρ) (content : List α) : List (Call α) → Prop
  | nil : Proper s content []
  | cons {calls : List (Call α)} {c : Call α} : Proper s content calls →
      consumed s calls ++ c.input <+: content →
      (c.finish = true → consumed s calls ++ c.input = content) → 0 < c.room →
      (∀ d ∈ calls, d.finish = true → c.finish = true) → Proper s content (c :: calls)

/-- On the content, the transformer stops early only for lack of room, and its output is bounded. -/
structure Responsive (s : Transformer α ρ) (content : List α) (bound : ℕ) : Prop where
  consumed_le : ∀ calls c, Proper s content (c :: calls) → (s calls c).consumed ≤ c.input.length
  out_le : ∀ calls c, Proper s content (c :: calls) → (s calls c).out.length ≤ c.room
  absorbs : ∀ calls c, Proper s content (c :: calls) → (s calls c).out.length < c.room →
    (s calls c).consumed = c.input.length
  bounded : ∀ calls, Proper s content calls → (emitted s calls).length ≤ bound

/-- How the driver ends: it is stopped, or the output buffer is not filled, or it runs on. -/
inductive Drained (α ρ ε : Type*) where
  | stopped (reason : ε) (calls : List (Call α))
  | settled (code : ρ) (calls : List (Call α)) (rest : List α)
  | running

/-- Call until the output buffer is not filled, or `stop` asks to give up after a call. -/
def drain (s : Transformer α ρ) (stop : List (Call α) → Answer α ρ → Option ε) (room : ℕ) (finish : Bool) :
    ℕ → List (Call α) → List α → Drained α ρ ε
  | 0, _, _ => .running
  | fuel + 1, calls, input =>
    let c : Call α := ⟨input, finish, room⟩
    let answer := s calls c
    match stop calls answer with
    | some reason => .stopped reason calls
    | none =>
      if answer.out.length = room then
        drain s stop room finish fuel (c :: calls) (input.drop answer.consumed)
      else .settled answer.code (c :: calls) (input.drop answer.consumed)

/-- The driver settled with the last of these calls, which consumed all its input. -/
structure Settled (s : Transformer α ρ) (content : List α) (room : ℕ) (finish : Bool) (before : List (Call α))
    (upTo : List α) (code : ρ) (calls : List (Call α)) : Prop where
  proper : Proper s content calls
  consumed_eq : consumed s calls = upTo
  marks : ∀ d ∈ calls, d ∈ before ∨ d.finish = finish
  last : ∃ c prev, calls = c :: prev ∧ code = (s prev c).code ∧ (s prev c).out.length < room ∧
    c.finish = finish ∧ c.room = room ∧ consumed s prev ++ c.input = upTo

/-- What is consumed of the input offered, and the rest that is offered next. -/
theorem consumed_append_drop (s : Transformer α ρ) (calls : List (Call α)) (c : Call α) :
    consumed s (c :: calls) ++ c.input.drop (s calls c).consumed = consumed s calls ++ c.input := by
  rw [consumed, List.append_assoc, List.take_append_drop]

/-- A driver that settles has passed on all of its input. -/
theorem drain_settled (s : Transformer α ρ) (stop : List (Call α) → Answer α ρ → Option ε) (content : List α)
    (bound room : ℕ) (finish : Bool) (hs : Responsive s content bound) (hroom : 0 < room)
    (fuel : ℕ) (calls : List (Call α)) (input : List α) (hproper : Proper s content calls)
    (hinput : consumed s calls ++ input <+: content)
    (hfinish : finish = true → consumed s calls ++ input = content)
    (hmono : ∀ d ∈ calls, d.finish = true → finish = true) {code : ρ} {calls' : List (Call α)}
    {rest : List α} (h : drain s stop room finish fuel calls input = .settled code calls' rest) :
    rest = [] ∧ Settled s content room finish calls (consumed s calls ++ input) code calls' := by
  induction fuel generalizing calls input with
  | zero => simp [drain] at h
  | succ fuel ih =>
    let c : Call α := ⟨input, finish, room⟩
    have hnext : Proper s content (c :: calls) := .cons hproper hinput hfinish hroom hmono
    simp only [drain] at h
    cases hstop : stop calls (s calls ⟨input, finish, room⟩) with
    | some reason => simp [hstop] at h
    | none =>
      simp only [hstop] at h
      split at h
      · have hstep := consumed_append_drop s calls c
        obtain ⟨hrest, hsettled⟩ := ih (c :: calls) (input.drop (s calls c).consumed) hnext
          (by rw [hstep]; exact hinput) (fun h => by rw [hstep]; exact hfinish h)
          (by
            intro d hd hdfin
            rcases List.mem_cons.mp hd with rfl | hd
            · exact hdfin
            · exact hmono d hd hdfin) h
        rw [hstep] at hsettled
        refine ⟨hrest, hsettled.proper, hsettled.consumed_eq, ?_, hsettled.last⟩
        intro d hd
        rcases hsettled.marks d hd with hbefore | hmark
        · rcases List.mem_cons.mp hbefore with rfl | hbefore
          · exact Or.inr rfl
          · exact Or.inl hbefore
        · exact Or.inr hmark
      · rename_i hfull
        have hlt : (s calls c).out.length < room := Nat.lt_of_le_of_ne (hs.out_le calls c hnext) hfull
        have hall : (s calls c).consumed = input.length := hs.absorbs calls c hnext hlt
        simp only [Drained.settled.injEq] at h
        obtain ⟨rfl, rfl, rfl⟩ := h
        refine ⟨by rw [hall, List.drop_length], hnext, by rw [consumed, hall, List.take_length], ?_, c, calls,
          rfl, rfl, hlt, rfl, rfl, rfl⟩
        intro d hd
        rcases List.mem_cons.mp hd with rfl | hd
        · exact Or.inr rfl
        · exact Or.inl hd

/-- A driver with enough fuel that is never stopped settles. -/
theorem drain_ends (s : Transformer α ρ) (stop : List (Call α) → Answer α ρ → Option ε) (content : List α)
    (bound room : ℕ) (finish : Bool) (hs : Responsive s content bound) (hroom : 0 < room)
    (hstop : ∀ calls c, Proper s content (c :: calls) → stop calls (s calls c) = none)
    (fuel : ℕ) (calls : List (Call α)) (input : List α) (hproper : Proper s content calls)
    (hinput : consumed s calls ++ input <+: content)
    (hfinish : finish = true → consumed s calls ++ input = content)
    (hmono : ∀ d ∈ calls, d.finish = true → finish = true)
    (hfuel : bound < (emitted s calls).length + fuel * room) :
    ∃ code calls' rest, drain s stop room finish fuel calls input = .settled code calls' rest := by
  induction fuel generalizing calls input with
  | zero =>
    have hle := hs.bounded calls hproper
    omega
  | succ fuel ih =>
    let c : Call α := ⟨input, finish, room⟩
    have hnext : Proper s content (c :: calls) := .cons hproper hinput hfinish hroom hmono
    have hnone : stop calls (s calls c) = none := hstop calls c hnext
    by_cases hfull : (s calls c).out.length = room
    · have hstep := consumed_append_drop s calls c
      obtain ⟨code, calls', rest, hdrain⟩ := ih (c :: calls) (input.drop (s calls c).consumed) hnext
        (by rw [hstep]; exact hinput) (fun h => by rw [hstep]; exact hfinish h)
        (by
          intro d hd hdfin
          rcases List.mem_cons.mp hd with rfl | hd
          · exact hdfin
          · exact hmono d hd hdfin)
        (by
          rw [emitted, List.length_append, hfull]
          rw [Nat.succ_mul] at hfuel
          omega)
      refine ⟨code, calls', rest, ?_⟩
      simpa only [drain, c, hnone, hfull, if_true] using hdrain
    · refine ⟨(s calls c).code, c :: calls, input.drop (s calls c).consumed, ?_⟩
      simp only [drain, c] at hnone hfull ⊢
      simp only [hnone, hfull, if_false]

/-- A driver with enough fuel that is never stopped passes on all of its input. -/
theorem drain_settles (s : Transformer α ρ) (stop : List (Call α) → Answer α ρ → Option ε) (content : List α)
    (bound room : ℕ) (finish : Bool) (hs : Responsive s content bound) (hroom : 0 < room)
    (hstop : ∀ calls c, Proper s content (c :: calls) → stop calls (s calls c) = none)
    (fuel : ℕ) (calls : List (Call α)) (input : List α) (hproper : Proper s content calls)
    (hinput : consumed s calls ++ input <+: content)
    (hfinish : finish = true → consumed s calls ++ input = content)
    (hmono : ∀ d ∈ calls, d.finish = true → finish = true)
    (hfuel : bound < (emitted s calls).length + fuel * room) :
    ∃ code calls', drain s stop room finish fuel calls input = .settled code calls' [] ∧
      Settled s content room finish calls (consumed s calls ++ input) code calls' := by
  obtain ⟨code, calls', rest, hdrain⟩ := drain_ends s stop content bound room finish hs hroom hstop fuel calls
    input hproper hinput hfinish hmono hfuel
  obtain ⟨rfl, hsettled⟩ := drain_settled s stop content bound room finish hs hroom fuel calls input hproper
    hinput hfinish hmono hdrain
  exact ⟨code, calls', hdrain, hsettled⟩

/-- A driver is stopped only for a reason that `stop` gives. -/
theorem drain_stopped (s : Transformer α ρ) (stop : List (Call α) → Answer α ρ → Option ε) (room : ℕ)
    (finish : Bool) (fuel : ℕ) (calls : List (Call α)) (input : List α) {reason : ε} {calls' : List (Call α)}
    (h : drain s stop room finish fuel calls input = .stopped reason calls') :
    ∃ before answer, stop before answer = some reason := by
  induction fuel generalizing calls input with
  | zero => simp [drain] at h
  | succ fuel ih =>
    simp only [drain] at h
    cases hstop : stop calls (s calls ⟨input, finish, room⟩) with
    | some found =>
      simp only [hstop, Drained.stopped.injEq] at h
      exact ⟨_, _, by rw [hstop, h.1]⟩
    | none =>
      simp only [hstop] at h
      split at h
      · exact ih _ _ h
      · simp at h

/-- Stopping for fewer reasons does not change how a driver that settles does so. -/
theorem drain_settled_mono (s : Transformer α ρ) {stop stop' : List (Call α) → Answer α ρ → Option ε}
    (hstop : ∀ calls answer, stop calls answer = none → stop' calls answer = none) (room : ℕ) (finish : Bool)
    (fuel : ℕ) (calls : List (Call α)) (input : List α) {code : ρ} {calls' : List (Call α)} {rest : List α}
    (h : drain s stop room finish fuel calls input = .settled code calls' rest) :
    drain s stop' room finish fuel calls input = .settled code calls' rest := by
  induction fuel generalizing calls input with
  | zero => simp [drain] at h
  | succ fuel ih =>
    simp only [drain] at h ⊢
    cases hnone : stop calls (s calls ⟨input, finish, room⟩) with
    | some reason => simp [hnone] at h
    | none =>
      simp only [hnone, hstop _ _ hnone] at h ⊢
      split at h
      · rename_i hfull
        rw [if_pos hfull]
        exact ih _ _ h
      · rename_i hfull
        rw [if_neg hfull]
        exact h

end Streaming
