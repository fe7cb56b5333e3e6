import Dropletfs.Library.Exec

/-!
# Calls that leave notes

What happens on the way through a call is written down, also when the call does not return:
the notes are those left until it waited or left defined behaviour. Without its notes a chain
of calls is the chain of the calls without theirs.
-/

/-- The notes left by a call, and how it ends. -/
structure Noted (ν α : Type) where
  notes : List ν
  exec : Exec α

namespace Noted

variable {ν α β : Type}

/-- Go on with the result of a call that returns; its notes come first. -/
def bind (call : Noted ν α) (next : α → Noted ν β) : Noted ν β :=
  match call.exec with
  | .done a => ⟨call.notes ++ (next a).notes, (next a).exec⟩
  | .blocked => ⟨call.notes, .blocked⟩
  | .undefined => ⟨call.notes, .undefined⟩

instance : Monad (Noted ν) where
  pure a := ⟨[], .done a⟩
  bind := bind

/-- Leave a note. -/
def note (n : ν) : Noted ν Unit := ⟨[n], .done ()⟩

/-- A call that leaves no notes. -/
def silent (call : Exec α) : Noted ν α := ⟨[], call⟩

@[simp] theorem pure_exec (a : α) : (pure a : Noted ν α).exec = .done a := rfl
@[simp] theorem note_exec (n : ν) : (note n).exec = .done () := rfl
@[simp] theorem silent_exec (call : Exec α) : (silent call : Noted ν α).exec = call := rfl

/-- How a chain ends does not depend on notes. -/
@[simp] theorem bind_exec (call : Noted ν α) (next : α → Noted ν β) :
    (call >>= next).exec = call.exec >>= fun a => (next a).exec := by
  change (bind call next).exec = _
  unfold bind
  cases call.exec <;> rfl

/-- Every note meets a condition. -/
def All (P : ν → Prop) (call : Noted ν α) : Prop := ∀ n ∈ call.notes, P n

variable {P : ν → Prop}

/-- A result is no note. -/
theorem All.pure (a : α) : (Pure.pure a : Noted ν α).All P := fun _ hn => absurd hn List.not_mem_nil

/-- A silent call leaves none. -/
theorem All.silent (call : Exec α) : (silent call : Noted ν α).All P := fun _ hn => absurd hn List.not_mem_nil

/-- One note. -/
theorem All.note {n : ν} (h : P n) : (note n).All P := fun _ hn => List.mem_singleton.mp hn ▸ h

/-- One call after another. -/
theorem All.bind {call : Noted ν α} {next : α → Noted ν β} (h : call.All P) (hnext : ∀ a, (next a).All P) :
    (call >>= next).All P := by
  change (Noted.bind call next).All P
  unfold Noted.bind
  intro n hn
  split at hn
  · rename_i a _
    rcases List.mem_append.mp hn with hfirst | hlater
    · exact h n hfirst
    · exact hnext a n hlater
  · exact h n hn
  · exact h n hn

/-- The notes of a chain that starts with a note. -/
@[simp] theorem note_bind_notes (n : ν) (next : Unit → Noted ν β) :
    (note n >>= next).notes = n :: (next ()).notes := rfl

end Noted
