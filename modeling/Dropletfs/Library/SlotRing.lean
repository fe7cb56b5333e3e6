import Mathlib.Data.Nat.ModEq
import Mathlib.Logic.Function.Basic

/-!
# Values kept in a ring of slots

Each new value goes to the slot after the one handed out last, over whatever was there. A
user that remembers slot numbers instead of values reads them back for as long as fewer
values than the ring has slots were stored since. The ring records which slots are still
in use and whether one of them was ever written over.
-/

/-- A ring of `n` slots with the slots in use, and whether one of those was written over. -/
structure SlotRing (n : ℕ) (α : Type) where
  slots : ℕ → α
  current : ℕ
  current_lt : current < n
  live : List ℕ
  reused : Bool

namespace SlotRing

variable {n : ℕ} {α : Type}

/-- The slot after a slot. -/
def next (n current : ℕ) : ℕ := if current + 1 ≥ n then 0 else current + 1

/-- The slot after a slot is one of the ring. -/
theorem next_lt {n current : ℕ} (h : current < n) : next n current < n := by
  unfold next
  split <;> omega

/-- The slot after a slot is another one. -/
theorem next_ne {n current : ℕ} (hn : 2 ≤ n) : next n current ≠ current := by
  unfold next
  split <;> omega

/-- Store a value in the next slot. -/
def push (r : SlotRing n α) (a : α) : SlotRing n α where
  slots := Function.update r.slots (next n r.current) a
  current := next n r.current
  current_lt := next_lt r.current_lt
  live := r.live
  reused := r.reused || decide (next n r.current ∈ r.live)

/-- Change the value in a slot. -/
def amend (r : SlotRing n α) (slot : ℕ) (change : α → α) : SlotRing n α :=
  { r with slots := Function.update r.slots slot (change (r.slots slot)) }

/-- Mark the slots of a call in progress as in use. -/
def enter (r : SlotRing n α) (args : List ℕ) : SlotRing n α := { r with live := args ++ r.live }

/-- The call has returned: only these slots are in use. -/
def leave (r : SlotRing n α) (live : List ℕ) : SlotRing n α := { r with live := live }

@[simp] theorem push_live (r : SlotRing n α) (a : α) : (r.push a).live = r.live := rfl
@[simp] theorem amend_live (r : SlotRing n α) (i : ℕ) (f : α → α) : (r.amend i f).live = r.live := rfl
@[simp] theorem amend_current (r : SlotRing n α) (i : ℕ) (f : α → α) : (r.amend i f).current = r.current := rfl
@[simp] theorem amend_reused (r : SlotRing n α) (i : ℕ) (f : α → α) : (r.amend i f).reused = r.reused := rfl
@[simp] theorem enter_live (r : SlotRing n α) (args : List ℕ) : (r.enter args).live = args ++ r.live := rfl
@[simp] theorem enter_slots (r : SlotRing n α) (args : List ℕ) : (r.enter args).slots = r.slots := rfl
@[simp] theorem enter_reused (r : SlotRing n α) (args : List ℕ) : (r.enter args).reused = r.reused := rfl
@[simp] theorem leave_live (r : SlotRing n α) (live : List ℕ) : (r.leave live).live = live := rfl
@[simp] theorem leave_slots (r : SlotRing n α) (live : List ℕ) : (r.leave live).slots = r.slots := rfl
@[simp] theorem leave_reused (r : SlotRing n α) (live : List ℕ) : (r.leave live).reused = r.reused := rfl

/-- A slot that was handed out `age` values ago. -/
def Aged (r : SlotRing n α) (slot age : ℕ) : Prop := slot < n ∧ (slot + age) % n = r.current

/-- The slot that has been in use for longest was handed out `age` values ago. -/
structure Oldest (r : SlotRing n α) (age : ℕ) : Prop where
  lt : age < n
  some_aged : ∃ slot ∈ r.live, r.Aged slot age
  all_aged : ∀ slot ∈ r.live, ∃ younger ≤ age, r.Aged slot younger

/-- The slot after a slot, counted around the ring. -/
theorem push_current (r : SlotRing n α) (a : α) : (r.push a).current = (r.current + 1) % n := by
  have hlt := r.current_lt
  simp only [push, next]
  split
  · rw [show r.current + 1 = n by omega, Nat.mod_self]
  · exact (Nat.mod_eq_of_lt (by omega)).symm

/-- After `count` more values, every slot is `count` older. -/
theorem Aged.advance {r r' : SlotRing n α} {slot age count : ℕ} (h : r.Aged slot age)
    (hcurrent : r'.current = (r.current + count) % n) : r'.Aged slot (age + count) :=
  ⟨h.1, by rw [hcurrent, ← h.2, ← Nat.add_assoc, Nat.mod_add_mod]⟩

/-- One more value makes every slot one older. -/
theorem Aged.push {r : SlotRing n α} {slot age : ℕ} (h : r.Aged slot age) (a : α) :
    (r.push a).Aged slot (age + 1) := h.advance (push_current r a)

/-- Among slots handed out less than a round ago, only the latest is the current one. -/
theorem Aged.ne_current {r : SlotRing n α} {slot age : ℕ} (h : r.Aged slot age) (hpos : 0 < age)
    (hlt : age < n) : slot ≠ r.current := by
  intro heq
  have hmod := h.2
  rw [← heq] at hmod
  rcases Nat.lt_or_ge (slot + age) n with hsmall | hlarge
  · rw [Nat.mod_eq_of_lt hsmall] at hmod
    omega
  · rw [Nat.mod_eq_sub_mod hlarge, Nat.mod_eq_of_lt (by have := h.1; omega)] at hmod
    omega

/-- A slot handed out a whole round ago is the current one. -/
theorem Aged.eq_current {r : SlotRing n α} {slot : ℕ} (h : r.Aged slot n) : slot = r.current := by
  have hmod := h.2
  rwa [Nat.add_mod_right, Nat.mod_eq_of_lt h.1] at hmod

/-- The latest slot has age zero. -/
theorem aged_current (r : SlotRing n α) : r.Aged r.current 0 := ⟨r.current_lt, Nat.mod_eq_of_lt r.current_lt⟩

/-- The value stored last is read back. -/
@[simp] theorem push_slots_current (r : SlotRing n α) (a : α) : (r.push a).slots (r.push a).current = a :=
  Function.update_self ..

/-- While the oldest slot in use is not a round old, the next slot is not in use. -/
theorem Oldest.next_free {r : SlotRing n α} {age : ℕ} (h : r.Oldest age) (hlt : age + 1 < n) :
    next n r.current ∉ r.live := by
  intro hmem
  obtain ⟨younger, hle, slot_lt, haged⟩ := h.all_aged _ hmem
  have hnext : (r.push (r.slots 0)).Aged (next n r.current) (younger + 1) := Aged.push ⟨slot_lt, haged⟩ _
  exact hnext.ne_current (Nat.succ_pos _) (by omega) rfl

/-- Once the oldest slot in use is a round old, it is the next slot. -/
theorem Oldest.next_live {r : SlotRing n α} {age : ℕ} (h : r.Oldest age) (heq : age + 1 = n) :
    next n r.current ∈ r.live := by
  obtain ⟨slot, hmem, haged⟩ := h.some_aged
  have hpush := haged.push (r.slots 0)
  rw [heq] at hpush
  have hslot : slot = next n r.current := hpush.eq_current
  exact hslot ▸ hmem

/-- A value that goes to a slot in use is recorded as a reuse. -/
theorem push_reused_of_live {r : SlotRing n α} (h : next n r.current ∈ r.live) (a : α) :
    (r.push a).reused = true := by
  simp [push, h]

/-- A value that goes to a slot not in use is none. -/
theorem push_reused_of_free {r : SlotRing n α} (h : next n r.current ∉ r.live) (a : α) :
    (r.push a).reused = r.reused := by
  simp [push, h]

/-- A reuse stays recorded. -/
theorem push_reused_of_reused {r : SlotRing n α} (h : r.reused = true) (a : α) : (r.push a).reused = true := by
  simp [push, h]

/-- How many values ago the oldest slot in use was handed out, if any is in use. -/
def Eldest (r : SlotRing n α) : Option ℕ → Prop
  | none => r.live = []
  | some age => r.Oldest age

/-- While the oldest slot in use is not a round old, the next slot is not in use. -/
theorem Eldest.next_free {r : SlotRing n α} {age : Option ℕ} (h : r.Eldest age) (hroom : ∀ a ∈ age, a + 1 < n) :
    next n r.current ∉ r.live := by
  cases age with
  | none => rw [show r.live = [] from h]; exact List.not_mem_nil
  | some age => exact Oldest.next_free h (hroom age rfl)

/-- Once it is a round old, the next slot is in use. -/
theorem Eldest.next_live {r : SlotRing n α} {age : Option ℕ} (h : r.Eldest age)
    (hfull : ¬ ∀ a ∈ age, a + 1 < n) : next n r.current ∈ r.live := by
  cases age with
  | none => exact absurd (fun _ ha => absurd ha (Option.not_mem_none _)) hfull
  | some age =>
    have hold : r.Oldest age := h
    refine hold.next_live (le_antisymm hold.lt (not_lt.mp fun hlt => hfull ?_))
    intro a ha
    rw [← Option.some.inj ha]
    exact hlt

/-- With the same slots in use, `count` values later the oldest is `count` older. -/
theorem Eldest.advance {r r' : SlotRing n α} {age : Option ℕ} {count : ℕ} (h : r.Eldest age)
    (hlive : r'.live = r.live) (hcurrent : r'.current = (r.current + count) % n)
    (hroom : ∀ a ∈ age, a + count < n) : r'.Eldest (age.map (· + count)) := by
  cases age with
  | none => exact hlive.trans h
  | some age =>
    have hold : r.Oldest age := h
    refine ⟨hroom age rfl, ?_, ?_⟩
    · obtain ⟨slot, hmem, haged⟩ := hold.some_aged
      exact ⟨slot, hlive ▸ hmem, haged.advance hcurrent⟩
    · intro slot hmem
      obtain ⟨younger, hle, haged⟩ := hold.all_aged slot (hlive ▸ hmem)
      exact ⟨younger + count, Nat.add_le_add_right hle count, haged.advance hcurrent⟩

/-- Slots of which the older was handed out before the last value come into use. The oldest is the older of the
two, unless older ones were in use. -/
theorem Eldest.enter {r : SlotRing n α} {age : Option ℕ} {older latest : ℕ} (h : r.Eldest age)
    (holder : r.Aged older 1) (hlatest : r.Aged latest 0) (hn : 1 < n) (hage : ∀ a ∈ age, 1 ≤ a) :
    (r.enter [older, latest]).Eldest (some (age.getD 1)) := by
  cases age with
  | none =>
    have hlive : r.live = [] := h
    refine ⟨hn, ⟨older, by simp, holder⟩, ?_⟩
    intro slot hmem
    rw [enter_live, hlive, List.append_nil, List.mem_cons, List.mem_singleton] at hmem
    rcases hmem with rfl | rfl
    · exact ⟨1, le_rfl, holder⟩
    · exact ⟨0, Nat.zero_le _, hlatest⟩
  | some age =>
    have hold : r.Oldest age := h
    refine ⟨hold.lt, ?_, ?_⟩
    · obtain ⟨slot, hmem, haged⟩ := hold.some_aged
      exact ⟨slot, List.mem_append_right _ hmem, haged⟩
    · intro slot hmem
      rw [enter_live, List.mem_append, List.mem_cons, List.mem_singleton] at hmem
      rcases hmem with (rfl | rfl) | hmem
      · exact ⟨1, hage age rfl, holder⟩
      · exact ⟨0, Nat.zero_le _, hlatest⟩
      · exact hold.all_aged slot hmem

end SlotRing
