import Mathlib.Data.Fintype.Card
import Mathlib.Data.Finset.Card

/-!
# Counted and locked cells

Parties share cells, each of which has a count and a lock. A lease says what a party has of
them: the cell it refers to, the cell that counts it, and the cell whose lock it owns. The
moves are what such a party can do to a cell. As long as a cell is dropped only by the owner
of its lock, while it counts nobody and nobody else refers to it without being counted or
owning it, no party is left with a cell that is gone, the counts are exact, and each lock has
at most one owner.
-/

namespace Leases

/-- A shared cell. -/
structure Cell where
  count : ℕ
  locked : Bool

/-- What a party has of the cells. -/
structure Lease (κ : Type) where
  uses : Option κ
  counted : Option κ
  owns : Option κ

variable {ι κ : Type} [Fintype ι] [DecidableEq ι] [DecidableEq κ]

/-- The parties that a cell counts. -/
def counters (lease : ι → Lease κ) (k : κ) : Finset ι := Finset.univ.filter fun i => (lease i).counted = some k

/-- The cells are what the leases say. -/
structure Tallied (cell : κ → Option Cell) (lease : ι → Lease κ) : Prop where
  live : ∀ i k, (lease i).uses = some k ∨ (lease i).counted = some k ∨ (lease i).owns = some k → cell k ≠ none
  count : ∀ k c, cell k = some c → c.count = (counters lease k).card
  locked : ∀ k c, cell k = some c → (c.locked = true ↔ ∃ i, (lease i).owns = some k)
  single : ∀ i j k, (lease i).owns = some k → (lease j).owns = some k → i = j

/-- No other party refers to the cell without being counted by it or owning it. -/
def Attended (lease : ι → Lease κ) (i : ι) (k : κ) : Prop :=
  ∀ j, j ≠ i → (lease j).uses = some k → (lease j).counted = some k ∨ (lease j).owns = some k

/-- What a party can do to the cells and its lease. A cell is only dropped when that is allowed. -/
inductive Move (allowed : κ → Prop) (cell : κ → Option Cell) (mine : Lease κ) : (κ → Option Cell) → Lease κ → Prop
  | stay {uses : Option κ} : (∀ k, uses = some k → cell k ≠ none) →
      Move allowed cell mine cell ⟨uses, mine.counted, mine.owns⟩
  | add {k : κ} : cell k = none →
      Move allowed cell mine (Function.update cell k (some ⟨0, false⟩)) ⟨some k, mine.counted, mine.owns⟩
  | count {k : κ} {c : Cell} : cell k = some c → mine.counted = none →
      Move allowed cell mine (Function.update cell k (some ⟨c.count + 1, c.locked⟩)) ⟨mine.uses, some k, mine.owns⟩
  | uncount {k : κ} {c : Cell} {uses : Option κ} : cell k = some c → mine.counted = some k →
      uses = none ∨ uses = mine.uses →
      Move allowed cell mine (Function.update cell k (some ⟨c.count - 1, c.locked⟩)) ⟨uses, none, mine.owns⟩
  | lock {k : κ} {c : Cell} : cell k = some c → c.locked = false → mine.owns = none →
      Move allowed cell mine (Function.update cell k (some ⟨c.count, true⟩)) ⟨mine.uses, mine.counted, some k⟩
  | unlock {k : κ} {c : Cell} : cell k = some c → mine.owns = some k →
      Move allowed cell mine (Function.update cell k (some ⟨c.count, false⟩)) ⟨none, mine.counted, none⟩
  | drop {k : κ} : mine.owns = some k → mine.counted = none → allowed k →
      Move allowed cell mine (Function.update cell k none) ⟨none, none, none⟩

section Changes

omit [Fintype ι] [DecidableEq κ] in
/-- What a party goes on to have, and what the others have. -/
theorem update_lease {lease : ι → Lease κ} {i : ι} {mine : Lease κ} (P : Lease κ → Prop) (j : ι) :
    P (Function.update lease i mine j) ↔ (j = i ∧ P mine) ∨ (j ≠ i ∧ P (lease j)) := by
  by_cases hj : j = i
  · subst hj
    simp
  · simp [hj]

omit [Fintype ι] [DecidableEq ι] in
/-- A cell after one of them has changed. -/
theorem update_cell {cell : κ → Option Cell} {k other : κ} {x : Option Cell} {c : Cell}
    (h : Function.update cell k x other = some c) : (other = k ∧ x = some c) ∨ (other ≠ k ∧ cell other = some c) := by
  by_cases hk : other = k
  · subst hk
    rw [Function.update_self] at h
    exact .inl ⟨rfl, h⟩
  · rw [Function.update_of_ne hk] at h
    exact .inr ⟨hk, h⟩

omit [Fintype ι] [DecidableEq ι] in
/-- Changing a cell that stays, the others stay too. -/
theorem update_cell_ne_none {cell : κ → Option Cell} {k other : κ} {c : Cell} (h : other ≠ k → cell other ≠ none) :
    Function.update cell k (some c) other ≠ none := by
  by_cases hk : other = k
  · subst hk
    simp
  · rw [Function.update_of_ne hk]
    exact h hk

variable {lease : ι → Lease κ} {i : ι} {mine : Lease κ} {k : κ}

/-- The parties counted, when one of them changes its lease. -/
theorem mem_counters_update {j : ι} :
    j ∈ counters (Function.update lease i mine) k ↔
      (j = i ∧ mine.counted = some k) ∨ (j ≠ i ∧ (lease j).counted = some k) := by
  simp only [counters, Finset.mem_filter, Finset.mem_univ, true_and]
  exact update_lease (fun l => l.counted = some k) j

/-- A party that is counted where it was leaves the parties counted as they are. -/
theorem counters_update_of_iff (h : mine.counted = some k ↔ (lease i).counted = some k) :
    counters (Function.update lease i mine) k = counters lease k := by
  ext j
  rw [mem_counters_update]
  by_cases hj : j = i
  · subst hj
    simp [counters, h]
  · simp [counters, hj]

/-- A party gets counted. -/
theorem card_counters_count (hnone : (lease i).counted = none) (hmine : mine.counted = some k) :
    (counters (Function.update lease i mine) k).card = (counters lease k).card + 1 := by
  have hinsert : counters (Function.update lease i mine) k = insert i (counters lease k) := by
    ext j
    rw [mem_counters_update, Finset.mem_insert]
    by_cases hj : j = i
    · simp [hj, hmine]
    · simp [counters, hj]
  rw [hinsert, Finset.card_insert_of_notMem]
  simp [counters, hnone]

/-- A party is counted no longer. -/
theorem card_counters_uncount (hsome : (lease i).counted = some k) (hmine : mine.counted = none) :
    (counters (Function.update lease i mine) k).card = (counters lease k).card - 1 := by
  have herase : counters (Function.update lease i mine) k = (counters lease k).erase i := by
    ext j
    rw [mem_counters_update, Finset.mem_erase]
    by_cases hj : j = i
    · simp [hj, hmine]
    · simp [counters, hj]
  rw [herase, Finset.card_erase_of_mem]
  simp [counters, hsome]

end Changes

namespace Tallied

variable {cell cell' : κ → Option Cell} {lease : ι → Lease κ} {i : ι} {allowed : κ → Prop} {mine : Lease κ} {k : κ}
  {c : Cell}

omit [DecidableEq ι] in
/-- Nobody has anything of a cell that is not there. -/
theorem unmentioned (h : Tallied cell lease) (hnone : cell k = none) (j : ι) :
    (lease j).uses ≠ some k ∧ (lease j).counted ≠ some k ∧ (lease j).owns ≠ some k :=
  ⟨fun huses => h.live j k (.inl huses) hnone, fun hcounted => h.live j k (.inr (.inl hcounted)) hnone,
    fun howns => h.live j k (.inr (.inr howns)) hnone⟩

omit [Fintype ι] [DecidableEq κ] in
/-- What the leases refer to stays there, and what the party has from now on is there. -/
theorem live_update (hothers : ∀ j k, j ≠ i → (lease j).uses = some k ∨ (lease j).counted = some k ∨
      (lease j).owns = some k → cell' k ≠ none)
    (hmine : ∀ k, mine.uses = some k ∨ mine.counted = some k ∨ mine.owns = some k → cell' k ≠ none) (j : ι) (k : κ)
    (hhas : (Function.update lease i mine j).uses = some k ∨ (Function.update lease i mine j).counted = some k ∨
      (Function.update lease i mine j).owns = some k) : cell' k ≠ none := by
  by_cases hj : j = i
  · subst hj
    rw [Function.update_self] at hhas
    exact hmine k hhas
  · rw [Function.update_of_ne hj] at hhas
    exact hothers j k hj hhas

/-- The count of a cell that counts the party if it did before. -/
theorem count_update (h : Tallied cell lease) (hcounted : mine.counted = some k ↔ (lease i).counted = some k)
    (hcell : cell k = some c) : c.count = (counters (Function.update lease i mine) k).card :=
  (h.count k c hcell).trans (congrArg Finset.card (counters_update_of_iff hcounted).symm)

/-- The lock of a cell that the party owns if it did before. -/
theorem locked_update (h : Tallied cell lease) (howns : mine.owns = some k ↔ (lease i).owns = some k)
    (hcell : cell k = some c) : c.locked = true ↔ ∃ j, (Function.update lease i mine j).owns = some k := by
  rw [h.locked k c hcell]
  refine exists_congr fun j => ?_
  rw [update_lease fun l => l.owns = some k]
  by_cases hj : j = i
  · subst hj
    simp [howns]
  · simp [hj]

/-- The owners of a cell, when the party owns it only if it did before. -/
theorem single_update (h : Tallied cell lease) (howns : mine.owns = some k → (lease i).owns = some k) (j j' : ι)
    (hj : (Function.update lease i mine j).owns = some k) (hj' : (Function.update lease i mine j').owns = some k) :
    j = j' := by
  have hbefore : ∀ {j}, (Function.update lease i mine j).owns = some k → (lease j).owns = some k := by
    intro j hj
    rw [update_lease fun l => l.owns = some k] at hj
    rcases hj with ⟨rfl, howned⟩ | ⟨-, howned⟩
    · exact howns howned
    · exact howned
  exact h.single j j' k (hbefore hj) (hbefore hj')

omit [DecidableEq ι] in
/-- The cell that a party owns is locked by nobody else. -/
theorem owner_unique (h : Tallied cell lease) (howns : (lease i).owns = some k) {j : ι} (hj : j ≠ i) :
    (lease j).owns ≠ some k := fun hother => hj (h.single j i k hother howns)

/-- A reference to a cell, or none. -/
theorem stay (h : Tallied cell lease) {uses : Option κ} (huses : ∀ k, uses = some k → cell k ≠ none) :
    Tallied cell (Function.update lease i ⟨uses, (lease i).counted, (lease i).owns⟩) where
  live := live_update (fun j k _ => h.live j k) fun k hk => hk.elim (huses k) fun hk => h.live i k (.inr hk)
  count _ _ hcell := h.count_update (by rfl) hcell
  locked _ _ hcell := h.locked_update (by rfl) hcell
  single j j' _ := h.single_update (by exact id) j j'

/-- A new cell, which counts nobody and is free. -/
theorem add (h : Tallied cell lease) (hnone : cell k = none) :
    Tallied (Function.update cell k (some ⟨0, false⟩))
      (Function.update lease i ⟨some k, (lease i).counted, (lease i).owns⟩) where
  live := by
    refine live_update (fun j other _ hhas => update_cell_ne_none fun _ => h.live j other hhas) ?_
    rintro other (hother | hother)
    · exact update_cell_ne_none fun hne => absurd (Option.some.inj hother).symm hne
    · exact update_cell_ne_none fun _ => h.live i other (.inr hother)
  count other c hcell := by
    rcases update_cell hcell with ⟨rfl, hnew⟩ | ⟨-, hold⟩
    · obtain rfl := Option.some.inj hnew
      refine Eq.trans (Finset.card_eq_zero.mpr ?_).symm (congrArg Finset.card (counters_update_of_iff (by rfl)).symm)
      exact Finset.filter_eq_empty_iff.mpr fun j _ => (h.unmentioned hnone j).2.1
    · exact h.count_update (by rfl) hold
  locked other c hcell := by
    rcases update_cell hcell with ⟨rfl, hnew⟩ | ⟨-, hold⟩
    · obtain rfl := Option.some.inj hnew
      refine ⟨fun hlocked => (by cases hlocked), ?_⟩
      rintro ⟨j, hj⟩
      rw [update_lease fun l => l.owns = some other] at hj
      rcases hj with ⟨-, hj⟩ | ⟨-, hj⟩
      · exact ((h.unmentioned hnone i).2.2 hj).elim
      · exact ((h.unmentioned hnone j).2.2 hj).elim
    · exact h.locked_update (by rfl) hold
  single j j' _ := h.single_update (by exact id) j j'

/-- The party gets counted. -/
theorem counted (h : Tallied cell lease) (hcell : cell k = some c) (hnone : (lease i).counted = none) :
    Tallied (Function.update cell k (some ⟨c.count + 1, c.locked⟩))
      (Function.update lease i ⟨(lease i).uses, some k, (lease i).owns⟩) where
  live := by
    refine live_update (fun j other _ hhas => update_cell_ne_none fun _ => h.live j other hhas) ?_
    rintro other (hother | hother | hother)
    · exact update_cell_ne_none fun _ => h.live i other (.inl hother)
    · exact update_cell_ne_none fun hne => absurd (Option.some.inj hother).symm hne
    · exact update_cell_ne_none fun _ => h.live i other (.inr (.inr hother))
  count other c' hcell' := by
    rcases update_cell hcell' with ⟨rfl, hnew⟩ | ⟨hne, hold⟩
    · obtain rfl := Option.some.inj hnew
      rw [card_counters_count hnone rfl, ← h.count other c hcell]
    · refine h.count_update ?_ hold
      rw [hnone]
      exact ⟨fun hk => absurd (Option.some.inj hk).symm hne, fun hk => (by cases hk)⟩
  locked other c' hcell' := by
    rcases update_cell hcell' with ⟨rfl, hnew⟩ | ⟨-, hold⟩
    · obtain rfl := Option.some.inj hnew
      exact h.locked_update (c := c) (by rfl) hcell
    · exact h.locked_update (by rfl) hold
  single j j' _ := h.single_update (by exact id) j j'

/-- The party is counted no longer. -/
theorem uncounted (h : Tallied cell lease) {uses : Option κ} (hcell : cell k = some c)
    (hsome : (lease i).counted = some k) (huses : uses = none ∨ uses = (lease i).uses) :
    Tallied (Function.update cell k (some ⟨c.count - 1, c.locked⟩))
      (Function.update lease i ⟨uses, none, (lease i).owns⟩) where
  live := by
    refine live_update (fun j other _ hhas => update_cell_ne_none fun _ => h.live j other hhas) ?_
    rintro other (hother | hother | hother)
    · rcases huses with rfl | rfl
      · cases hother
      · exact update_cell_ne_none fun _ => h.live i other (.inl hother)
    · cases hother
    · exact update_cell_ne_none fun _ => h.live i other (.inr (.inr hother))
  count other c' hcell' := by
    rcases update_cell hcell' with ⟨rfl, hnew⟩ | ⟨hne, hold⟩
    · obtain rfl := Option.some.inj hnew
      rw [card_counters_uncount hsome rfl, ← h.count other c hcell]
    · refine h.count_update ?_ hold
      rw [hsome]
      exact ⟨fun hk => (by cases hk), fun hk => absurd (Option.some.inj hk).symm hne⟩
  locked other c' hcell' := by
    rcases update_cell hcell' with ⟨rfl, hnew⟩ | ⟨-, hold⟩
    · obtain rfl := Option.some.inj hnew
      exact h.locked_update (c := c) (by rfl) hcell
    · exact h.locked_update (by rfl) hold
  single j j' _ := h.single_update (by exact id) j j'

/-- The party gets the lock. -/
theorem lock (h : Tallied cell lease) (hcell : cell k = some c) (hfree : c.locked = false)
    (hnone : (lease i).owns = none) :
    Tallied (Function.update cell k (some ⟨c.count, true⟩))
      (Function.update lease i ⟨(lease i).uses, (lease i).counted, some k⟩) where
  live := by
    refine live_update (fun j other _ hhas => update_cell_ne_none fun _ => h.live j other hhas) ?_
    rintro other (hother | hother | hother)
    · exact update_cell_ne_none fun _ => h.live i other (.inl hother)
    · exact update_cell_ne_none fun _ => h.live i other (.inr (.inl hother))
    · exact update_cell_ne_none fun hne => absurd (Option.some.inj hother).symm hne
  count other c' hcell' := by
    rcases update_cell hcell' with ⟨rfl, hnew⟩ | ⟨-, hold⟩
    · obtain rfl := Option.some.inj hnew
      exact h.count_update (c := c) (by rfl) hcell
    · exact h.count_update (by rfl) hold
  locked other c' hcell' := by
    rcases update_cell hcell' with ⟨rfl, hnew⟩ | ⟨hne, hold⟩
    · obtain rfl := Option.some.inj hnew
      exact ⟨fun _ => ⟨i, by rw [Function.update_self]⟩, fun _ => rfl⟩
    · refine h.locked_update ?_ hold
      rw [hnone]
      exact ⟨fun hk => absurd (Option.some.inj hk).symm hne, fun hk => (by cases hk)⟩
  single j j' other hj hj' := by
    have howner : ∀ j, (Function.update lease i ⟨(lease i).uses, (lease i).counted, some k⟩ j).owns = some k →
        j = i := by
      intro j hj
      rw [update_lease fun l => l.owns = some k] at hj
      rcases hj with ⟨hji, -⟩ | ⟨-, hj⟩
      · exact hji
      · have hlocked := (h.locked k c hcell).mpr ⟨j, hj⟩
        rw [hfree] at hlocked
        cases hlocked
    by_cases hk : other = k
    · subst hk
      exact (howner j hj).trans (howner j' hj').symm
    · exact h.single_update (fun howns => absurd (Option.some.inj howns).symm hk) j j' hj hj'

/-- The party gives the lock back. -/
theorem unlock (h : Tallied cell lease) (hcell : cell k = some c) (howns : (lease i).owns = some k) :
    Tallied (Function.update cell k (some ⟨c.count, false⟩))
      (Function.update lease i ⟨none, (lease i).counted, none⟩) where
  live := by
    refine live_update (fun j other _ hhas => update_cell_ne_none fun _ => h.live j other hhas) ?_
    rintro other (hother | hother | hother)
    · cases hother
    · exact update_cell_ne_none fun _ => h.live i other (.inr (.inl hother))
    · cases hother
  count other c' hcell' := by
    rcases update_cell hcell' with ⟨rfl, hnew⟩ | ⟨-, hold⟩
    · obtain rfl := Option.some.inj hnew
      exact h.count_update (c := c) (by rfl) hcell
    · exact h.count_update (by rfl) hold
  locked other c' hcell' := by
    rcases update_cell hcell' with ⟨rfl, hnew⟩ | ⟨hne, hold⟩
    · obtain rfl := Option.some.inj hnew
      refine ⟨fun hlocked => (by cases hlocked), ?_⟩
      rintro ⟨j, hj⟩
      rw [update_lease fun l => l.owns = some other] at hj
      rcases hj with ⟨-, hj⟩ | ⟨hji, hj⟩
      · cases hj
      · exact (h.owner_unique howns hji hj).elim
    · refine h.locked_update ?_ hold
      rw [howns]
      exact ⟨fun hk => (by cases hk), fun hk => absurd (Option.some.inj hk).symm hne⟩
  single j j' _ := h.single_update (by rintro ⟨⟩) j j'

/-- The party, which owns the lock, drops a cell that counts nobody and that nobody else refers to on the quiet. -/
theorem drop (h : Tallied cell lease) (howns : (lease i).owns = some k) (hcounted : (lease i).counted = none)
    (hcount : ∀ c, cell k = some c → c.count = 0) (hattended : Attended lease i k) :
    Tallied (Function.update cell k none) (Function.update lease i ⟨none, none, none⟩) where
  live := by
    refine live_update (fun j other hj hhas => ?_) fun other hhas => by rcases hhas with hk | hk | hk <;> cases hk
    by_cases hk : other = k
    · subst hk
      obtain ⟨c, hcell⟩ := Option.ne_none_iff_exists'.mp (h.live i other (.inr (.inr howns)))
      have huncounted : (lease j).counted ≠ some other := by
        have hempty := Finset.card_eq_zero.mp ((h.count other c hcell).symm.trans (hcount c hcell))
        exact fun hj => Finset.filter_eq_empty_iff.mp hempty (Finset.mem_univ j) hj
      rcases hhas with huses | hhas | hhas
      · rcases hattended j hj huses with hhas | hhas
        · exact (huncounted hhas).elim
        · exact (h.owner_unique howns hj hhas).elim
      · exact (huncounted hhas).elim
      · exact (h.owner_unique howns hj hhas).elim
    · rw [Function.update_of_ne hk]
      exact h.live j other hhas
  count other c hcell := by
    rcases update_cell hcell with ⟨-, hnew⟩ | ⟨-, hold⟩
    · cases hnew
    · exact h.count_update (by rw [hcounted]) hold
  locked other c hcell := by
    rcases update_cell hcell with ⟨-, hnew⟩ | ⟨hne, hold⟩
    · cases hnew
    · refine h.locked_update ?_ hold
      rw [howns]
      exact ⟨fun hk => (by cases hk), fun hk => absurd (Option.some.inj hk).symm hne⟩
  single j j' _ := h.single_update (by rintro ⟨⟩) j j'

/-- Every move leaves the cells what the leases say. -/
theorem move (h : Tallied cell lease) (hmove : Move allowed cell (lease i) cell' mine)
    (hallowed : ∀ k, allowed k → (∀ c, cell k = some c → c.count = 0) ∧ Attended lease i k) :
    Tallied cell' (Function.update lease i mine) := by
  cases hmove with
  | stay huses => exact h.stay huses
  | add hnone => exact h.add hnone
  | count hcell hnone => exact h.counted hcell hnone
  | uncount hcell hcounted huses => exact h.uncounted hcell hcounted huses
  | lock hcell hfree hnone => exact h.lock hcell hfree hnone
  | unlock hcell howns => exact h.unlock hcell howns
  | drop howns hcounted hk => exact h.drop howns hcounted (hallowed _ hk).1 (hallowed _ hk).2

end Tallied

end Leases
