import Mathlib.Data.List.GetD

/-!
# Overlaying a byte string with positioned writes

A write places its data at an offset, fills a gap before it with a default element, and
keeps what it does not reach. An empty write changes nothing, wherever it points. Two
contents become equal under the same writes exactly when they agree wherever no write
reaches and are equally long beyond the furthest write.
-/

namespace Overlay

variable {α : Type*}

/-- A positioned write. -/
structure Write (α : Type*) where
  offset : ℕ
  data : List α

/-- The content with `data` placed at `offset` and a gap before it filled with `hole`. -/
def writeAt (hole : α) (content : List α) (offset : ℕ) (data : List α) : List α :=
  if data = [] then content
  else
    content.take offset ++ List.replicate (offset - content.length) hole ++ data ++
      content.drop (offset + data.length)

/-- All the writes, in order. -/
def writeAll (hole : α) (content : List α) (writes : List (Write α)) : List α :=
  writes.foldl (fun bytes w => writeAt hole bytes w.offset w.data) content

/-- The position lies inside the data of one of the writes. -/
def Covered (writes : List (Write α)) (i : ℕ) : Prop :=
  ∃ w ∈ writes, w.offset ≤ i ∧ i < w.offset + w.data.length

/-- The end of the furthest non-empty write. -/
def reach (writes : List (Write α)) : ℕ :=
  writes.foldr (fun w n => if w.data = [] then n else max (w.offset + w.data.length) n) 0

/-- Equal wherever no write reaches, a missing element counting as a hole, and equally long
once the writes are in place. -/
def AgreeOutside (hole : α) (writes : List (Write α)) (a b : List α) : Prop :=
  max a.length (reach writes) = max b.length (reach writes) ∧
    ∀ i, ¬ Covered writes i → a.getD i hole = b.getD i hole

/-- No writes leave the content as it is. -/
@[simp] theorem writeAll_nil (hole : α) (content : List α) : writeAll hole content [] = content := rfl

/-- The first write is applied before the others. -/
@[simp] theorem writeAll_cons (hole : α) (content : List α) (w : Write α) (writes : List (Write α)) :
    writeAll hole content (w :: writes) =
      writeAll hole (writeAt hole content w.offset w.data) writes := rfl

/-- A non-empty write makes the content reach at least its end. -/
theorem length_writeAt (hole : α) (content : List α) (offset : ℕ) (data : List α) :
    (writeAt hole content offset data).length =
      if data = [] then content.length else max content.length (offset + data.length) := by
  by_cases h : data = []
  · simp [writeAt, h]
  · simp only [writeAt, h, if_false, List.length_append, List.length_take, List.length_replicate,
      List.length_drop]
    omega

/-- Reading back: the data inside the write, the old content elsewhere. -/
theorem getD_writeAt (hole : α) (content : List α) (offset : ℕ) (data : List α) (i : ℕ) :
    (writeAt hole content offset data).getD i hole =
      if offset ≤ i ∧ i < offset + data.length then data.getD (i - offset) hole
      else content.getD i hole := by
  by_cases hdata : data = []
  · have hnot : ¬ (offset ≤ i ∧ i < offset + data.length) := by simp [hdata]
    rw [if_neg hnot, writeAt, if_pos hdata]
  · simp only [writeAt, hdata, if_false]
    have hlen : (content.take offset ++ List.replicate (offset - content.length) hole).length = offset := by
      simp only [List.length_append, List.length_take, List.length_replicate]
      omega
    have hfront : (content.take offset ++ List.replicate (offset - content.length) hole ++ data).length =
        offset + data.length := by
      rw [List.length_append, hlen]
    rcases Nat.lt_or_ge i offset with hbefore | hafter
    · rw [if_neg (by omega), List.append_assoc, List.getD_append _ _ _ _ (by rw [hlen]; exact hbefore)]
      rcases Nat.lt_or_ge i content.length with hin | hout
      · rw [List.getD_append _ _ _ _ (by rw [List.length_take]; omega)]
        simp only [List.getD_eq_getElem?_getD, List.getElem?_take_of_lt hbefore]
      · rw [List.getD_append_right _ _ _ _ (by rw [List.length_take]; omega),
          List.getD_eq_default content hole hout]
        simp only [List.getD_eq_getElem?_getD, List.getElem?_replicate]
        split <;> rfl
    · rcases Nat.lt_or_ge i (offset + data.length) with hin | hout
      · rw [if_pos ⟨hafter, hin⟩, List.getD_append _ _ _ _ (by rw [hfront]; exact hin),
          List.getD_append_right _ _ _ _ (by rw [hlen]; exact hafter), hlen]
      · rw [if_neg (by omega), List.getD_append_right _ _ _ _ (by rw [hfront]; exact hout), hfront]
        simp only [List.getD_eq_getElem?_getD, List.getElem?_drop]
        congr 2
        omega

/-- The final length is the old one or the end of the furthest write. -/
theorem length_writeAll (hole : α) (content : List α) (writes : List (Write α)) :
    (writeAll hole content writes).length = max content.length (reach writes) := by
  induction writes generalizing content with
  | nil => simp [reach]
  | cons w rest ih =>
    rw [writeAll_cons, ih, length_writeAt]
    by_cases h : w.data = []
    · simp [reach, h]
    · simp only [reach, List.foldr_cons, h, if_false]
      omega

/-- A covered position reads the same whatever was there before. -/
theorem getD_writeAll_of_covered (hole : α) (writes : List (Write α)) (i : ℕ)
    (h : Covered writes i) (a b : List α) :
    (writeAll hole a writes).getD i hole = (writeAll hole b writes).getD i hole := by
  -- the last write that covers the position decides it, so a covered tail settles the claim
  have of_tail : ∀ (rest : List (Write α)) (a b : List α), a.getD i hole = b.getD i hole →
      (writeAll hole a rest).getD i hole = (writeAll hole b rest).getD i hole := by
    intro rest
    induction rest with
    | nil => intro a b hab; exact hab
    | cons w rest ih =>
      intro a b hab
      rw [writeAll_cons, writeAll_cons]
      apply ih
      rw [getD_writeAt, getD_writeAt, hab]
  induction writes generalizing a b with
  | nil => obtain ⟨w, hw, -⟩ := h; simp at hw
  | cons w rest ih =>
    rw [writeAll_cons, writeAll_cons]
    by_cases hrest : Covered rest i
    · exact ih hrest _ _
    · obtain ⟨v, hv, hin⟩ := h
      rcases List.mem_cons.mp hv with rfl | hv
      · apply of_tail
        rw [getD_writeAt, getD_writeAt, if_pos hin, if_pos hin]
      · exact absurd ⟨v, hv, hin⟩ hrest

/-- A position no write covers keeps what it had. -/
theorem getD_writeAll_of_not_covered (hole : α) (writes : List (Write α)) (i : ℕ)
    (h : ¬ Covered writes i) (a : List α) :
    (writeAll hole a writes).getD i hole = a.getD i hole := by
  induction writes generalizing a with
  | nil => rfl
  | cons w rest ih =>
    rw [writeAll_cons, ih (fun ⟨v, hv, hin⟩ => h ⟨v, List.mem_cons_of_mem _ hv, hin⟩), getD_writeAt,
      if_neg (fun hin => h ⟨w, List.mem_cons_self, hin⟩)]

/-- Lists with equal length and equal elements, read with a default, are equal. -/
theorem ext_getD (hole : α) (a b : List α) (hlen : a.length = b.length)
    (h : ∀ i, a.getD i hole = b.getD i hole) : a = b := by
  apply List.ext_getElem hlen
  intro i ha hb
  have hi := h i
  rwa [List.getD_eq_getElem _ _ ha, List.getD_eq_getElem _ _ hb] at hi

/-- The same writes make two contents equal exactly when these agree outside the writes. -/
theorem writeAll_eq_iff (hole : α) (writes : List (Write α)) (a b : List α) :
    writeAll hole a writes = writeAll hole b writes ↔ AgreeOutside hole writes a b := by
  constructor
  · intro heq
    refine ⟨by rw [← length_writeAll hole a, ← length_writeAll hole b, heq], ?_⟩
    intro i hi
    rw [← getD_writeAll_of_not_covered hole writes i hi a,
      ← getD_writeAll_of_not_covered hole writes i hi b, heq]
  · rintro ⟨hlen, hbytes⟩
    apply ext_getD hole
    · rw [length_writeAll, length_writeAll, hlen]
    · intro i
      by_cases hi : Covered writes i
      · exact getD_writeAll_of_covered hole writes i hi a b
      · rw [getD_writeAll_of_not_covered hole writes i hi, getD_writeAll_of_not_covered hole writes i hi,
          hbytes i hi]

/-- An empty content agrees with another exactly when the writes reach the end of that one and
cover each of its elements other than the hole. -/
theorem agreeOutside_nil_iff (hole : α) (writes : List (Write α)) (b : List α) :
    AgreeOutside hole writes [] b ↔
      b.length ≤ reach writes ∧ ∀ i, ¬ Covered writes i → b.getD i hole = hole := by
  simp only [AgreeOutside, List.length_nil, List.getD_nil, eq_comm (a := hole)]
  constructor
  · rintro ⟨hlen, h⟩
    exact ⟨by omega, h⟩
  · rintro ⟨hlen, h⟩
    exact ⟨by omega, h⟩

end Overlay
