import Mathlib.Data.List.Basic
import Mathlib.Data.List.Infix

/-!
# Paths as a tree

A path is a list of symbols in which one symbol separates the names. A path is below another
when it is the same or goes on with a separator, which makes the paths a tree. What is done
in two subtrees of which neither contains the other does not meet.
-/

namespace PathOrder

variable {α : Type} {sep : α} {p q r name name' : List α}

/-- A path is the other one, or lies somewhere in that directory. -/
def Below (sep : α) (p q : List α) : Prop := q = p ∨ p ++ [sep] <+: q

/-- Neither of two paths is below the other. -/
def Apart (sep : α) (p q : List α) : Prop := ¬ Below sep p q ∧ ¬ Below sep q p

instance [DecidableEq α] : Decidable (Below sep p q) := inferInstanceAs (Decidable (q = p ∨ p ++ [sep] <+: q))

instance [DecidableEq α] : Decidable (Apart sep p q) :=
  inferInstanceAs (Decidable (¬ Below sep p q ∧ ¬ Below sep q p))

/-- Every path is below itself. -/
theorem Below.refl (sep : α) (p : List α) : Below sep p p := .inl rfl

/-- A path is above its entries. -/
theorem below_entry (sep : α) (p name : List α) : Below sep p (p ++ sep :: name) :=
  .inr ⟨name, by simp⟩

/-- What is below a path is no shorter. -/
theorem Below.length_le (h : Below sep p q) : p.length ≤ q.length := by
  rcases h with rfl | h
  · exact Nat.le_refl _
  · have := h.length_le
    simp only [List.length_append, List.length_singleton] at this
    omega

/-- What is below something below a path is below that path. -/
theorem Below.trans (h : Below sep p q) (h' : Below sep q r) : Below sep p r := by
  rcases h with rfl | h
  · exact h'
  · rcases h' with rfl | h'
    · exact .inr h
    · exact .inr (h.trans ((List.prefix_append q [sep]).trans h'))

/-- Two paths that something is below are one below the other. -/
theorem Below.comparable (h : Below sep p r) (h' : Below sep q r) : Below sep p q ∨ Below sep q p := by
  rcases h with rfl | h
  · exact .inr h'
  · rcases h' with rfl | h'
    · exact .inl (.inr h)
    · rcases List.prefix_or_prefix_of_prefix h h' with hle | hle
      · rcases List.prefix_concat_iff.mp hle with heq | hle
        · exact .inl (.inl (List.append_cancel_right heq).symm)
        · exact .inl (.inr hle)
      · rcases List.prefix_concat_iff.mp hle with heq | hle
        · exact .inr (.inl (List.append_cancel_right heq).symm)
        · exact .inr (.inr hle)

/-- Being apart is symmetric. -/
theorem Apart.symm (h : Apart sep p q) : Apart sep q p := ⟨h.2, h.1⟩

/-- Paths that are apart are different. -/
theorem Apart.ne (h : Apart sep p q) : p ≠ q := by
  rintro rfl
  exact h.1 (.refl sep p)

/-- What is apart from a path is apart from all that is below it. -/
theorem Apart.below (h : Apart sep p q) (hr : Below sep q r) : Apart sep p r := by
  refine ⟨fun hpr => ?_, fun hrp => h.2 (hr.trans hrp)⟩
  rcases hpr.comparable hr with hpq | hqp
  · exact h.1 hpq
  · exact h.2 hqp

/-- What is below two paths that are apart is apart. -/
theorem Apart.both {p' q' : List α} (h : Apart sep p q) (hp : Below sep p p') (hq : Below sep q q') :
    Apart sep p' q' := ((h.below hq).symm.below hp).symm

/-- An entry is not above another entry of the same directory. -/
theorem entries_not_below (hne : name ≠ name') (hname' : sep ∉ name') :
    ¬ Below sep (p ++ sep :: name) (p ++ sep :: name') := by
  rintro (heq | hahead)
  · exact hne (List.cons_injective (List.append_cancel_left heq)).symm
  · rw [List.append_assoc, List.prefix_append_right_inj, List.cons_append, List.cons_prefix_cons] at hahead
    exact hname' (hahead.2.subset (List.mem_append_right _ (List.mem_singleton_self sep)))

/-- Two entries of a directory are apart. -/
theorem entries_apart (hne : name ≠ name') (hname : sep ∉ name) (hname' : sep ∉ name') :
    Apart sep (p ++ sep :: name) (p ++ sep :: name') :=
  ⟨entries_not_below hne hname', entries_not_below hne.symm hname⟩

/-- A directory is not below its entries. -/
theorem not_below_entry (sep : α) (p name : List α) : ¬ Below sep (p ++ sep :: name) p := by
  intro h
  have := h.length_le
  simp only [List.length_append, List.length_cons] at this
  omega

/-- What leads from a path to something below it: nothing, or names of which each is led by a separator. -/
def Way (sep : α) (way : List α) : Prop := ∀ first ∈ way.head?, first = sep

/-- A way leads below a path. -/
theorem Way.below {way : List α} (h : Way sep way) (p : List α) : Below sep p (p ++ way) := by
  cases way with
  | nil => exact .inl (List.append_nil p)
  | cons first rest =>
    obtain rfl : first = sep := h first rfl
    exact below_entry first p rest

/-- A way can be followed to an entry of where it leads. -/
theorem Way.entry {way : List α} (h : Way sep way) (name : List α) : Way sep (way ++ sep :: name) := by
  cases way with
  | nil => exact fun first hfirst => (Option.some.inj hfirst).symm
  | cons first rest => exact h

/-- Ways from two paths that are apart lead to different ends. -/
theorem Apart.ways_ne {way way' : List α} (h : Apart sep p q) (hway : Way sep way) (hway' : Way sep way') :
    p ++ way ≠ q ++ way' := (h.both (hway.below p) (hway'.below q)).ne

end PathOrder
