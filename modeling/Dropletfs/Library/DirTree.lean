import Mathlib.Data.List.Infix
import Mathlib.Logic.Function.Basic

/-!
# Directory trees

A node is named by the way to it from the root, and hangs below a directory. A directory can be
made where nothing stands yet, below one that exists. Making each node of a way that goes down
one step at a time, or stays where it is, makes the directories on the way to its end that were
missing, each of them once, and nothing else.
-/

/-- The directories and the files of a tree. -/
structure DirTree (α : Type) where
  dirs : List α → Bool
  files : List α → Bool
  root_dir : dirs [] = true
  parent_dir : ∀ node, dirs node = true ∨ files node = true → dirs node.dropLast = true
  disjoint : ∀ node, dirs node = true → files node = false

namespace DirTree

variable {α : Type}

/-- Every directory above a node is there. -/
theorem dirs_of_above (tree : DirTree α) {above node : List α} (h : above <+: node) (hnode : tree.dirs node = true) :
    tree.dirs above = true := by
  induction node using List.reverseRecOn with
  | nil => rw [List.prefix_nil.mp h, tree.root_dir]
  | append_singleton node a ih =>
    rcases List.prefix_concat_iff.mp h with rfl | h
    · exact hnode
    · have hparent := tree.parent_dir _ (Or.inl hnode)
      rw [List.dropLast_concat] at hparent
      exact ih h hparent

/-- A directory can be made at a node. -/
def CanMake (tree : DirTree α) (node : List α) : Prop :=
  tree.dirs node.dropLast = true ∧ tree.dirs node = false ∧ tree.files node = false

instance (tree : DirTree α) (node : List α) : Decidable (tree.CanMake node) :=
  inferInstanceAs (Decidable (_ ∧ _))

variable [DecidableEq α]

/-- One more directory. -/
def make (tree : DirTree α) (node : List α) (h : tree.CanMake node) : DirTree α where
  dirs := Function.update tree.dirs node true
  files := tree.files
  root_dir := by
    rw [Function.update_apply]
    split
    · rfl
    · exact tree.root_dir
  parent_dir other hother := by
    rw [Function.update_apply]
    split
    · rfl
    · by_cases heq : other = node
      · rw [heq]
        exact h.1
      · rw [Function.update_of_ne heq] at hother
        exact tree.parent_dir other hother
  disjoint other hother := by
    by_cases heq : other = node
    · rw [heq]
      exact h.2.2
    · rw [Function.update_of_ne heq] at hother
      exact tree.disjoint other hother

/-- A tree and the directories that were made in it, the latest first. -/
structure Building (α : Type) where
  tree : DirTree α
  made : List (List α)

/-- Nothing was made yet. -/
def untouched (tree : DirTree α) : Building α := ⟨tree, []⟩

namespace Building

/-- Make a directory where one can be made, if nothing else hinders it. -/
def mkdir (b : Building α) (node : List α) (allowed : Bool) : Building α :=
  if h : b.tree.CanMake node ∧ allowed = true then ⟨b.tree.make node h.1, node :: b.made⟩ else b

/-- Try each node in turn, with nothing else in the way. -/
def mkdirs (b : Building α) (nodes : List (List α)) : Building α :=
  nodes.foldl (fun b node => b.mkdir node true) b

/-- Where a directory stands none is made. -/
theorem mkdir_of_dirs {b : Building α} {node : List α} (h : b.tree.dirs node = true) (allowed : Bool) :
    b.mkdir node allowed = b :=
  dif_neg fun hcan => by
    have hfree := hcan.1.2.1
    rw [h] at hfree
    cases hfree

/-- Where one can be made, one is. -/
theorem mkdir_of_canMake {b : Building α} {node : List α} (h : b.tree.CanMake node) :
    b.mkdir node true = ⟨b.tree.make node h, node :: b.made⟩ :=
  dif_pos ⟨h, rfl⟩

end Building

/-- What was made in a tree is the way to a node, as far as it was missing. -/
structure Reaches (tree : DirTree α) (goal : List α) (b : Building α) : Prop where
  dirs_iff : ∀ node, b.tree.dirs node = true ↔ tree.dirs node = true ∨ node <+: goal
  files_eq : b.tree.files = tree.files
  made_iff : ∀ node, node ∈ b.made ↔ node <+: goal ∧ tree.dirs node = false
  made_nodup : b.made.Nodup

namespace Reaches

variable {tree : DirTree α} {goal : List α} {b : Building α}

omit [DecidableEq α] in
/-- To reach a directory nothing has to be made. -/
theorem untouched (h : tree.dirs goal = true) : Reaches tree goal tree.untouched where
  dirs_iff node := ⟨Or.inl, fun hnode => hnode.elim id fun habove => tree.dirs_of_above habove h⟩
  files_eq := rfl
  made_iff node := by
    refine ⟨nofun, fun ⟨habove, hmissing⟩ => ?_⟩
    rw [tree.dirs_of_above habove h] at hmissing
    cases hmissing
  made_nodup := List.nodup_nil

/-- A second attempt changes nothing. -/
theorem stay (h : Reaches tree goal b) : b.mkdir goal true = b :=
  Building.mkdir_of_dirs ((h.dirs_iff goal).mpr (Or.inr (List.prefix_refl goal))) true

/-- One step further down. -/
theorem down (h : Reaches tree goal b) {a : α} (hfile : tree.files (goal ++ [a]) = false) :
    Reaches tree (goal ++ [a]) (b.mkdir (goal ++ [a]) true) := by
  have hgoal : b.tree.dirs goal = true := (h.dirs_iff goal).mpr (Or.inr (List.prefix_refl goal))
  have hnot : ¬ goal ++ [a] <+: goal := by
    intro habove
    have hlength := habove.length_le
    rw [List.length_append, List.length_singleton] at hlength
    omega
  have hsplit (node : List α) : node <+: goal ++ [a] ↔ node = goal ++ [a] ∨ node <+: goal := List.prefix_concat_iff
  cases hthere : tree.dirs (goal ++ [a]) with
  | true =>
    -- nothing is made, and nothing was missing
    have hdir : b.tree.dirs (goal ++ [a]) = true := (h.dirs_iff _).mpr (Or.inl hthere)
    rw [Building.mkdir_of_dirs hdir]
    refine ⟨fun node => ?_, h.files_eq, fun node => ?_, h.made_nodup⟩
    · rw [h.dirs_iff, hsplit]
      constructor
      · rintro (hnode | habove)
        · exact Or.inl hnode
        · exact Or.inr (Or.inr habove)
      · rintro (hnode | rfl | habove)
        · exact Or.inl hnode
        · exact Or.inl hthere
        · exact Or.inr habove
    · rw [h.made_iff, hsplit]
      constructor
      · exact fun ⟨habove, hmissing⟩ => ⟨Or.inr habove, hmissing⟩
      · rintro ⟨rfl | habove, hmissing⟩
        · rw [hthere] at hmissing
          cases hmissing
        · exact ⟨habove, hmissing⟩
  | false =>
    have hfree : b.tree.dirs (goal ++ [a]) = false := by
      rw [← Bool.not_eq_true, h.dirs_iff, hthere]
      exact fun hor => hor.elim (fun heq => Bool.false_ne_true heq) hnot
    have hcan : b.tree.CanMake (goal ++ [a]) := by
      refine ⟨?_, hfree, ?_⟩
      · rw [List.dropLast_concat]
        exact hgoal
      · rw [h.files_eq]
        exact hfile
    rw [Building.mkdir_of_canMake hcan]
    refine ⟨fun node => ?_, h.files_eq, fun node => ?_, List.nodup_cons.mpr ⟨fun hmem => ?_, h.made_nodup⟩⟩
    · show Function.update b.tree.dirs (goal ++ [a]) true node = true ↔ _
      rw [Function.update_apply, hsplit]
      by_cases heq : node = goal ++ [a]
      · simp [heq]
      · rw [if_neg heq, h.dirs_iff]
        simp [heq]
    · rw [List.mem_cons, h.made_iff, hsplit]
      by_cases heq : node = goal ++ [a]
      · simp [heq, hthere]
      · simp [heq]
    · exact hnot ((h.made_iff _).mp hmem).1

end Reaches

/-- A way down: each node is the one before it, or one step below it. -/
inductive Descent : List α → List (List α) → List α → Prop where
  | stop (node : List α) : Descent node [] node
  | stay {node goal : List α} {nodes : List (List α)} : Descent node nodes goal → Descent node (node :: nodes) goal
  | down {node goal : List α} {a : α} {nodes : List (List α)} :
      Descent (node ++ [a]) nodes goal → Descent node ((node ++ [a]) :: nodes) goal

omit [DecidableEq α] in
/-- It ends below where it starts. -/
theorem Descent.ends_below {node goal : List α} {nodes : List (List α)} (h : Descent node nodes goal) :
    node <+: goal := by
  induction h with
  | stop node => exact List.prefix_refl node
  | stay _ ih => exact ih
  | down _ ih => exact (List.prefix_append _ _).trans ih

/-- Making every node of a way down reaches its end, where no file stands in the way. -/
theorem Reaches.mkdirs {tree : DirTree α} {node goal : List α} {nodes : List (List α)} (hway : Descent node nodes goal)
    (hfiles : ∀ other, other <+: goal → tree.files other = false) {b : Building α} (h : Reaches tree node b) :
    Reaches tree goal (b.mkdirs nodes) := by
  induction hway generalizing b with
  | stop node => exact h
  | stay _ ih =>
    have hagain := ih hfiles h
    rw [Building.mkdirs, List.foldl_cons, h.stay]
    exact hagain
  | down hway ih => exact ih hfiles (h.down (hfiles _ hway.ends_below))

end DirTree
