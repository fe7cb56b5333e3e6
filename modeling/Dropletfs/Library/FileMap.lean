import Dropletfs.Library.Overlay
import Mathlib.Logic.Function.Basic

/-!
# Plain files

A plain file system has neither caches nor descriptors: each name has a content or none, and a
change takes effect at once. What a change leaves under a name depends on that name and, for a
copy, on the name copied from.
-/

namespace FileMap

variable {κ α : Type*} [DecidableEq κ]

/-- The contents by name. -/
abbrev Files (κ α : Type*) := κ → Option (List α)

/-- What can be done to a plain file system. -/
inductive Change (κ α : Type*) where
  | empty (name : κ)
  | write (name : κ) (offset : ℕ) (data : List α)
  | copy (old new : κ)
  | remove (name : κ)

namespace Change

/-- The name that a change is about. -/
def target : Change κ α → κ
  | empty name => name
  | write name _ _ => name
  | copy _ new => new
  | remove name => name

/-- The content that a change leaves under its name. -/
def leaves (hole : α) (files : Files κ α) : Change κ α → Option (List α)
  | empty _ => some []
  | write name offset data => (files name).map fun content => Overlay.writeAt hole content offset data
  | copy old _ => files old
  | remove _ => none

/-- The files after a change. -/
def apply (hole : α) (files : Files κ α) (change : Change κ α) : Files κ α :=
  Function.update files change.target (change.leaves hole files)

/-- A copy into a set of names takes what it copies from that set. -/
def Within (P : κ → Prop) : Change κ α → Prop
  | copy old new => P new → P old
  | _ => True

end Change

/-- The files after some changes, in order. -/
def applyAll (hole : α) (files : Files κ α) (changes : List (Change κ α)) : Files κ α :=
  changes.foldl (Change.apply hole) files

variable {hole : α} {files files' : Files κ α} {P : κ → Prop} {name : κ}

/-- A change leaves the other names alone. -/
theorem Change.apply_ne {change : Change κ α} (h : name ≠ change.target) :
    change.apply hole files name = files name := Function.update_of_ne h ..

/-- A change is seen under its name. -/
theorem Change.apply_target (hole : α) (files : Files κ α) (change : Change κ α) :
    change.apply hole files change.target = change.leaves hole files := Function.update_self ..

/-- Nothing is changed by no changes. -/
@[simp] theorem applyAll_nil (hole : α) (files : Files κ α) : applyAll hole files [] = files := rfl

/-- The first change is made before the others. -/
@[simp] theorem applyAll_cons (hole : α) (files : Files κ α) (change : Change κ α) (changes : List (Change κ α)) :
    applyAll hole files (change :: changes) = applyAll hole (change.apply hole files) changes := rfl

/-- Some changes are made before others. -/
theorem applyAll_append (hole : α) (files : Files κ α) (changes changes' : List (Change κ α)) :
    applyAll hole files (changes ++ changes') = applyAll hole (applyAll hole files changes) changes' :=
  List.foldl_append ..

/-- A name that no change is about keeps its content. -/
theorem applyAll_ne {changes : List (Change κ α)} (h : ∀ change ∈ changes, name ≠ change.target) :
    applyAll hole files changes name = files name := by
  induction changes generalizing files with
  | nil => rfl
  | cons change changes ih =>
    rw [applyAll_cons, ih fun other hmem => h other (List.mem_cons_of_mem _ hmem)]
    exact Change.apply_ne (h change List.mem_cons_self)

/-- Files that agree on a set of names agree on it after a change that copies nothing into it from elsewhere. -/
theorem Change.apply_congr {change : Change κ α} (hwithin : change.Within P)
    (h : ∀ name, P name → files name = files' name) (hname : P name) :
    change.apply hole files name = change.apply hole files' name := by
  by_cases htarget : name = change.target
  · subst htarget
    simp only [Change.apply, Function.update_self]
    cases change with
    | empty | remove => rfl
    | write other => exact congrArg (Option.map _) (h other hname)
    | copy old => exact h old (hwithin hname)
  · rw [Change.apply_ne htarget, Change.apply_ne htarget, h name hname]

/-- So they do after any number of such changes. -/
theorem applyAll_congr {changes : List (Change κ α)} (hwithin : ∀ change ∈ changes, change.Within P)
    (h : ∀ name, P name → files name = files' name) (hname : P name) :
    applyAll hole files changes name = applyAll hole files' changes name := by
  induction changes generalizing files files' with
  | nil => exact h name hname
  | cons change changes ih =>
    rw [applyAll_cons, applyAll_cons]
    exact ih (fun other hmem => hwithin other (List.mem_cons_of_mem _ hmem))
      fun other hother => Change.apply_congr (hwithin change List.mem_cons_self) h hother

end FileMap
