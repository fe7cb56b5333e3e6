import Dropletfs.Entry
import Dropletfs.Library.CellStore

/-!
# Lists of cells

The functions of `list.c` that take cells out of a list. They walk along the list with a pointer
to the cell before the current one, relink that cell, and free the cell they take out with its
data. Each loop is given a number of passes; the lists it is run on end before they are used up.
-/

namespace Dropletfs

open CellStore

/-- The loop of `list_remove`. -/
def listRemoveLoop (fn : ℕ → Option ℕ → Bool) (data : ℕ) (orig : Option ℕ) :
    ℕ → Option ℕ → Option ℕ → Store → Exec (Option ℕ × Store)
  | 0, _, _, _ => .blocked
  | passes + 1, prev, ll, s =>
    if ll = none then .done (orig, s)
    else do
      let cell ← s.load ll
      if fn data cell.data then
        if ll = orig then
          let first ← s.load orig
          let s ← s.freeBlock first.data
          let s ← s.freeCell orig
          return (first.next, s)
        else
          let s ← s.setNext prev cell.next
          let cell ← s.load ll
          let s ← s.freeBlock cell.data
          let s ← s.freeCell ll
          return (orig, s)
      else listRemoveLoop fn data orig passes ll cell.next s

/-- `list_remove`. -/
def listRemove (passes : ℕ) (ll data : Option ℕ) (fn : ℕ → Option ℕ → Bool) (s : Store) :
    Exec (Option ℕ × Store) :=
  match data with
  | none => .done (ll, s)
  | some data => if ll = none then .done (none, s) else listRemoveLoop fn data ll passes ll ll s

/-- The loop of `list_remove_all`. -/
def listRemoveAllLoop (fn : ℕ → Option ℕ → Bool) (data : ℕ) :
    ℕ → Option ℕ → Option ℕ → Option ℕ → Store → Exec (Option ℕ × Option ℕ × Store)
  | 0, _, _, _, _ => .blocked
  | passes + 1, orig, prev, ll, s =>
    if ll = none then .done (orig, ll, s)
    else do
      let cell ← s.load ll
      if fn data cell.data then
        if orig = ll then
          let first ← s.load orig
          let s ← s.freeBlock first.data
          let s ← s.freeCell orig
          listRemoveAllLoop fn data passes first.next first.next first.next s
        else
          let tmp := ll
          let ll := cell.next
          let cell ← s.load tmp
          let s ← s.freeBlock cell.data
          let s ← s.freeCell tmp
          let s ← s.setNext prev ll
          listRemoveAllLoop fn data passes orig prev ll s
      else listRemoveAllLoop fn data passes orig ll cell.next s

/-- `list_remove_all`; what it does with an empty cell after its loop comes last. -/
def listRemoveAll (passes : ℕ) (ll data : Option ℕ) (fn : ℕ → Option ℕ → Bool) (s : Store) :
    Exec (Option ℕ × Store) :=
  match data with
  | none => .done (ll, s)
  | some data =>
    if ll = none then .done (none, s)
    else do
      let (orig, ll, s) ← listRemoveAllLoop fn data passes ll ll ll s
      if ll = none then return (orig, s)
      else
        let cell ← s.load ll
        if cell.data = none ∧ cell.next = none then
          let s ← s.freeCell ll
          return (orig, s)
        else return (orig, s)

/-- The condition under which the macro `__filter` drops a cell; `list_rfilter` negates the callback. -/
def drops (negated : Bool) (fn : ℕ → Bool) (data : Option ℕ) : Bool :=
  match data with
  | none => true
  | some data => fn data != negated

/-- The loop of the macro `__filter`. -/
def filterLoop (negated : Bool) (fn : ℕ → Bool) :
    ℕ → Option ℕ → Option ℕ → Option ℕ → Store → Exec (Option ℕ × Store)
  | 0, _, _, _, _ => .blocked
  | passes + 1, orig, prev, ll, s =>
    if ll = none then .done (orig, s)
    else do
      let cell ← s.load ll
      if drops negated fn cell.data then
        let tmp := ll
        let orig ← if tmp = orig then Cell.next <$> s.load orig else pure orig
        let s ← s.setNext prev cell.next
        let before ← s.load prev
        let ll := before.next
        let cell ← s.load tmp
        let s ← s.freeBlock cell.data
        let s ← s.freeCell tmp
        filterLoop negated fn passes orig prev ll s
      else filterLoop negated fn passes orig ll cell.next s

/-- The macro `__filter`. -/
def filterList (negated : Bool) (passes : ℕ) (ll : Option ℕ) (fn : ℕ → Bool) (s : Store) :
    Exec (Option ℕ × Store) :=
  if ll = none then .done (none, s) else filterLoop negated fn passes ll ll ll s

/-- `list_filter`. -/
def listFilter : ℕ → Option ℕ → (ℕ → Bool) → Store → Exec (Option ℕ × Store) := filterList false

/-- `list_rfilter`. -/
def listRfilter : ℕ → Option ℕ → (ℕ → Bool) → Store → Exec (Option ℕ × Store) := filterList true

section Removal

variable {fn : ℕ → Option ℕ → Bool} {data : ℕ}

/-- The cells that the callback takes as equal to the key. -/
def Matches (fn : ℕ → Option ℕ → Bool) (data : ℕ) (node : Node) : Bool := fn data node.data

/-- The loop of `list_remove` on the cells to come, when none of those passed was a match. -/
theorem listRemoveLoop_spec (passes : ℕ) {s : Store} {head prev here : Option ℕ} {front rest : List Node}
    (h : s.Within head front here rest) (hprev : ∀ last front', front = front' ++ [last] → prev = some last.addr)
    (hpasses : rest.length < passes) :
    ∃ ret s', listRemoveLoop fn data head passes prev here s = .done (ret, s') ∧
      s'.Holds ret (front ++ rest.eraseP (Matches fn data)) ∧
      s.Sheds s' (front ++ rest) (rest.find? (Matches fn data)).toList := by
  induction passes generalizing prev here front rest with
  | zero => omega
  | succ passes ih =>
    cases rest with
    | nil =>
      refine ⟨head, s, ?_, by simpa using h.holds, .refl ..⟩
      rw [listRemoveLoop, if_pos (show here = none from h.after)]
    | cons node rest =>
      obtain ⟨next, hload, hcell, hadvance⟩ := h.advance
      have hhere : here ≠ none := by
        rw [h.here_eq]
        exact Option.some_ne_none _
      rw [listRemoveLoop, if_neg hhere, hload]
      simp only [Exec.done_bind]
      by_cases hmatch : fn data node.data = true
      · rw [if_pos hmatch]
        have herase : (node :: rest).eraseP (Matches fn data) = rest := List.eraseP_cons_of_pos hmatch
        have hfind : (node :: rest).find? (Matches fn data) = some node := List.find?_cons_of_pos hmatch
        rw [herase, hfind]
        rcases front.eq_nil_or_concat' with rfl | ⟨front', last, rfl⟩
        · have hhead : here = head := h.before.symm
          refine ⟨next, s.drop node, ?_, (h.drop_first hcell).all, (Store.Sheds.refl s _).drop List.mem_cons_self⟩
          rw [if_pos hhead, ← hhead, hload]
          simp only [Exec.done_bind]
          rw [h.here_eq]
          exact Store.free_bind h.live_node (hcell ▸ rfl) fun s => pure (next, s)
        · refine ⟨head, (s.put last.addr ⟨last.data, next⟩).drop node, ?_, (h.drop_later hcell).all, ?_⟩
          · rw [if_neg h.here_ne_head, hprev last front' rfl, h.setNext_last]
            simp only [Exec.done_bind]
            rw [h.here_eq, Store.load_put_ne s _ h.node_ne_last, ← h.here_eq, hload]
            simp only [Exec.done_bind]
            rw [h.here_eq]
            refine Store.free_bind (s := s.put last.addr _) h.live_node ?_ fun s => pure (head, s)
            simp only [Store.put, Function.update_of_ne h.node_ne_last, hcell, Option.isSome_some]
          · exact ((Store.Sheds.refl s _).put (by simp) _).drop (by simp)
      · rw [if_neg hmatch]
        have herase : (node :: rest).eraseP (Matches fn data) = node :: rest.eraseP (Matches fn data) :=
          List.eraseP_cons_of_neg hmatch
        have hfind : (node :: rest).find? (Matches fn data) = rest.find? (Matches fn data) :=
          List.find?_cons_of_neg hmatch
        rw [herase, hfind]
        have hpassed : ∀ last front', front ++ [node] = front' ++ [last] → here = some last.addr :=
          fun _ _ heq => h.passed_eq heq
        obtain ⟨ret, s', hloop, hholds, hsheds⟩ := ih hadvance hpassed (by simpa using hpasses)
        rw [List.append_cons front node]
        exact ⟨ret, s', hloop, by simpa using hholds, by simpa using hsheds⟩

/-- The loop of `list_remove_all` on the cells to come, when the cells passed are all to be kept. -/
theorem listRemoveAllLoop_spec (passes : ℕ) {start s : Store} {head prev here : Option ℕ}
    {front rest nodes dropped : List Node} (h : s.Within head front here rest)
    (hprev : ∀ last front', front = front' ++ [last] → prev = some last.addr)
    (hsheds : start.Sheds s nodes dropped) (hsub : front ++ rest ⊆ nodes) (hpasses : rest.length < passes) :
    ∃ ret s', listRemoveAllLoop fn data passes head prev here s = .done (ret, none, s') ∧
      s'.Holds ret (front ++ rest.filter fun node => !Matches fn data node) ∧
      start.Sheds s' nodes (dropped ++ rest.filter (Matches fn data)) := by
  induction passes generalizing s head prev here front rest dropped with
  | zero => omega
  | succ passes ih =>
    cases rest with
    | nil =>
      have hend : here = none := h.after
      refine ⟨head, s, ?_, by simpa using h.holds, by simpa using hsheds⟩
      rw [listRemoveAllLoop, if_pos hend, hend]
    | cons node rest =>
      obtain ⟨next, hload, hcell, hadvance⟩ := h.advance
      have hhere : here ≠ none := by
        rw [h.here_eq]
        exact Option.some_ne_none _
      have hnode : node ∈ nodes := hsub (List.mem_append_right _ List.mem_cons_self)
      have hrest : front ++ rest ⊆ nodes := fun _ hmem => hsub
        ((List.Sublist.append_left (List.sublist_cons_self ..) _).subset hmem)
      have hlength : rest.length < passes := Nat.lt_of_succ_lt_succ hpasses
      rw [listRemoveAllLoop, if_neg hhere, hload]
      simp only [Exec.done_bind]
      by_cases hmatch : fn data node.data = true
      · rw [if_pos hmatch]
        have hkept : (node :: rest).filter (fun node => !Matches fn data node) =
            rest.filter fun node => !Matches fn data node := List.filter_cons_of_neg (by simp [Matches, hmatch])
        have hgone : (node :: rest).filter (Matches fn data) = node :: rest.filter (Matches fn data) :=
          List.filter_cons_of_pos hmatch
        rw [hkept, hgone, List.append_cons dropped]
        rcases front.eq_nil_or_concat' with rfl | ⟨front', last, rfl⟩
        · have hhead : head = here := h.before
          rw [if_pos hhead, hhead, hload]
          simp only [Exec.done_bind]
          rw [h.here_eq, Store.free_bind h.live_node (hcell ▸ rfl)]
          exact ih (h.drop_first hcell) (fun last front' heq => absurd heq (by simp)) (hsheds.drop hnode) hrest hlength
        · rw [if_neg (Ne.symm h.here_ne_head), hload, hprev last front' rfl]
          simp only [Exec.done_bind]
          rw [h.here_eq, Store.free_bind h.live_node (hcell ▸ rfl), h.drop_setNext_last]
          have hlast : last ∈ nodes := hsub (by simp)
          exact ih (h.drop_later hcell) (hprev last front' rfl ▸ hprev) ((hsheds.put hlast _).drop hnode) hrest hlength
      · rw [if_neg hmatch]
        have hkept : (node :: rest).filter (fun node => !Matches fn data node) =
            node :: rest.filter fun node => !Matches fn data node := List.filter_cons_of_pos (by simp [Matches, hmatch])
        have hgone : (node :: rest).filter (Matches fn data) = rest.filter (Matches fn data) :=
          List.filter_cons_of_neg hmatch
        rw [hkept, hgone, List.append_cons front]
        exact ih hadvance (fun _ _ heq => h.passed_eq heq) hsheds (by simpa using hsub) hlength

/-- `list_remove` on a well-formed list. -/
theorem listRemove_spec (fn : ℕ → Option ℕ → Bool) (data : ℕ) {s : Store} {ll : Option ℕ} {nodes : List Node}
    (h : s.Holds ll nodes) (passes : ℕ) (hpasses : nodes.length < passes) :
    ∃ ret s', listRemove passes ll (some data) fn s = .done (ret, s') ∧
      s'.Holds ret (nodes.eraseP fun node => fn data node.data) ∧
      s.Sheds s' nodes (nodes.find? fun node => fn data node.data).toList := by
  unfold listRemove
  simp only
  split
  · rename_i hnone
    subst hnone
    obtain rfl := h.eq_nil
    exact ⟨none, s, rfl, h, .refl ..⟩
  · exact listRemoveLoop_spec passes h.within (fun _ _ heq => absurd heq (by simp)) hpasses

/-- `list_remove_all` on a well-formed list; its loop ends at the null pointer, and nothing comes after it. -/
theorem listRemoveAll_spec (fn : ℕ → Option ℕ → Bool) (data : ℕ) {s : Store} {ll : Option ℕ} {nodes : List Node}
    (h : s.Holds ll nodes) (passes : ℕ) (hpasses : nodes.length < passes) :
    ∃ ret s', listRemoveAll passes ll (some data) fn s = .done (ret, s') ∧
      s'.Holds ret (nodes.filter fun node => !fn data node.data) ∧
      s.Sheds s' nodes (nodes.filter fun node => fn data node.data) := by
  unfold listRemoveAll
  simp only
  split
  · rename_i hnone
    subst hnone
    obtain rfl := h.eq_nil
    exact ⟨none, s, rfl, h, .refl ..⟩
  · obtain ⟨ret, s', hloop, hholds, hsheds⟩ := listRemoveAllLoop_spec passes h.within
      (fun _ _ heq => absurd heq (by simp)) (.refl s nodes) (List.Subset.refl _) hpasses
    refine ⟨ret, s', ?_, hholds, hsheds⟩
    rw [hloop]
    rfl

/-- Removing from a well-formed list: the cells that stay are in order, those that match are freed once, each
with its data, and nothing else is touched. `list_remove` takes out the first match, `list_remove_all` all. -/
theorem listRemove_exact (fn : ℕ → Option ℕ → Bool) (data : ℕ) (s : Store) (ll : Option ℕ) (nodes : List Node)
    (h : s.Holds ll nodes) (passes : ℕ) (hpasses : nodes.length < passes) :
    (∃ ret s', listRemove passes ll (some data) fn s = .done (ret, s') ∧
      s'.Holds ret (nodes.eraseP fun node => fn data node.data) ∧
      s.Sheds s' nodes (nodes.find? fun node => fn data node.data).toList) ∧
    ∃ ret s', listRemoveAll passes ll (some data) fn s = .done (ret, s') ∧
      s'.Holds ret (nodes.filter fun node => !fn data node.data) ∧
      s.Sheds s' nodes (nodes.filter fun node => fn data node.data) :=
  ⟨listRemove_spec fn data h passes hpasses, listRemoveAll_spec fn data h passes hpasses⟩

/-- Three cells with a block each. -/
def threeCells : Store where
  cells
    | 0 => some ⟨some 0, some 1⟩
    | 1 => some ⟨some 1, some 2⟩
    | 2 => some ⟨some 2, none⟩
    | _ => none
  blocks block := block < 3
  freedCells := []
  freedBlocks := []

/-- They are a well-formed list. -/
theorem threeCells_holds : threeCells.Holds (some 0) [⟨0, some 0⟩, ⟨1, some 1⟩, ⟨2, some 2⟩] where
  chain := ⟨rfl, some 1, rfl, rfl, some 2, rfl, rfl, none, rfl, rfl⟩
  owns := ⟨by decide, by decide, by decide⟩

/-- With a key that is equal to the last two, `list_remove` takes out the second and `list_remove_all` both. -/
theorem listRemove_three :
    (∃ ret s', listRemove 4 (some 0) (some 7) (fun _ data => data != some 0) threeCells = .done (ret, s') ∧
      s'.Holds ret [⟨0, some 0⟩, ⟨2, some 2⟩] ∧
      threeCells.Sheds s' [⟨0, some 0⟩, ⟨1, some 1⟩, ⟨2, some 2⟩] [⟨1, some 1⟩]) ∧
    ∃ ret s', listRemoveAll 4 (some 0) (some 7) (fun _ data => data != some 0) threeCells = .done (ret, s') ∧
      s'.Holds ret [⟨0, some 0⟩] ∧
      threeCells.Sheds s' [⟨0, some 0⟩, ⟨1, some 1⟩, ⟨2, some 2⟩] [⟨1, some 1⟩, ⟨2, some 2⟩] :=
  listRemove_exact (fun _ data => data != some 0) 7 threeCells (some 0) _ threeCells_holds 4 (by decide)

end Removal

section Filters

variable {negated : Bool} {fn : ℕ → Bool}

/-- A filter keeps a cell. -/
def KeepsCell (negated : Bool) (fn : ℕ → Bool) (node : Node) : Bool := !drops negated fn node.data

/-- A filter drops a cell. -/
def DropsCell (negated : Bool) (fn : ℕ → Bool) (node : Node) : Bool := drops negated fn node.data

/-- What a filter does to a list: it keeps some of the cells to come, and frees the others. -/
def Filters (negated : Bool) (fn : ℕ → Bool) (start : Store) (nodes front rest dropped : List Node)
    (result : Exec (Option ℕ × Store)) : Prop :=
  ∃ ret s', result = .done (ret, s') ∧ s'.Holds ret (front ++ rest.filter (KeepsCell negated fn)) ∧
    start.Sheds s' nodes (dropped ++ rest.filter (DropsCell negated fn))

/-- The loop of the macro once a cell was kept, the last of which is then before the current one. -/
theorem filterLoop_spec (passes : ℕ) {start s : Store} {head here : Option ℕ} {front rest nodes dropped : List Node}
    {last : Node} (h : s.Within head (front ++ [last]) here rest) (hsheds : start.Sheds s nodes dropped)
    (hsub : front ++ [last] ++ rest ⊆ nodes) (hpasses : rest.length < passes) :
    Filters negated fn start nodes (front ++ [last]) rest dropped
      (filterLoop negated fn passes head (some last.addr) here s) := by
  induction passes generalizing s head here front rest dropped last with
  | zero => omega
  | succ passes ih =>
    cases rest with
    | nil =>
      refine ⟨head, s, ?_, by simpa using h.holds, by simpa using hsheds⟩
      rw [filterLoop, if_pos (show here = none from h.after)]
    | cons node rest =>
      obtain ⟨next, hload, hcell, hadvance⟩ := h.advance
      have hhere : here ≠ none := by
        rw [h.here_eq]
        exact Option.some_ne_none _
      have hlength : rest.length < passes := Nat.lt_of_succ_lt_succ hpasses
      rw [filterLoop, if_neg hhere, hload]
      simp only [Exec.done_bind]
      by_cases hdrop : drops negated fn node.data = true
      · have hkept : (node :: rest).filter (KeepsCell negated fn) = rest.filter (KeepsCell negated fn) :=
          List.filter_cons_of_neg (by simp [KeepsCell, hdrop])
        have hgone : (node :: rest).filter (DropsCell negated fn) = node :: rest.filter (DropsCell negated fn) :=
          List.filter_cons_of_pos hdrop
        have hlast : last ∈ nodes := hsub (by simp)
        have hnode : node ∈ nodes := hsub (by simp)
        have hrest : front ++ [last] ++ rest ⊆ nodes := fun _ hmem => hsub
          ((List.Sublist.append_left (List.sublist_cons_self ..) _).subset hmem)
        have hread : (s.put last.addr ⟨last.data, next⟩).load here = .done ⟨node.data, next⟩ := by
          rw [h.here_eq, Store.load_put_ne s _ h.node_ne_last, ← h.here_eq, hload]
        have hput : ((s.put last.addr ⟨last.data, next⟩).cells node.addr).isSome = true := by
          simp only [Store.put, Function.update_of_ne h.node_ne_last, hcell, Option.isSome_some]
        rw [if_pos hdrop, if_neg h.here_ne_head, Exec.pure_eq_done, Exec.done_bind, h.setNext_last, Exec.done_bind,
          Store.load_put_self, Exec.done_bind, hread, Exec.done_bind, h.here_eq,
          Store.free_bind (s := s.put last.addr _) h.live_node hput]
        obtain ⟨ret, s', hloop, hholds, hshed⟩ :=
          ih (h.drop_later hcell) ((hsheds.put hlast _).drop hnode) hrest hlength
        exact ⟨ret, s', hloop, by rw [hkept]; exact hholds, by rw [hgone, List.append_cons dropped]; exact hshed⟩
      · have hkept : (node :: rest).filter (KeepsCell negated fn) = node :: rest.filter (KeepsCell negated fn) :=
          List.filter_cons_of_pos (by simp [KeepsCell, hdrop])
        have hgone : (node :: rest).filter (DropsCell negated fn) = rest.filter (DropsCell negated fn) :=
          List.filter_cons_of_neg hdrop
        rw [if_neg hdrop, h.here_eq]
        obtain ⟨ret, s', hloop, hholds, hshed⟩ := ih hadvance hsheds (by simpa using hsub) hlength
        exact ⟨ret, s', hloop, by rw [hkept, List.append_cons]; exact hholds, by rw [hgone]; exact hshed⟩

/-- A pass over a cell that is kept, whatever the pointer to the cell before it is. -/
theorem filterLoop_keep (passes : ℕ) {s : Store} {orig prev : Option ℕ} {node : Node} {next : Option ℕ}
    (hload : s.load (some node.addr) = .done ⟨node.data, next⟩) (hkeep : drops negated fn node.data = false) :
    filterLoop negated fn (passes + 1) orig prev (some node.addr) s =
      filterLoop negated fn passes orig (some node.addr) next s := by
  rw [filterLoop, if_neg (Option.some_ne_none _), hload, Exec.done_bind, hkeep]
  exact if_neg Bool.false_ne_true

/-- A pass over the first cell of a list, when it is dropped: the pointer to the cell before the current one is
left on what was freed. -/
theorem filterLoop_drop_head (passes : ℕ) {s : Store} {node : Node} {next : Option ℕ}
    (hcell : s.cells node.addr = some ⟨node.data, next⟩) (hlive : ∀ block ∈ node.data, s.blocks block = true)
    (hdrop : drops negated fn node.data = true) :
    filterLoop negated fn (passes + 1) (some node.addr) (some node.addr) (some node.addr) s =
      filterLoop negated fn passes next (some node.addr) next (s.drop node) := by
  have hload : s.load (some node.addr) = .done ⟨node.data, next⟩ := by rw [Store.load, Option.bind_some, hcell]
  have hset : s.setNext (some node.addr) next = .done (s.put node.addr ⟨node.data, next⟩) := by
    simp only [Store.setNext, hcell]
  have hput : (s.put node.addr ⟨node.data, next⟩).drop node = s.drop node := by
    simp only [Store.drop, Store.put, Function.update_idem]
  rw [filterLoop, if_neg (Option.some_ne_none _), hload, Exec.done_bind, if_pos hdrop, if_pos rfl]
  have hnext : (Cell.next <$> (Exec.done ⟨node.data, next⟩ : Exec Cell)) = .done next := rfl
  have hthere : ((s.put node.addr ⟨node.data, next⟩).cells node.addr).isSome = true := by
    simp only [Store.put, Function.update_self, Option.isSome_some]
  rw [hnext]
  simp only [Exec.done_bind, hset, Store.load_put_self]
  rw [Store.free_bind (s := s.put node.addr _) hlive hthere, hput]

/-- A pass over a cell to be dropped, when the pointer to the cell before it is left on what was freed. -/
theorem filterLoop_dangling (passes : ℕ) {s : Store} {addr : ℕ} {node : Node} {next : Option ℕ}
    (hcell : s.cells node.addr = some ⟨node.data, next⟩) (hfreed : s.cells addr = none)
    (hdrop : drops negated fn node.data = true) :
    filterLoop negated fn (passes + 1) (some node.addr) (some addr) (some node.addr) s = .undefined := by
  have hload : s.load (some node.addr) = .done ⟨node.data, next⟩ := by rw [Store.load, Option.bind_some, hcell]
  rw [filterLoop, if_neg (Option.some_ne_none _), hload, Exec.done_bind, if_pos hdrop, if_pos rfl]
  simp only [Store.setNext, hfreed]
  rfl

/-- The first two cells are both to be dropped. -/
def DropsTwo (negated : Bool) (fn : ℕ → Bool) (nodes : List Node) : Prop :=
  ∃ first second rest, nodes = first :: second :: rest ∧ drops negated fn first.data = true ∧
    drops negated fn second.data = true

/-- A filter is exact unless the first two cells are both to be dropped, when it writes the freed first one. -/
theorem filterList_exact_iff (negated : Bool) (fn : ℕ → Bool) {s : Store} {ll : Option ℕ} {nodes : List Node}
    (h : s.Holds ll nodes) (passes : ℕ) (hpasses : nodes.length < passes) :
    Filters negated fn s nodes [] nodes [] (filterList negated passes ll fn s) ↔ ¬ DropsTwo negated fn nodes := by
  cases nodes with
  | nil =>
    have hnil : ll = none := h.chain
    subst hnil
    refine ⟨fun _ ⟨_, _, _, heq, _⟩ => absurd heq (by simp), fun _ => ⟨none, s, ?_, h, .refl ..⟩⟩
    rw [filterList, if_pos rfl]
  | cons first rest =>
    obtain ⟨next, hload, hcell, hadvance⟩ := h.within.advance
    obtain rfl := h.within.here_eq
    obtain ⟨passes, rfl⟩ : ∃ n, passes = n + 1 := ⟨passes - 1, by omega⟩
    have hlength : rest.length < passes := Nat.lt_of_succ_lt_succ hpasses
    rw [filterList, if_neg (Option.some_ne_none _)]
    by_cases hfirst : drops negated fn first.data = true
    · -- the first cell is dropped
      have hsheds := (Store.Sheds.refl s (first :: rest)).drop List.mem_cons_self
      have hwithin := h.within.drop_first hcell
      have hgone : (first :: rest).filter (DropsCell negated fn) = first :: rest.filter (DropsCell negated fn) :=
        List.filter_cons_of_pos hfirst
      have hkept : (first :: rest).filter (KeepsCell negated fn) = rest.filter (KeepsCell negated fn) :=
        List.filter_cons_of_neg (by simp [KeepsCell, hfirst])
      rw [filterLoop_drop_head passes hcell h.within.live_node hfirst]
      rw [Filters, hkept, hgone]
      cases rest with
      | nil =>
        have hend : next = none := hwithin.after
        obtain ⟨passes, rfl⟩ : ∃ n, passes = n + 1 := ⟨passes - 1, by omega⟩
        have hloop : filterLoop negated fn (passes + 1) next (some first.addr) next (s.drop first) =
            .done (next, s.drop first) := by rw [filterLoop, if_pos hend]
        refine ⟨fun _ ⟨_, _, _, heq, _⟩ => absurd heq (by simp), fun _ => ?_⟩
        exact ⟨next, s.drop first, hloop, hwithin.holds, hsheds⟩
      | cons second rest =>
        obtain ⟨after, hload', hcell', hadvance'⟩ := hwithin.advance
        obtain rfl := hwithin.here_eq
        obtain ⟨passes, rfl⟩ : ∃ n, passes = n + 1 := ⟨passes - 1, by omega⟩
        by_cases hsecond : drops negated fn second.data = true
        · -- so is the second: the write goes to the freed first cell
          have hfreed : (s.drop first).cells first.addr = none := Function.update_self ..
          rw [filterLoop_dangling passes hcell' hfreed hsecond]
          refine ⟨?_, fun hnot => absurd ⟨first, second, rest, rfl, hfirst, hsecond⟩ hnot⟩
          rintro ⟨ret, s', hundefined, -⟩
          cases hundefined
        · -- the second is kept, and the pointer is back on a live cell
          rw [Bool.not_eq_true] at hsecond
          have hkept' : (second :: rest).filter (KeepsCell negated fn) = second :: rest.filter (KeepsCell negated fn) :=
            List.filter_cons_of_pos (by simp [KeepsCell, hsecond])
          have hgone' : (second :: rest).filter (DropsCell negated fn) = rest.filter (DropsCell negated fn) :=
            List.filter_cons_of_neg (by simp [DropsCell, hsecond])
          have hpassed : Store.Within _ _ ([] ++ [second]) after rest := hadvance'
          obtain ⟨ret, s', hloop, hholds, hshed⟩ := filterLoop_spec passes hpassed hsheds (by simp)
            (Nat.lt_of_succ_lt_succ hlength)
          rw [filterLoop_keep passes hload' hsecond, hkept', hgone']
          refine ⟨fun _ htwo => ?_, fun _ => ⟨ret, s', hloop, hholds, hshed⟩⟩
          obtain ⟨first', second', rest', heq, -, hdrop⟩ := htwo
          simp only [List.cons.injEq] at heq
          rw [← heq.2.1, hsecond] at hdrop
          cases hdrop
    · -- the first cell is kept, and the pointer to the cell before the current one is on a live cell
      rw [Bool.not_eq_true] at hfirst
      have hkept : (first :: rest).filter (KeepsCell negated fn) = first :: rest.filter (KeepsCell negated fn) :=
        List.filter_cons_of_pos (by simp [KeepsCell, hfirst])
      have hgone : (first :: rest).filter (DropsCell negated fn) = rest.filter (DropsCell negated fn) :=
        List.filter_cons_of_neg (by simp [DropsCell, hfirst])
      have hpassed : s.Within (some first.addr) ([] ++ [first]) next rest := hadvance
      obtain ⟨ret, s', hloop, hholds, hshed⟩ := filterLoop_spec passes hpassed (.refl s (first :: rest)) (by simp)
        hlength
      rw [filterLoop_keep passes hload hfirst, Filters, hkept, hgone]
      refine ⟨fun _ htwo => ?_, fun _ => ⟨ret, s', hloop, hholds, hshed⟩⟩
      obtain ⟨first', second', rest', heq, hdrop, -⟩ := htwo
      simp only [List.cons.injEq] at heq
      rw [← heq.1, hfirst] at hdrop
      cases hdrop

/-- What the two filters keep and drop, in terms of the callback. -/
theorem keeps_drops_eq (fn : ℕ → Bool) :
    (KeepsCell false fn = fun node => node.data.any fun data => !fn data) ∧
      (DropsCell false fn = fun node => node.data.all fn) ∧ (KeepsCell true fn = fun node => node.data.any fn) ∧
      DropsCell true fn = fun node => node.data.all fun data => !fn data := by
  refine ⟨?_, ?_, ?_, ?_⟩ <;> funext node <;> obtain ⟨addr, _ | data⟩ := node <;> simp [KeepsCell, DropsCell, drops]

/-- Each filter keeps the cells it should, frees each of the others once with its data and touches nothing else,
exactly when it does not drop the first two cells; what the two keep together are the cells with data. -/
theorem listFilter_exact_iff (fn : ℕ → Bool) (s : Store) (ll : Option ℕ) (nodes : List Node) (h : s.Holds ll nodes)
    (passes : ℕ) (hpasses : nodes.length < passes) :
    ((∃ ret s', listFilter passes ll fn s = .done (ret, s') ∧
        s'.Holds ret (nodes.filter fun node => node.data.any fun data => !fn data) ∧
        s.Sheds s' nodes (nodes.filter fun node => node.data.all fn)) ↔ ¬ DropsTwo false fn nodes) ∧
    ((∃ ret s', listRfilter passes ll fn s = .done (ret, s') ∧
        s'.Holds ret (nodes.filter fun node => node.data.any fn) ∧
        s.Sheds s' nodes (nodes.filter fun node => node.data.all fun data => !fn data)) ↔ ¬ DropsTwo true fn nodes) ∧
    ((nodes.filter fun node => node.data.any fun data => !fn data) ++
      nodes.filter fun node => node.data.any fn).Perm (nodes.filter fun node => node.data.isSome) := by
  obtain ⟨hkeep, hdrop, hkeep', hdrop'⟩ := keeps_drops_eq fn
  refine ⟨?_, ?_, ?_⟩
  · rw [← hkeep, ← hdrop]
    exact filterList_exact_iff false fn h passes hpasses
  · rw [← hkeep', ← hdrop']
    exact filterList_exact_iff true fn h passes hpasses
  · have hperm := List.filter_append_perm (fun node => node.data.any fun data => !fn data)
      (nodes.filter fun node => node.data.isSome)
    rw [List.filter_filter, List.filter_filter] at hperm
    refine (List.Perm.of_eq ?_).trans hperm
    congr 1 <;> refine List.filter_congr fun node _ => ?_ <;> obtain ⟨addr, _ | data⟩ := node <;> simp

/-- When both of the first two cells satisfy the callback, `list_filter` writes to the first after freeing it. -/
theorem filter_writes_freed :
    threeCells.Holds (some 0) [⟨0, some 0⟩, ⟨1, some 1⟩, ⟨2, some 2⟩] ∧
      listFilter 4 (some 0) (fun data => data < 2) threeCells = .undefined :=
  ⟨threeCells_holds, rfl⟩

/-- When only the first and the last do, it keeps the one between them. -/
theorem filter_ends :
    ∃ ret s', listFilter 4 (some 0) (fun data => data != 1) threeCells = .done (ret, s') ∧
      s'.Holds ret [⟨1, some 1⟩] ∧
      threeCells.Sheds s' [⟨0, some 0⟩, ⟨1, some 1⟩, ⟨2, some 2⟩] [⟨0, some 0⟩, ⟨2, some 2⟩] := by
  refine (listFilter_exact_iff (fun data => data != 1) threeCells (some 0) _ threeCells_holds 4 (by decide)).1.mpr ?_
  rintro ⟨first, second, rest, heq, -, hsecond⟩
  simp only [List.cons.injEq] at heq
  rw [← heq.2.1] at hsecond
  exact absurd hsecond (by decide)

end Filters

/-- `cb_compare_path`, for blocks that hold strings. -/
def cbComparePath (text : ℕ → CStr) (key : ℕ) (data : Option ℕ) : Bool := data.any fun block => text key == text block

/-- The strings of the cells of a list. -/
def texts (text : ℕ → CStr) (nodes : List Node) : List CStr := (owned nodes).map text

/-- Taking out the first cell with a string erases the string. -/
theorem texts_erase (text : ℕ → CStr) (path : CStr) (nodes : List Node) :
    texts text (nodes.eraseP fun node => node.data.any fun block => path == text block) =
      (texts text nodes).erase path := by
  induction nodes with
  | nil => rfl
  | cons node nodes ih =>
    unfold texts owned at ih ⊢
    cases hdata : node.data with
    | none =>
      have hno : (node.data.any fun block => path == text block) = false := by rw [hdata]; rfl
      rw [List.eraseP_cons_of_neg (by simp [hno]), List.filterMap_cons_none hdata, List.filterMap_cons_none hdata, ih]
    | some block =>
      rw [List.filterMap_cons_some hdata, List.map_cons]
      by_cases hsame : path = text block
      · have hyes : (node.data.any fun block => path == text block) = true := by simp [hdata, hsame]
        rw [List.eraseP_cons_of_pos (by simpa using hyes), hsame, List.erase_cons_head]
      · have hno : (node.data.any fun block => path == text block) = false := by simp [hdata, hsame]
        rw [List.eraseP_cons_of_neg (by simp [hno]), List.filterMap_cons_some hdata, List.map_cons, ih,
          List.erase_cons_tail (by simpa using Ne.symm hsame)]

/-- So does taking out the first one that compares as equal to a key. -/
theorem texts_eraseP (text : ℕ → CStr) (key : ℕ) (nodes : List Node) :
    texts text (nodes.eraseP fun node => cbComparePath text key node.data) = (texts text nodes).erase (text key) :=
  texts_erase text (text key) nodes

/-- `pentry_remove_dirent` on the cells of a directory: what is left are the cells of what it leaves in the entry. -/
theorem removeDirent_cells (text : ℕ → CStr) (key : ℕ) {s : Store} {ll : Option ℕ} {nodes : List Node} {pe : Pentry}
    (h : s.Holds ll nodes) (hdir : pe.filetype = some .dir) (hdirent : pe.dirent = texts text nodes) (junk : Filetype)
    (passes : ℕ) (hpasses : nodes.length < passes) :
    ∃ ret s' kept, listRemove passes ll (some key) (cbComparePath text) s = .done (ret, s') ∧ s'.Holds ret kept ∧
      (pe.removeDirent (text key) junk).dirent = texts text kept := by
  obtain ⟨ret, s', hcall, hholds, -⟩ := listRemove_spec (cbComparePath text) key h passes hpasses
  refine ⟨ret, s', _, hcall, hholds, ?_⟩
  rw [Pentry.removeDirent, if_pos (by rw [hdir]; rfl), texts_eraseP, hdirent]

end Dropletfs
