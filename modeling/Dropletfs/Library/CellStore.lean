import Dropletfs.Library.Exec
import Mathlib.Data.List.Nodup
import Mathlib.Logic.Function.Basic

/-!
# Linked cells in a store

A store holds cells, each with a pointer to a block of data and a pointer to the next cell.
Reading, writing or freeing what is not there is undefined. A list of nodes describes a chain of
cells; the rules say what walking along a chain and taking a cell out of it leave.
-/

namespace CellStore

/-- A cell: the block it owns, if any, and the next cell. -/
structure Cell where
  data : Option ℕ
  next : Option ℕ
  deriving DecidableEq, Repr

/-- The live cells, the live blocks, and what was freed so far. -/
structure Store where
  cells : ℕ → Option Cell
  blocks : ℕ → Bool
  freedCells : List ℕ
  freedBlocks : List ℕ

/-- A cell of a chain: its address and its data. -/
structure Node where
  addr : ℕ
  data : Option ℕ
  deriving DecidableEq, Repr

/-- The addresses of the cells of a chain. -/
def addrs (nodes : List Node) : List ℕ := nodes.map Node.addr

/-- The blocks that the cells of a chain own. -/
def owned (nodes : List Node) : List ℕ := nodes.filterMap Node.data

namespace Store

/-- Read the cell that a pointer leads to. -/
def load (s : Store) (pointer : Option ℕ) : Exec Cell :=
  match pointer.bind s.cells with
  | none => .undefined
  | some cell => .done cell

/-- Replace the cell at an address. -/
def put (s : Store) (addr : ℕ) (cell : Cell) : Store :=
  { s with cells := Function.update s.cells addr (some cell) }

/-- Write the pointer to the next cell. -/
def setNext (s : Store) (pointer next : Option ℕ) : Exec Store :=
  match pointer with
  | none => .undefined
  | some addr =>
    match s.cells addr with
    | none => .undefined
    | some cell => .done (s.put addr { cell with next := next })

/-- Free a cell; there is nothing to free behind a null pointer. -/
def freeCell (s : Store) (pointer : Option ℕ) : Exec Store :=
  match pointer with
  | none => .done s
  | some addr =>
    match s.cells addr with
    | none => .undefined
    | some _ =>
      .done { s with cells := Function.update s.cells addr none, freedCells := s.freedCells ++ [addr] }

/-- Free a block; there is nothing to free behind a null pointer. -/
def freeBlock (s : Store) (pointer : Option ℕ) : Exec Store :=
  match pointer with
  | none => .done s
  | some block =>
    if s.blocks block = false then .undefined
    else .done { s with blocks := Function.update s.blocks block false, freedBlocks := s.freedBlocks ++ [block] }

/-- The store without a cell and the block it owned. -/
def drop (s : Store) (node : Node) : Store where
  cells := Function.update s.cells node.addr none
  blocks := node.data.elim s.blocks fun block => Function.update s.blocks block false
  freedCells := s.freedCells ++ [node.addr]
  freedBlocks := s.freedBlocks ++ node.data.toList

/-- From one pointer, the cells of a chain lead to another. -/
def Segment (s : Store) (head : Option ℕ) : List Node → Option ℕ → Prop
  | [], tail => head = tail
  | node :: rest, tail =>
    head = some node.addr ∧ ∃ next, s.cells node.addr = some ⟨node.data, next⟩ ∧ s.Segment next rest tail

/-- The cells of a chain have different addresses, and own different blocks that are live. -/
structure Owns (s : Store) (nodes : List Node) : Prop where
  addrs : (addrs nodes).Nodup
  owned : (owned nodes).Nodup
  live : ∀ block ∈ CellStore.owned nodes, s.blocks block = true

/-- A well-formed list: a chain that ends with a null pointer. -/
structure Holds (s : Store) (head : Option ℕ) (nodes : List Node) : Prop where
  chain : s.Segment head nodes none
  owns : s.Owns nodes

/-- Some way along a well-formed list: the cells passed, and those to come from a pointer on. -/
structure Within (s : Store) (head : Option ℕ) (front : List Node) (here : Option ℕ) (rest : List Node) : Prop where
  before : s.Segment head front here
  after : s.Segment here rest none
  owns : s.Owns (front ++ rest)

/-- A store after some of the cells of a list were freed: each once, with the block it owned, and nothing
outside the list was touched. -/
structure Sheds (s s' : Store) (nodes dropped : List Node) : Prop where
  freedCells : s'.freedCells = s.freedCells ++ addrs dropped
  freedBlocks : s'.freedBlocks = s.freedBlocks ++ owned dropped
  cells : ∀ addr ∉ addrs nodes, s'.cells addr = s.cells addr
  blocks : ∀ block ∉ owned nodes, s'.blocks block = s.blocks block

section Segments

variable {s s' : Store} {head mid tail : Option ℕ} {nodes front rest : List Node}

/-- A chain of two parts. -/
theorem segment_append :
    s.Segment head (front ++ rest) tail ↔ ∃ mid, s.Segment head front mid ∧ s.Segment mid rest tail := by
  induction front generalizing head with
  | nil => simp only [List.nil_append, Segment, exists_eq_left']
  | cons node front ih =>
    simp only [List.cons_append, Segment, ih]
    constructor
    · rintro ⟨hhead, next, hcell, mid, hfront, hrest⟩
      exact ⟨mid, ⟨hhead, next, hcell, hfront⟩, hrest⟩
    · rintro ⟨mid, ⟨hhead, next, hcell, hfront⟩, hrest⟩
      exact ⟨hhead, next, hcell, mid, hfront, hrest⟩

/-- A chain is the same in a store with the same cells at its addresses. -/
theorem Segment.congr (h : s.Segment head nodes tail) (hcells : ∀ addr ∈ addrs nodes, s'.cells addr = s.cells addr) :
    s'.Segment head nodes tail := by
  induction nodes generalizing head with
  | nil => exact h
  | cons node nodes ih =>
    obtain ⟨hhead, next, hcell, hrest⟩ := h
    refine ⟨hhead, next, ?_, ih hrest fun addr hmem => hcells addr (List.mem_cons_of_mem _ hmem)⟩
    rw [hcells node.addr List.mem_cons_self, hcell]

/-- The last cell of a chain, when its pointer is written, leads elsewhere. -/
theorem Segment.relink {last : Node} (h : s.Segment head (front ++ [last]) mid)
    (hnodup : (addrs (front ++ [last])).Nodup) (next : Option ℕ) :
    (s.put last.addr ⟨last.data, next⟩).Segment head (front ++ [last]) next := by
  obtain ⟨mid', hfront, hhead, _⟩ := segment_append.mp h
  refine segment_append.mpr ⟨mid', hfront.congr fun addr hmem => ?_, hhead, next, Function.update_self .., rfl⟩
  apply Function.update_of_ne
  rintro rfl
  rw [addrs, List.map_append, List.nodup_append] at hnodup
  exact hnodup.2.2 _ hmem _ List.mem_cons_self rfl

end Segments

section Frees

variable {s : Store} {node : Node}

/-- Freeing the block of a cell and then the cell takes both out of the store. -/
theorem free_bind {α : Type} (hlive : ∀ block ∈ node.data, s.blocks block = true)
    (hcell : (s.cells node.addr).isSome = true) (k : Store → Exec α) :
    (s.freeBlock node.data >>= fun freed => freed.freeCell (some node.addr) >>= k) = k (s.drop node) := by
  obtain ⟨cell, hcell⟩ := Option.isSome_iff_exists.mp hcell
  cases hdata : node.data with
  | none => simp [freeBlock, freeCell, hcell, drop, hdata]
  | some block =>
    have hblock : s.blocks block = true := hlive block hdata
    simp [freeBlock, freeCell, hcell, drop, hdata, hblock]

/-- A cell that is not the one taken out stays. -/
theorem drop_cells_ne {addr : ℕ} (h : addr ≠ node.addr) : (s.drop node).cells addr = s.cells addr :=
  Function.update_of_ne h ..

/-- A block that the cell taken out does not own stays. -/
theorem drop_blocks_ne {block : ℕ} (h : node.data ≠ some block) : (s.drop node).blocks block = s.blocks block := by
  unfold drop
  cases hdata : node.data with
  | none => rfl
  | some own =>
    apply Function.update_of_ne
    rintro rfl
    exact h hdata

/-- Taking a cell out and writing another one can be done in either order. -/
theorem drop_put_comm {addr : ℕ} {cell : Cell} (h : addr ≠ node.addr) :
    (s.drop node).put addr cell = (s.put addr cell).drop node := by
  simp only [drop, put, Function.update_comm h]

end Frees

namespace Owns

variable {s : Store} {front rest : List Node} {node : Node}

/-- The block of a cell is live. -/
theorem live_node (h : s.Owns (front ++ node :: rest)) : ∀ block ∈ node.data, s.blocks block = true :=
  fun block hdata => h.live block (List.mem_filterMap.mpr
    ⟨node, List.mem_append_right _ List.mem_cons_self, hdata⟩)

/-- No other cell of the chain has its address. -/
theorem addr_ne (h : s.Owns (front ++ node :: rest)) : ∀ addr ∈ CellStore.addrs (front ++ rest), addr ≠ node.addr := by
  intro addr hmem heq
  have hnodup := h.addrs
  rw [CellStore.addrs, List.map_append, List.map_cons, List.nodup_middle, ← List.map_append,
    List.nodup_cons] at hnodup
  exact hnodup.1 (heq ▸ hmem)

/-- What is left of a chain owns its cells and blocks once one cell was taken out. -/
theorem drop (h : s.Owns (front ++ node :: rest)) : (s.drop node).Owns (front ++ rest) := by
  have hsub : (front ++ rest).Sublist (front ++ node :: rest) :=
    List.Sublist.append_left (List.sublist_cons_self ..) _
  refine ⟨h.addrs.sublist (hsub.map _), h.owned.sublist (hsub.filterMap _), fun block hmem => ?_⟩
  have hother : node.data ≠ some block := by
    intro hdata
    have hnodup := h.owned
    rw [CellStore.owned, List.filterMap_append, List.filterMap_cons_some hdata, List.nodup_middle,
      ← List.filterMap_append, List.nodup_cons] at hnodup
    exact hnodup.1 hmem
  rw [drop_blocks_ne hother]
  exact h.live block ((hsub.filterMap _).subset hmem)

/-- Writing a pointer to a next cell does not change what is owned. -/
theorem put (h : s.Owns rest) (addr : ℕ) (cell : Cell) : (s.put addr cell).Owns rest := ⟨h.addrs, h.owned, h.live⟩

end Owns

/-- At the start of a list, all cells are to come. -/
theorem Holds.within {s : Store} {head : Option ℕ} {nodes : List Node} (h : s.Holds head nodes) :
    s.Within head [] head nodes := ⟨rfl, h.chain, h.owns⟩

/-- A null pointer holds the empty list only. -/
theorem Holds.eq_nil {s : Store} {nodes : List Node} (h : s.Holds none nodes) : nodes = [] := by
  cases nodes with
  | nil => rfl
  | cons node nodes => cases h.chain.1

namespace Within

variable {s : Store} {head here : Option ℕ} {front rest : List Node} {node last : Node}

/-- At the end of a list, all cells were passed. -/
theorem holds (h : s.Within head front here []) : s.Holds head front :=
  ⟨h.after ▸ h.before, List.append_nil front ▸ h.owns⟩

/-- Passed and coming cells together are the list. -/
theorem all (h : s.Within head front here rest) : s.Holds head (front ++ rest) :=
  ⟨segment_append.mpr ⟨here, h.before, h.after⟩, h.owns⟩

/-- Before a cell, the pointer leads to it. -/
theorem here_eq (h : s.Within head front here (node :: rest)) : here = some node.addr := h.after.1

/-- Once it is passed, it is the last cell passed. -/
theorem passed_eq (h : s.Within head front here (node :: rest)) {front' : List Node}
    (heq : front ++ [node] = front' ++ [last]) : here = some last.addr := by
  obtain ⟨-, hlast⟩ := List.append_inj' heq rfl
  rw [h.here_eq, (List.cons.inj hlast).1]

/-- The block of that cell is live. -/
theorem live_node (h : s.Within head front here (node :: rest)) : ∀ block ∈ node.data, s.blocks block = true :=
  h.owns.live_node

/-- After the first cell, the pointer does not lead to it. -/
theorem here_ne_head (h : s.Within head (front ++ [last]) here (node :: rest)) : here ≠ head := by
  have hhead : ∃ first ∈ front ++ [last], head = some first.addr := by
    have hbefore := h.before
    cases front with
    | nil => exact ⟨last, List.mem_cons_self, hbefore.1⟩
    | cons first front => exact ⟨first, List.mem_cons_self, hbefore.1⟩
  obtain ⟨first, hmem, rfl⟩ := hhead
  rw [h.here_eq]
  intro heq
  refine h.owns.addr_ne first.addr ?_ (Option.some.inj heq).symm
  rw [addrs, List.map_append]
  exact List.mem_append_left _ (List.mem_map_of_mem hmem)

/-- The cell can be read, and passed. -/
theorem advance (h : s.Within head front here (node :: rest)) :
    ∃ next, s.load here = .done ⟨node.data, next⟩ ∧ s.cells node.addr = some ⟨node.data, next⟩ ∧
      s.Within head (front ++ [node]) next rest := by
  obtain ⟨hhere, next, hcell, hrest⟩ := h.after
  refine ⟨next, ?_, hcell, ?_, hrest, ?_⟩
  · rw [hhere, load, Option.bind_some, hcell]
  · exact segment_append.mpr ⟨here, h.before, hhere, next, hcell, rfl⟩
  · rw [List.append_assoc]
    exact h.owns

/-- The first cell of a list can be taken out. -/
theorem drop_first (h : s.Within head [] here (node :: rest)) {next : Option ℕ}
    (hcell : s.cells node.addr = some ⟨node.data, next⟩) : (s.drop node).Within next [] next rest := by
  obtain ⟨_, next', hcell', hrest⟩ := h.after
  rw [hcell, Option.some.injEq, Cell.mk.injEq] at hcell'
  obtain ⟨-, rfl⟩ := hcell'
  exact ⟨rfl, hrest.congr fun addr hmem => drop_cells_ne (h.owns.addr_ne addr hmem), h.owns.drop⟩

/-- A later cell can be taken out, when the one before it is made to lead past it. -/
theorem drop_later (h : s.Within head (front ++ [last]) here (node :: rest)) {next : Option ℕ}
    (hcell : s.cells node.addr = some ⟨node.data, next⟩) :
    ((s.put last.addr ⟨last.data, next⟩).drop node).Within head (front ++ [last]) next rest := by
  obtain ⟨_, next', hcell', hrest⟩ := h.after
  rw [hcell, Option.some.injEq, Cell.mk.injEq] at hcell'
  obtain ⟨-, rfl⟩ := hcell'
  have hne := h.owns.addr_ne
  have hlast : ∀ addr ∈ addrs rest, addr ≠ last.addr := by
    have hnodup := h.owns.addrs
    intro addr hmem heq
    rw [CellStore.addrs, List.map_append, List.nodup_append] at hnodup
    exact hnodup.2.2 last.addr (List.mem_map_of_mem (List.mem_append_right _ List.mem_cons_self)) addr
      (List.mem_cons_of_mem _ hmem) heq.symm
  refine ⟨?_, ?_, (h.owns.put ..).drop⟩
  · have hnodup : (addrs (front ++ [last])).Nodup :=
      h.owns.addrs.sublist ((List.sublist_append_left _ _).map _)
    refine (h.before.relink hnodup next).congr fun addr hmem => drop_cells_ne (hne addr ?_)
    rw [addrs, List.map_append]
    exact List.mem_append_left _ hmem
  · refine hrest.congr fun addr hmem => ?_
    have hmem' : addr ∈ addrs (front ++ [last] ++ rest) := by
      rw [addrs, List.map_append]
      exact List.mem_append_right _ hmem
    rw [drop_cells_ne (hne addr hmem')]
    exact Function.update_of_ne (hlast addr hmem) ..

/-- The last cell passed is there to be written. -/
theorem last_cell (h : s.Within head (front ++ [last]) here rest) :
    s.cells last.addr = some ⟨last.data, here⟩ := by
  obtain ⟨mid, -, -, next, hcell, rfl⟩ := segment_append.mp h.before
  exact hcell

/-- Its pointer can be written. -/
theorem setNext_last (h : s.Within head (front ++ [last]) here rest) (next : Option ℕ) :
    s.setNext (some last.addr) next = .done (s.put last.addr ⟨last.data, next⟩) := by
  simp only [setNext, h.last_cell]

/-- The current cell is another one than the last cell passed. -/
theorem node_ne_last (h : s.Within head (front ++ [last]) here (node :: rest)) : node.addr ≠ last.addr := by
  refine (h.owns.addr_ne last.addr ?_).symm
  rw [addrs, List.map_append]
  exact List.mem_append_left _ (List.mem_map_of_mem (List.mem_append_right _ List.mem_cons_self))

/-- Its pointer can be written after the current cell was taken out. -/
theorem drop_setNext_last (h : s.Within head (front ++ [last]) here (node :: rest)) (next : Option ℕ) :
    (s.drop node).setNext (some last.addr) next = .done ((s.put last.addr ⟨last.data, next⟩).drop node) := by
  have hcell : (s.drop node).cells last.addr = some ⟨last.data, here⟩ := by
    rw [drop_cells_ne h.node_ne_last.symm, h.last_cell]
  simp only [setNext, hcell, drop_put_comm h.node_ne_last.symm]

end Within

/-- A read gives the cell that was written. -/
theorem load_put_self (s : Store) (addr : ℕ) (cell : Cell) : (s.put addr cell).load (some addr) = .done cell := by
  simp only [load, Option.bind_some, put, Function.update_self]

/-- A read is not affected by writing another cell. -/
theorem load_put_ne (s : Store) {addr other : ℕ} (cell : Cell) (h : other ≠ addr) :
    (s.put addr cell).load (some other) = s.load (some other) := by
  simp only [load, Option.bind_some, put, Function.update_of_ne h]

namespace Sheds

variable {s s' : Store} {nodes dropped : List Node} {node : Node}

/-- Nothing was freed yet. -/
theorem refl (s : Store) (nodes : List Node) : s.Sheds s nodes [] :=
  ⟨(List.append_nil _).symm, (List.append_nil _).symm, fun _ _ => rfl, fun _ _ => rfl⟩

/-- Writing a cell of the list frees nothing. -/
theorem put (h : s.Sheds s' nodes dropped) (hmem : node ∈ nodes) (cell : Cell) :
    s.Sheds (s'.put node.addr cell) nodes dropped where
  freedCells := h.freedCells
  freedBlocks := h.freedBlocks
  cells addr houtside := by
    have hne : addr ≠ node.addr := fun heq => houtside (heq ▸ List.mem_map_of_mem hmem)
    exact (Function.update_of_ne hne ..).trans (h.cells addr houtside)
  blocks := h.blocks

/-- One more cell of the list was taken out. -/
theorem drop (h : s.Sheds s' nodes dropped) (hmem : node ∈ nodes) :
    s.Sheds (s'.drop node) nodes (dropped ++ [node]) where
  freedCells := by
    rw [addrs, List.map_append, ← List.append_assoc]
    exact congrArg (· ++ [node.addr]) h.freedCells
  freedBlocks := by
    rw [owned, List.filterMap_append, ← List.append_assoc]
    have hnode : List.filterMap Node.data [node] = node.data.toList := by
      cases hdata : node.data <;> simp [hdata]
    rw [hnode]
    exact congrArg (· ++ node.data.toList) h.freedBlocks
  cells addr houtside := by
    have hne : addr ≠ node.addr := fun heq => houtside (heq ▸ List.mem_map_of_mem hmem)
    exact (drop_cells_ne hne).trans (h.cells addr houtside)
  blocks block houtside := by
    have hne : node.data ≠ some block := fun hdata => houtside (List.mem_filterMap.mpr ⟨node, hmem, hdata⟩)
    exact (drop_blocks_ne hne).trans (h.blocks block houtside)

end Sheds

end Store

end CellStore
