import Dropletfs.Library.CellStore

/-!
# Many lists in one store

Several lists live in one store, each reached from a pointer of its own. They share no cell and
no block, and every live cell belongs to one of them. A live block either belongs to a cell or
is stray: it was allocated, but never got a cell. Putting a cell in front of a list and taking
cells out of one keep it that way.
-/

namespace CellStore.Store

/-- The store with one more block. -/
def newBlock (s : Store) (block : ℕ) : Store := { s with blocks := Function.update s.blocks block true }

/-- Write the pointer to the data. -/
def setData (s : Store) (pointer data : Option ℕ) : Exec Store :=
  match pointer with
  | none => .undefined
  | some addr =>
    match s.cells addr with
    | none => .undefined
    | some cell => .done (s.put addr { cell with data := data })

/-- Go along a list and look at the data of each cell, in a given number of passes. -/
def walk {α : Type} (visit : α → Option ℕ → α) : ℕ → Option ℕ → α → Store → Exec α
  | 0, _, _, _ => .blocked
  | passes + 1, pointer, seen, s =>
    if pointer = none then .done seen
    else do
      let cell ← s.load pointer
      walk visit passes cell.next (visit seen cell.data) s

/-- What was freed since is not live. -/
structure Buries (s s' : Store) : Prop where
  cells : ∃ addrs, s'.freedCells = s.freedCells ++ addrs ∧ ∀ addr ∈ addrs, s'.cells addr = none
  blocks : ∃ blocks, s'.freedBlocks = s.freedBlocks ++ blocks ∧ ∀ block ∈ blocks, s'.blocks block = false

namespace Buries

variable {s s₁ s' : Store} {pointer : Option ℕ}

/-- Nothing was freed. -/
theorem refl (s : Store) : s.Buries s where
  cells := ⟨[], (List.append_nil _).symm, fun _ h => absurd h List.not_mem_nil⟩
  blocks := ⟨[], (List.append_nil _).symm, fun _ h => absurd h List.not_mem_nil⟩

/-- A live cell was written. -/
theorem put (h : s.Buries s₁) {addr : ℕ} (hlive : (s₁.cells addr).isSome = true) (cell : Cell) :
    s.Buries (s₁.put addr cell) where
  cells := by
    obtain ⟨addrs, hfreed, hdead⟩ := h.cells
    refine ⟨addrs, hfreed, fun other hmem => ?_⟩
    have hne : other ≠ addr := by
      rintro rfl
      rw [hdead other hmem] at hlive
      cases hlive
    exact (Function.update_of_ne hne ..).trans (hdead other hmem)
  blocks := h.blocks

/-- A pointer to a next cell was written. -/
theorem setNext (h : s.Buries s₁) {next : Option ℕ} (hcall : s₁.setNext pointer next = .done s') : s.Buries s' := by
  cases pointer with
  | none => cases hcall
  | some addr =>
    cases hcell : s₁.cells addr with
    | none =>
      simp only [Store.setNext, hcell] at hcall
      cases hcall
    | some cell =>
      simp only [Store.setNext, hcell] at hcall
      obtain rfl := Exec.done.inj hcall
      exact h.put (by rw [hcell]; rfl) _

/-- A pointer to the data was written. -/
theorem setData (h : s.Buries s₁) {data : Option ℕ} (hcall : s₁.setData pointer data = .done s') : s.Buries s' := by
  cases pointer with
  | none => cases hcall
  | some addr =>
    cases hcell : s₁.cells addr with
    | none =>
      simp only [Store.setData, hcell] at hcall
      cases hcall
    | some cell =>
      simp only [Store.setData, hcell] at hcall
      obtain rfl := Exec.done.inj hcall
      exact h.put (by rw [hcell]; rfl) _

/-- A cell was freed. -/
theorem freeCell (h : s.Buries s₁) (hcall : s₁.freeCell pointer = .done s') : s.Buries s' := by
  cases pointer with
  | none =>
    obtain rfl := Exec.done.inj hcall
    exact h
  | some addr =>
    cases hcell : s₁.cells addr with
    | none =>
      simp only [Store.freeCell, hcell] at hcall
      cases hcall
    | some cell =>
      simp only [Store.freeCell, hcell] at hcall
      obtain rfl := Exec.done.inj hcall
      obtain ⟨addrs, hfreed, hdead⟩ := h.cells
      refine ⟨⟨addrs ++ [addr], ?_, fun other hmem => ?_⟩, h.blocks⟩
      · rw [← List.append_assoc, ← hfreed]
      · by_cases heq : other = addr
        · rw [heq]
          exact Function.update_self ..
        · have hbefore : other ∈ addrs := (List.mem_append.mp hmem).resolve_right fun hlast =>
            heq (List.mem_singleton.mp hlast)
          exact (Function.update_of_ne heq ..).trans (hdead other hbefore)

/-- A block was freed. -/
theorem freeBlock (h : s.Buries s₁) (hcall : s₁.freeBlock pointer = .done s') : s.Buries s' := by
  cases pointer with
  | none =>
    obtain rfl := Exec.done.inj hcall
    exact h
  | some block =>
    simp only [Store.freeBlock] at hcall
    split at hcall
    · cases hcall
    · obtain rfl := Exec.done.inj hcall
      obtain ⟨blocks, hfreed, hdead⟩ := h.blocks
      refine ⟨h.cells, ⟨blocks ++ [block], ?_, fun other hmem => ?_⟩⟩
      · rw [← List.append_assoc, ← hfreed]
      · by_cases heq : other = block
        · rw [heq]
          exact Function.update_self ..
        · have hbefore : other ∈ blocks := (List.mem_append.mp hmem).resolve_right fun hlast =>
            heq (List.mem_singleton.mp hlast)
          exact (Function.update_of_ne heq ..).trans (hdead other hbefore)

/-- The cells that were taken out of a list are not live. -/
theorem dropped_cells {nodes dropped : List Node} (h : s.Buries s') (hsheds : s.Sheds s' nodes dropped) :
    ∀ addr ∈ addrs dropped, s'.cells addr = none := by
  obtain ⟨freed, hfreed, hdead⟩ := h.cells
  rw [hsheds.freedCells, List.append_cancel_left_eq] at hfreed
  exact hfreed ▸ hdead

/-- Nor are the blocks that they owned. -/
theorem dropped_blocks {nodes dropped : List Node} (h : s.Buries s') (hsheds : s.Sheds s' nodes dropped) :
    ∀ block ∈ owned dropped, s'.blocks block = false := by
  obtain ⟨freed, hfreed, hdead⟩ := h.blocks
  rw [hsheds.freedBlocks, List.append_cancel_left_eq] at hfreed
  exact hfreed ▸ hdead

end Buries

/-- A family of lists in one store, and the stray blocks. -/
structure Family {ι : Type*} (s : Store) (head : ι → Option ℕ) (nodes : ι → List Node) (stray : List ℕ) : Prop where
  holds : ∀ i, s.Holds (head i) (nodes i)
  cellsApart : ∀ i j, i ≠ j → ∀ addr ∈ addrs (nodes i), addr ∉ addrs (nodes j)
  blocksApart : ∀ i j, i ≠ j → ∀ block ∈ owned (nodes i), block ∉ owned (nodes j)
  cells : ∀ addr, (s.cells addr).isSome = true → ∃ i, addr ∈ addrs (nodes i)
  blocks : ∀ block, s.blocks block = true → block ∈ stray ∨ ∃ i, block ∈ owned (nodes i)
  strayLive : ∀ block ∈ stray, s.blocks block = true
  strayApart : ∀ block ∈ stray, ∀ i, block ∉ owned (nodes i)

section Frames

variable {s s' : Store} {head : Option ℕ} {nodes other dropped kept : List Node}

/-- The cells of a list are live. -/
theorem Segment.live {tail : Option ℕ} (h : s.Segment head nodes tail) :
    ∀ addr ∈ addrs nodes, (s.cells addr).isSome = true := by
  induction nodes generalizing head with
  | nil => exact fun _ hmem => absurd hmem List.not_mem_nil
  | cons node nodes ih =>
    obtain ⟨-, next, hcell, hrest⟩ := h
    intro addr hmem
    rcases List.mem_cons.mp hmem with rfl | hmem
    · rw [hcell]
      rfl
    · exact ih hrest addr hmem

/-- The first cell of a list can be read. -/
theorem Segment.load_cons {node : Node} {tail : Option ℕ} (h : s.Segment head (node :: nodes) tail) :
    ∃ next, head = some node.addr ∧ s.load head = .done ⟨node.data, next⟩ ∧ s.Segment next nodes tail := by
  obtain ⟨rfl, next, hcell, hrest⟩ := h
  exact ⟨next, rfl, by simp only [load, Option.bind_some, hcell], hrest⟩

/-- A walk visits the cells of a list in order. -/
theorem Segment.walk {α : Type} (visit : α → Option ℕ → α) (h : s.Segment head nodes none) {passes : ℕ}
    (hpasses : nodes.length < passes) (seen : α) :
    s.walk visit passes head seen = .done (nodes.foldl (fun seen node => visit seen node.data) seen) := by
  induction nodes generalizing head passes seen with
  | nil =>
    obtain ⟨passes, rfl⟩ := Nat.exists_eq_succ_of_ne_zero (Nat.ne_of_gt hpasses)
    rw [Store.walk, if_pos (show head = none from h)]
    rfl
  | cons node nodes ih =>
    obtain ⟨passes, rfl⟩ := Nat.exists_eq_succ_of_ne_zero (Nat.ne_of_gt (Nat.zero_lt_of_lt hpasses))
    obtain ⟨next, rfl, hload, hrest⟩ := h.load_cons
    rw [Store.walk, if_neg (Option.some_ne_none _), hload, Exec.done_bind, List.foldl_cons]
    exact ih hrest (Nat.lt_of_succ_lt_succ hpasses) _

/-- A list is still held where its cells are the same and its blocks are live. -/
theorem Holds.frame (h : s.Holds head nodes) (hcells : ∀ addr ∈ addrs nodes, s'.cells addr = s.cells addr)
    (hblocks : ∀ block ∈ owned nodes, s'.blocks block = s.blocks block) : s'.Holds head nodes where
  chain := h.chain.congr hcells
  owns := ⟨h.owns.addrs, h.owns.owned, fun block hmem => (hblocks block hmem).trans (h.owns.live block hmem)⟩

/-- A cell is put in front of a list. -/
theorem Holds.push (h : s.Holds head nodes) {addr block : ℕ} (hcell : s.cells addr = none)
    (hblock : s.blocks block = true) (hfresh : block ∉ owned nodes) :
    (s.put addr ⟨some block, head⟩).Holds (some addr) (⟨addr, some block⟩ :: nodes) where
  chain := by
    refine ⟨rfl, head, Function.update_self .., h.chain.congr fun other hmem => Function.update_of_ne ?_ ..⟩
    rintro rfl
    have hlive := h.chain.live _ hmem
    rw [hcell] at hlive
    cases hlive
  owns := by
    refine ⟨List.nodup_cons.mpr ⟨fun hmem => ?_, h.owns.addrs⟩, List.nodup_cons.mpr ⟨hfresh, h.owns.owned⟩, ?_⟩
    · have hlive := h.chain.live _ hmem
      rw [hcell] at hlive
      cases hlive
    · intro other hmem
      rcases List.mem_cons.mp hmem with rfl | hmem
      · exact hblock
      · exact h.owns.live other hmem

end Frames

/-- A store with nothing in it. -/
def empty : Store := ⟨fun _ => none, fun _ => false, [], []⟩

namespace Family

variable {ι : Type*} {s s' : Store} {head : ι → Option ℕ} {nodes : ι → List Node} {stray : List ℕ}

/-- In the empty store every list is empty. -/
theorem start : empty.Family (fun _ : ι => none) (fun _ => []) [] where
  holds _ := ⟨rfl, List.nodup_nil, List.nodup_nil, fun _ hmem => absurd hmem List.not_mem_nil⟩
  cellsApart _ _ _ _ hmem := absurd hmem List.not_mem_nil
  blocksApart _ _ _ _ hmem := absurd hmem List.not_mem_nil
  cells _ hlive := absurd hlive Bool.false_ne_true
  blocks _ hlive := absurd hlive Bool.false_ne_true
  strayLive _ hmem := absurd hmem List.not_mem_nil
  strayApart _ hmem := absurd hmem List.not_mem_nil

/-- A block that belongs to a list is live. -/
theorem live_block (h : s.Family head nodes stray) {i : ι} {block : ℕ} (hmem : block ∈ owned (nodes i)) :
    s.blocks block = true := (h.holds i).owns.live block hmem

/-- A new block is stray at first. -/
theorem newBlock (h : s.Family head nodes stray) {block : ℕ} (hfree : s.blocks block = false) :
    (s.newBlock block).Family head nodes (block :: stray) := by
  have hfresh : ∀ i, block ∉ owned (nodes i) := fun i hmem => by
    rw [h.live_block hmem] at hfree
    cases hfree
  have hblocks : ∀ other, other ≠ block → (s.newBlock block).blocks other = s.blocks other :=
    fun other hne => Function.update_of_ne hne ..
  have hstray : ∀ other ∈ stray, other ≠ block := by
    rintro other hmem rfl
    rw [h.strayLive other hmem] at hfree
    cases hfree
  constructor
  case holds =>
    intro i
    refine (h.holds i).frame (fun _ _ => rfl) fun other hmem => hblocks other ?_
    rintro rfl
    exact hfresh i hmem
  case cellsApart => exact h.cellsApart
  case blocksApart => exact h.blocksApart
  case cells => exact h.cells
  case blocks =>
    intro other hlive
    by_cases heq : other = block
    · exact Or.inl (heq ▸ List.mem_cons_self)
    · rw [hblocks other heq] at hlive
      exact (h.blocks other hlive).imp_left (List.mem_cons_of_mem _)
  case strayLive =>
    intro other hmem
    rcases List.mem_cons.mp hmem with rfl | hmem
    · exact Function.update_self ..
    · rw [hblocks other (hstray other hmem)]
      exact h.strayLive other hmem
  case strayApart =>
    intro other hmem
    rcases List.mem_cons.mp hmem with rfl | hmem
    · exact hfresh
    · exact h.strayApart other hmem

variable [DecidableEq ι] {i : ι}

/-- A cell for a stray block is put in front of a list. -/
theorem push {block addr : ℕ} (h : s.Family head nodes (block :: stray)) (hnew : block ∉ stray)
    (hcell : s.cells addr = none) (i : ι) :
    (s.put addr ⟨some block, head i⟩).Family (Function.update head i (some addr))
      (Function.update nodes i (⟨addr, some block⟩ :: nodes i)) stray := by
  have hunused : ∀ j, addr ∉ addrs (nodes j) := fun j hmem => by
    have hlive := (h.holds j).chain.live addr hmem
    rw [hcell] at hlive
    cases hlive
  have hunowned := h.strayApart block List.mem_cons_self
  have haddrs : ∀ j other, other ∈ addrs (Function.update nodes i (⟨addr, some block⟩ :: nodes i) j) ↔
      other ∈ addrs (nodes j) ∨ j = i ∧ other = addr := by
    intro j other
    by_cases hj : j = i
    · subst hj
      simp only [Function.update_self, addrs, List.map_cons, List.mem_cons, true_and]
      exact or_comm
    · simp only [Function.update_of_ne hj, hj, false_and, or_false]
  have howned : ∀ j other, other ∈ owned (Function.update nodes i (⟨addr, some block⟩ :: nodes i) j) ↔
      other ∈ owned (nodes j) ∨ j = i ∧ other = block := by
    intro j other
    by_cases hj : j = i
    · subst hj
      have hcons : owned (⟨addr, some block⟩ :: nodes j) = block :: owned (nodes j) := rfl
      simp only [Function.update_self, hcons, List.mem_cons, true_and]
      exact or_comm
    · simp only [Function.update_of_ne hj, hj, false_and, or_false]
  constructor
  case holds =>
    intro j
    by_cases hj : j = i
    · subst hj
      rw [Function.update_self, Function.update_self]
      exact (h.holds j).push hcell (h.strayLive block List.mem_cons_self) (hunowned j)
    · rw [Function.update_of_ne hj, Function.update_of_ne hj]
      refine (h.holds j).frame (fun other hmem => Function.update_of_ne ?_ ..) fun _ _ => rfl
      rintro rfl
      exact hunused j hmem
  case cellsApart =>
    intro j k hne other hj hk
    rw [haddrs] at hj hk
    rcases hj with hj | ⟨rfl, rfl⟩
    · rcases hk with hk | ⟨rfl, rfl⟩
      · exact h.cellsApart j k hne other hj hk
      · exact hunused j hj
    · rcases hk with hk | ⟨rfl, -⟩
      · exact hunused k hk
      · exact hne rfl
  case blocksApart =>
    intro j k hne other hj hk
    rw [howned] at hj hk
    rcases hj with hj | ⟨rfl, rfl⟩
    · rcases hk with hk | ⟨rfl, rfl⟩
      · exact h.blocksApart j k hne other hj hk
      · exact hunowned j hj
    · rcases hk with hk | ⟨rfl, -⟩
      · exact hunowned k hk
      · exact hne rfl
  case cells =>
    intro other hlive
    by_cases heq : other = addr
    · exact ⟨i, (haddrs i other).mpr (Or.inr ⟨rfl, heq⟩)⟩
    · have hbefore : (s.put addr ⟨some block, head i⟩).cells other = s.cells other := Function.update_of_ne heq ..
      rw [hbefore] at hlive
      obtain ⟨j, hmem⟩ := h.cells other hlive
      exact ⟨j, (haddrs j other).mpr (Or.inl hmem)⟩
  case blocks =>
    intro other hlive
    rcases h.blocks other hlive with hmem | ⟨j, hmem⟩
    · rcases List.mem_cons.mp hmem with rfl | hmem
      · exact Or.inr ⟨i, (howned i other).mpr (Or.inr ⟨rfl, rfl⟩)⟩
      · exact Or.inl hmem
    · exact Or.inr ⟨j, (howned j other).mpr (Or.inl hmem)⟩
  case strayLive => exact fun other hmem => h.strayLive other (List.mem_cons_of_mem _ hmem)
  case strayApart =>
    intro other hmem j hj
    rcases (howned j other).mp hj with hj | ⟨-, rfl⟩
    · exact h.strayApart other (List.mem_cons_of_mem _ hmem) j hj
    · exact hnew hmem

/-- Cells were taken out of one list and freed with their blocks. -/
theorem shed (h : s.Family head nodes stray) {kept dropped : List Node} {ret : Option ℕ}
    (hsheds : s.Sheds s' (nodes i) dropped) (hburies : s.Buries s') (hholds : s'.Holds ret kept)
    (hkept : kept ⊆ nodes i) (hparts : ∀ node ∈ nodes i, node ∈ kept ∨ node ∈ dropped) :
    s'.Family (Function.update head i ret) (Function.update nodes i kept) stray := by
  have hsub : ∀ j, Function.update nodes i kept j ⊆ nodes j := by
    intro j
    by_cases hj : j = i
    · subst hj
      rw [Function.update_self]
      exact hkept
    · rw [Function.update_of_ne hj]
      exact List.Subset.refl _
  have haddrs : ∀ j, addrs (Function.update nodes i kept j) ⊆ addrs (nodes j) := fun j => List.map_subset _ (hsub j)
  have howned : ∀ j, owned (Function.update nodes i kept j) ⊆ owned (nodes j) :=
    fun j => List.filterMap_subset _ (hsub j)
  constructor
  case holds =>
    intro j
    by_cases hj : j = i
    · subst hj
      rw [Function.update_self, Function.update_self]
      exact hholds
    · rw [Function.update_of_ne hj, Function.update_of_ne hj]
      exact (h.holds j).frame (fun addr hmem => hsheds.cells addr (h.cellsApart j i hj addr hmem))
        fun block hmem => hsheds.blocks block (h.blocksApart j i hj block hmem)
  case cellsApart => exact fun j k hne addr hj hk => h.cellsApart j k hne addr (haddrs j hj) (haddrs k hk)
  case blocksApart => exact fun j k hne block hj hk => h.blocksApart j k hne block (howned j hj) (howned k hk)
  case cells =>
    intro addr hlive
    by_cases hmem : addr ∈ addrs (nodes i)
    · obtain ⟨node, hnode, rfl⟩ := List.mem_map.mp hmem
      rcases hparts node hnode with hstays | hgone
      · exact ⟨i, by rw [Function.update_self]; exact List.mem_map_of_mem hstays⟩
      · rw [hburies.dropped_cells hsheds _ (List.mem_map_of_mem hgone)] at hlive
        cases hlive
    · rw [hsheds.cells addr hmem] at hlive
      obtain ⟨j, hj⟩ := h.cells addr hlive
      have hne : j ≠ i := by
        rintro rfl
        exact hmem hj
      exact ⟨j, by rwa [Function.update_of_ne hne]⟩
  case blocks =>
    intro block hlive
    by_cases hmem : block ∈ owned (nodes i)
    · obtain ⟨node, hnode, hdata⟩ := List.mem_filterMap.mp hmem
      rcases hparts node hnode with hstays | hgone
      · exact Or.inr ⟨i, by rw [Function.update_self]; exact List.mem_filterMap.mpr ⟨node, hstays, hdata⟩⟩
      · rw [hburies.dropped_blocks hsheds _ (List.mem_filterMap.mpr ⟨node, hgone, hdata⟩)] at hlive
        cases hlive
    · rw [hsheds.blocks block hmem] at hlive
      refine (h.blocks block hlive).imp_right fun ⟨j, hj⟩ => ?_
      have hne : j ≠ i := by
        rintro rfl
        exact hmem hj
      exact ⟨j, by rwa [Function.update_of_ne hne]⟩
  case strayLive =>
    intro block hmem
    rw [hsheds.blocks block (h.strayApart block hmem i)]
    exact h.strayLive block hmem
  case strayApart => exact fun block hmem j hj => h.strayApart block hmem j (howned j hj)

omit [DecidableEq ι] in
/-- When every list is empty, no cell is live, and only stray blocks are. -/
theorem of_empty (h : s.Family head nodes stray) (hempty : ∀ i, nodes i = []) :
    (∀ addr, s.cells addr = none) ∧ ∀ block, s.blocks block = true → block ∈ stray := by
  refine ⟨fun addr => ?_, fun block hlive => ?_⟩
  · by_contra hlive
    obtain ⟨i, hmem⟩ := h.cells addr (Option.isSome_iff_ne_none.mpr hlive)
    rw [hempty i] at hmem
    exact absurd hmem List.not_mem_nil
  · refine (h.blocks block hlive).resolve_right ?_
    rintro ⟨i, hmem⟩
    rw [hempty i] at hmem
    exact absurd hmem List.not_mem_nil

end Family

end CellStore.Store
