import Dropletfs.Library.CellFamily
import Dropletfs.Library.GuardedRuns
import Dropletfs.Lists

/-!
# The lists of directory entries

An entry of the table keeps what it lists in cells of its own, and the cells of all entries are
allocated from one store. The functions that add, remove, look up and free are run on that
store here, with whatever the allocator answers. They agree with what the entries of the table
say, touch no freed memory, and leave nothing behind but the strings for which no cell could
be had.
-/

namespace Dropletfs

open CellStore

/-- `list_ctor`. -/
def listCtor : Option ℕ := none

/-- `list_add`, with the address that `malloc` returns. -/
def listAdd (ll data cell : Option ℕ) (s : Store) : Option ℕ × Store :=
  match cell with
  | none => (ll, s)
  | some addr => (some addr, s.put addr ⟨data, ll⟩)

/-- `list_search`. -/
def listSearch (fn : Option ℕ → Bool) : ℕ → Option ℕ → Store → Exec (Option ℕ)
  | 0, _, _ => .blocked
  | passes + 1, ll, s =>
    if ll = none then .done none
    else do
      let cell ← s.load ll
      if fn cell.data then return cell.data else listSearch fn passes cell.next s

/-- `list_length`. -/
def listLength (passes : ℕ) (ll : Option ℕ) (s : Store) : Exec ℕ := s.walk (fun ret _ => ret + 1) passes ll 0

/-- `list_nb_cells`. -/
def listNbCells (passes : ℕ) (ll : Option ℕ) (s : Store) : Exec ℕ :=
  s.walk (fun ret data => if data.isSome then ret + 1 else ret) passes ll 0

/-- `list_map`; what the callback makes of its context is handed from call to call. -/
def listMap {α : Type} (fn : ℕ → α → α) (passes : ℕ) (ll : Option ℕ) (ctx : α) (s : Store) : Exec α :=
  s.walk (fun ctx data => data.elim ctx fun data => fn data ctx) passes ll ctx

/-- What `list_free` does with the data of a cell. -/
def freeData (ll data : Option ℕ) (s : Store) : Exec Store :=
  if data.isSome then s.freeBlock data >>= fun s => s.setData ll none else .done s

/-- `list_free`. -/
def listFree : ℕ → Option ℕ → Store → Exec Store
  | 0, _, _ => .blocked
  | passes + 1, ll, s =>
    if ll = none then .done s
    else do
      let cell ← s.load ll
      let s ← freeData ll cell.data s
      let cell ← s.load ll
      let s ← s.freeCell ll
      listFree passes cell.next s

/-- What the functions on lists use of a `struct pentry`. -/
structure Dirents where
  filetype : Option Filetype
  dirent : Option ℕ

/-- The entries, the cells of their lists and the strings in the blocks. `made` bounds the number of cells, and with
it the passes of every loop. -/
structure DirentMemory where
  entries : ℕ → Option Dirents
  store : Store
  text : ℕ → CStr
  made : ℕ

namespace DirentMemory

/-- No entry yet. -/
def start : DirentMemory := ⟨fun _ => none, .empty, fun _ => [], 0⟩

/-- The pointers to the first cells. -/
def heads (m : DirentMemory) (addr : ℕ) : Option ℕ := (m.entries addr).bind Dirents.dirent

/-- Read the entry at an address. -/
def load (m : DirentMemory) (addr : ℕ) : Exec Dirents :=
  match m.entries addr with
  | none => .undefined
  | some pe => .done pe

/-- Replace what is at an address of an entry. -/
def set (m : DirentMemory) (addr : ℕ) (pe : Option Dirents) : DirentMemory :=
  { m with entries := Function.update m.entries addr pe }

/-- `pentry_new`. -/
def pentryNew (m : DirentMemory) (addr : ℕ) : Exec DirentMemory := .done (m.set addr (some ⟨none, listCtor⟩))

/-- `pentry_set_filetype`. -/
def setFiletype (m : DirentMemory) (addr : ℕ) (type : Filetype) : Exec DirentMemory := do
  let pe ← m.load addr
  return m.set addr (some { pe with filetype := some type })

/-- `pentry_add_dirent`, with what `strdup` and `malloc` return. -/
def addDirent (m : DirentMemory) (addr : ℕ) (path : CStr) (key cell : Option ℕ) : Exec DirentMemory := do
  let pe ← m.load addr
  match key with
  | none => return m
  | some block =>
    let (dirent, s) := listAdd pe.dirent (some block) cell (m.store.newBlock block)
    return { m.set addr (some { pe with dirent := dirent }) with
      store := s, text := Function.update m.text block path, made := m.made + 1 }

/-- `cb_compare_path`, for the path of a caller and blocks that hold strings. -/
def comparePath (m : DirentMemory) (path : CStr) (data : Option ℕ) : Bool := data.any fun block => path == m.text block

/-- `pentry_remove_dirent`; `junk` is what an uninitialised file type happens to hold. -/
def removeDirent (m : DirentMemory) (addr : ℕ) (path : CStr) (junk : Filetype) : Exec DirentMemory := do
  let pe ← m.load addr
  if pe.filetype.getD junk = .dir then
    let (dirent, s) ← listRemove (m.made + 1) pe.dirent (some 0) (fun _ data => m.comparePath path data) m.store
    return { m.set addr (some { pe with dirent := dirent }) with store := s }
  else return m

/-- `pentry_free`. -/
def pentryFree (m : DirentMemory) (addr : ℕ) : Exec DirentMemory := do
  let pe ← m.load addr
  let s ← listFree (m.made + 1) pe.dirent m.store
  return { m.set addr none with store := s }

end DirentMemory

/-- The requests that come to the lists. -/
inductive DirentOp where
  | new (addr : ℕ)
  | setFiletype (addr : ℕ) (type : Filetype)
  | addDirent (addr : ℕ) (path : CStr) (key cell : Option ℕ)
  | removeDirent (addr : ℕ) (path : CStr) (junk : Filetype)
  | free (addr : ℕ)

/-- One request. -/
def DirentMemory.step (m : DirentMemory) : DirentOp → Exec DirentMemory
  | .new addr => m.pentryNew addr
  | .setFiletype addr type => m.setFiletype addr type
  | .addDirent addr path key cell => m.addDirent addr path key cell
  | .removeDirent addr path junk => m.removeDirent addr path junk
  | .free addr => m.pentryFree addr

/-- A request comes when it can: a new entry, a string and a cell are allocated where nothing is, and every other
request is about an entry that is there. -/
def DirentMemory.Allows (m : DirentMemory) : DirentOp → Prop
  | .new addr => m.entries addr = none
  | .setFiletype addr _ => (m.entries addr).isSome = true
  | .addDirent addr _ key cell => (m.entries addr).isSome = true ∧ (∀ block ∈ key, m.store.blocks block = false) ∧
      ∀ addr ∈ cell, m.store.cells addr = none
  | .removeDirent addr _ _ => (m.entries addr).isSome = true
  | .free addr => (m.entries addr).isSome = true

instance (m : DirentMemory) : (op : DirentOp) → Decidable (m.Allows op)
  | .new addr => decidable_of_iff ((m.entries addr).isNone = true) Option.isNone_iff_eq_none
  | .setFiletype addr _ => inferInstanceAs (Decidable ((m.entries addr).isSome = true))
  | .addDirent addr _ key cell =>
    decidable_of_iff ((m.entries addr).isSome = true ∧ (key.all fun block => m.store.blocks block = false) = true ∧
      (cell.all fun addr => (m.store.cells addr).isNone) = true) (by
        cases key <;> cases cell <;> simp [DirentMemory.Allows])
  | .removeDirent addr _ _ => inferInstanceAs (Decidable ((m.entries addr).isSome = true))
  | .free addr => inferInstanceAs (Decidable ((m.entries addr).isSome = true))

/-- What a request does to the entries as the table knows them. -/
def DirentOp.onHeap (heap : ℕ → Option Pentry) : DirentOp → ℕ → Option Pentry
  | new addr => Function.update heap addr (some Dropletfs.pentryNew)
  | setFiletype addr type => Function.update heap addr ((heap addr).map fun pe => { pe with filetype := some type })
  | addDirent addr path key cell =>
    Function.update heap addr ((heap addr).map fun pe => pe.addDirent path (key.isSome && cell.isSome))
  | removeDirent addr path junk => Function.update heap addr ((heap addr).map fun pe => pe.removeDirent path junk)
  | free addr => Function.update heap addr none

/-- The string of a request that gets no cell. -/
def DirentOp.loses : DirentOp → Option ℕ
  | addDirent _ _ key none => key
  | _ => none

/-- The states reached by requests that come when they can, beside them the entries of the table and the strings that
got no cell. -/
def DirentMemory.Reached : DirentMemory × (ℕ → Option Pentry) × List ℕ → Prop :=
  GuardedRuns.Reaches
    (GuardedRuns.recorded DirentMemory.step fun _ op _ seen => (op.onHeap seen.1, op.loses.toList ++ seen.2))
    (fun t op => t.1.Allows op) (· = (.start, fun _ => none, []))

/-- Reading the list of an entry gives what the entry says. -/
structure DirentMemory.Reads (m : DirentMemory) (ll : Option ℕ) (dirent : List CStr) : Prop where
  mapped : listMap (fun block seen => seen ++ [m.text block]) (m.made + 1) ll [] m.store = .done dirent
  length : listLength (m.made + 1) ll m.store = .done dirent.length
  nbCells : listNbCells (m.made + 1) ll m.store = .done dirent.length
  found : ∀ path, ∃ found, listSearch (m.comparePath path) (m.made + 1) ll m.store = .done found ∧
    (found.isSome = true ↔ path ∈ dirent) ∧ ∀ block ∈ found, m.text block = path

/-- The entries are those that the table knows, with what they list. -/
def DirentMemory.Shows (m : DirentMemory) (heap : ℕ → Option Pentry) : Prop :=
  ∀ addr, match m.entries addr, heap addr with
    | none, none => True
    | some pe, some entry => pe.filetype = entry.filetype ∧ m.Reads pe.dirent entry.dirent
    | _, _ => False

section Functions

variable {start s s' : Store} {ll : Option ℕ} {nodes : List Node} {passes : ℕ}

/-- `list_search` finds the data of the first match. -/
theorem listSearch_spec (fn : Option ℕ → Bool) (h : s.Segment ll nodes none) (hpasses : nodes.length < passes) :
    listSearch fn passes ll s = .done ((nodes.find? fun node => fn node.data).bind Node.data) := by
  induction nodes generalizing ll passes with
  | nil =>
    obtain ⟨passes, rfl⟩ := Nat.exists_eq_succ_of_ne_zero (Nat.ne_of_gt hpasses)
    rw [listSearch, if_pos (show ll = none from h)]
    rfl
  | cons node nodes ih =>
    obtain ⟨passes, rfl⟩ := Nat.exists_eq_succ_of_ne_zero (Nat.ne_of_gt (Nat.zero_lt_of_lt hpasses))
    obtain ⟨next, rfl, hload, hrest⟩ := h.load_cons
    rw [listSearch, if_neg (Option.some_ne_none _), hload, Exec.done_bind]
    by_cases hmatch : fn node.data = true
    · have hfind : (node :: nodes).find? (fun node => fn node.data) = some node := List.find?_cons_of_pos hmatch
      rw [if_pos hmatch, hfind]
      rfl
    · have hfind : (node :: nodes).find? (fun node => fn node.data) = nodes.find? fun node => fn node.data :=
        List.find?_cons_of_neg hmatch
      rw [if_neg hmatch, hfind]
      exact ih hrest (Nat.lt_of_succ_lt_succ hpasses)

/-- One pass of `list_free` takes out the first cell. -/
theorem listFree_cons {node : Node} {here next : Option ℕ} {rest : List Node} (h : s.Within here [] here (node :: rest))
    (hcell : s.cells node.addr = some ⟨node.data, next⟩) (passes : ℕ) :
    listFree (passes + 1) here s = listFree passes next (s.drop node) := by
  have hload : s.load (some node.addr) = .done ⟨node.data, next⟩ := by simp only [Store.load, Option.bind_some, hcell]
  have hlive : (s.cells node.addr).isSome = true := hcell ▸ rfl
  have hfree := Store.free_bind h.live_node hlive fun s => listFree passes next s
  rw [h.here_eq, listFree, if_neg (Option.some_ne_none _), hload, Exec.done_bind]
  cases hdata : node.data with
  | none =>
    rw [hdata] at hfree hload
    simp only [freeData, Option.isSome_none, Bool.false_eq_true, if_false, Exec.done_bind, hload]
    exact hfree
  | some block =>
    -- the pointer to the data is written before the cell is freed
    have hlive : s.blocks block = true := h.live_node block hdata
    rw [hdata] at hfree hcell
    rw [← hfree]
    simp only [freeData, Option.isSome_some, if_true, Store.freeBlock, hlive, Bool.true_eq_false, if_false,
      Exec.done_bind, Store.setData, hcell, Store.load, Option.bind_some, Store.put, Function.update_self,
      Store.freeCell, Function.update_idem]

/-- `list_free` takes out every cell of a list. -/
theorem listFree_sheds {here : Option ℕ} {rest dropped : List Node} (h : s.Within here [] here rest)
    (hsheds : start.Sheds s nodes dropped) (hsub : rest ⊆ nodes) (hpasses : rest.length < passes) :
    ∃ s', listFree passes here s = .done s' ∧ start.Sheds s' nodes (dropped ++ rest) := by
  induction rest generalizing passes s here dropped with
  | nil =>
    obtain ⟨passes, rfl⟩ := Nat.exists_eq_succ_of_ne_zero (Nat.ne_of_gt hpasses)
    refine ⟨s, ?_, by rwa [List.append_nil]⟩
    rw [listFree, if_pos (show here = none from h.after)]
  | cons node rest ih =>
    obtain ⟨passes, rfl⟩ := Nat.exists_eq_succ_of_ne_zero (Nat.ne_of_gt (Nat.zero_lt_of_lt hpasses))
    obtain ⟨next, -, hcell, -⟩ := h.advance
    obtain ⟨s', hrun, hshed⟩ := ih (h.drop_first hcell) (hsheds.drop (hsub List.mem_cons_self))
      (fun _ hmem => hsub (List.mem_cons_of_mem _ hmem)) (Nat.lt_of_succ_lt_succ hpasses)
    refine ⟨s', (listFree_cons h hcell passes).trans hrun, ?_⟩
    rwa [List.append_assoc] at hshed

/-- What `list_free` frees is not live any more. -/
theorem listFree_buries (h : start.Buries s) (hrun : listFree passes ll s = .done s') : start.Buries s' := by
  induction passes generalizing s ll with
  | zero => cases hrun
  | succ passes ih =>
    rw [listFree] at hrun
    split at hrun
    · obtain rfl := Exec.done.inj hrun
      exact h
    · obtain ⟨cell, -, hrun⟩ := Exec.bind_eq_done.mp hrun
      obtain ⟨s₁, hdata, hrun⟩ := Exec.bind_eq_done.mp hrun
      obtain ⟨cell', -, hrun⟩ := Exec.bind_eq_done.mp hrun
      obtain ⟨s₂, hfree, hrun⟩ := Exec.bind_eq_done.mp hrun
      refine ih (Store.Buries.freeCell ?_ hfree) hrun
      unfold freeData at hdata
      split at hdata
      · obtain ⟨s₃, hblock, hset⟩ := Exec.bind_eq_done.mp hdata
        exact (h.freeBlock hblock).setData hset
      · obtain rfl := Exec.done.inj hdata
        exact h

/-- Neither is what `list_remove` frees. -/
theorem listRemoveLoop_buries {fn : ℕ → Option ℕ → Bool} {data : ℕ} {orig prev ret : Option ℕ} (h : start.Buries s)
    (hrun : listRemoveLoop fn data orig passes prev ll s = .done (ret, s')) : start.Buries s' := by
  induction passes generalizing prev ll with
  | zero => cases hrun
  | succ passes ih =>
    rw [listRemoveLoop] at hrun
    split at hrun
    · obtain ⟨-, rfl⟩ := Prod.mk.inj (Exec.done.inj hrun)
      exact h
    · obtain ⟨cell, -, hrun⟩ := Exec.bind_eq_done.mp hrun
      split at hrun
      · split at hrun
        · obtain ⟨first, -, hrun⟩ := Exec.bind_eq_done.mp hrun
          obtain ⟨s₁, hblock, hrun⟩ := Exec.bind_eq_done.mp hrun
          obtain ⟨s₂, hcell, hrun⟩ := Exec.bind_eq_done.mp hrun
          obtain ⟨-, rfl⟩ := Prod.mk.inj (Exec.done.inj hrun)
          exact (h.freeBlock hblock).freeCell hcell
        · obtain ⟨s₁, hnext, hrun⟩ := Exec.bind_eq_done.mp hrun
          obtain ⟨cell', -, hrun⟩ := Exec.bind_eq_done.mp hrun
          obtain ⟨s₂, hblock, hrun⟩ := Exec.bind_eq_done.mp hrun
          obtain ⟨s₃, hcell, hrun⟩ := Exec.bind_eq_done.mp hrun
          obtain ⟨-, rfl⟩ := Prod.mk.inj (Exec.done.inj hrun)
          exact ((h.setNext hnext).freeBlock hblock).freeCell hcell
      · exact ih hrun

/-- `list_remove` as a whole. -/
theorem listRemove_buries {fn : ℕ → Option ℕ → Bool} {data ret : Option ℕ}
    (hrun : listRemove passes ll data fn s = .done (ret, s')) : s.Buries s' := by
  unfold listRemove at hrun
  split at hrun
  · obtain ⟨-, rfl⟩ := Prod.mk.inj (Exec.done.inj hrun)
    exact .refl s
  · split at hrun
    · obtain ⟨-, rfl⟩ := Prod.mk.inj (Exec.done.inj hrun)
      exact .refl s
    · exact listRemoveLoop_buries (.refl s) hrun

/-- A cell is the first match or is kept when the first match is taken out. -/
theorem mem_eraseP_or_find {p : Node → Bool} {node : Node} (h : node ∈ nodes) :
    node ∈ nodes.eraseP p ∨ node ∈ (nodes.find? p).toList := by
  induction nodes with
  | nil => cases h
  | cons first nodes ih =>
    by_cases hmatch : p first = true
    · rw [List.eraseP_cons_of_pos hmatch, List.find?_cons_of_pos hmatch]
      rcases List.mem_cons.mp h with rfl | h
      · exact .inr List.mem_cons_self
      · exact .inl h
    · rw [List.eraseP_cons_of_neg hmatch, List.find?_cons_of_neg hmatch]
      rcases List.mem_cons.mp h with rfl | h
      · exact .inl List.mem_cons_self
      · exact (ih h).imp_left (List.mem_cons_of_mem _)

/-- A walk that counts the cells. -/
theorem foldl_length (nodes : List Node) (count : ℕ) :
    nodes.foldl (fun count _ => count + 1) count = count + nodes.length := by
  induction nodes generalizing count with
  | nil => rfl
  | cons node nodes ih => rw [List.foldl_cons, ih, List.length_cons, Nat.add_right_comm, Nat.add_assoc]

/-- A walk that counts the cells with data. -/
theorem foldl_owned (nodes : List Node) (count : ℕ) :
    nodes.foldl (fun count node => if node.data.isSome then count + 1 else count) count =
      count + (owned nodes).length := by
  induction nodes generalizing count with
  | nil => rfl
  | cons node nodes ih =>
    rw [List.foldl_cons, ih]
    cases hdata : node.data with
    | none =>
      have howned : owned (node :: nodes) = owned nodes := List.filterMap_cons_none hdata
      rw [howned]
      rfl
    | some block =>
      have howned : owned (node :: nodes) = block :: owned nodes := List.filterMap_cons_some hdata
      rw [howned]
      exact Nat.add_right_comm count 1 _

/-- A walk that collects the strings. -/
theorem foldl_texts (text : ℕ → CStr) (nodes : List Node) (seen : List CStr) :
    nodes.foldl (fun seen node => node.data.elim seen fun block => seen ++ [text block]) seen =
      seen ++ texts text nodes := by
  induction nodes generalizing seen with
  | nil => exact (List.append_nil seen).symm
  | cons node nodes ih =>
    rw [List.foldl_cons, ih]
    cases hdata : node.data with
    | none =>
      have howned : owned (node :: nodes) = owned nodes := List.filterMap_cons_none hdata
      rw [texts, texts, howned]
      rfl
    | some block =>
      have howned : owned (node :: nodes) = block :: owned nodes := List.filterMap_cons_some hdata
      rw [texts, texts, howned, List.map_cons]
      exact List.append_assoc ..

end Functions

/-- `list_search` finds a path exactly when it is among the strings of the list. -/
theorem DirentMemory.found_iff (m : DirentMemory) (path : CStr) (nodes : List Node) :
    ((nodes.find? fun node => m.comparePath path node.data).bind Node.data).isSome = true ↔
      path ∈ texts m.text nodes := by
  constructor
  · intro hsome
    obtain ⟨block, hblock⟩ := Option.isSome_iff_exists.mp hsome
    obtain ⟨node, hfind, hdata⟩ := Option.bind_eq_some_iff.mp hblock
    have hmatch := List.find?_some hfind
    simp only [comparePath, hdata, Option.any_some, beq_iff_eq] at hmatch
    exact List.mem_map.mpr
      ⟨block, List.mem_filterMap.mpr ⟨node, List.mem_of_find?_eq_some hfind, hdata⟩, hmatch.symm⟩
  · intro hmem
    obtain ⟨block, howned, rfl⟩ := List.mem_map.mp hmem
    obtain ⟨node, hnode, hdata⟩ := List.mem_filterMap.mp howned
    have hmatch : m.comparePath (m.text block) node.data = true := by
      simp only [comparePath, hdata, Option.any_some, beq_self_eq_true]
    obtain ⟨first, hfind⟩ := Option.isSome_iff_exists.mp
      (List.find?_isSome (p := fun node : Node => m.comparePath (m.text block) node.data).mpr ⟨node, hnode, hmatch⟩)
    have hfirst := List.find?_some hfind
    rw [hfind, Option.bind_some]
    cases hother : first.data with
    | none =>
      rw [hother] at hfirst
      cases hfirst
    | some other => rfl

/-- The lists in the store are what the entries list, and the store holds nothing else but strays. -/
structure DirentMemory.Agrees (m : DirentMemory) (heap : ℕ → Option Pentry) (lost : List ℕ) (nodes : ℕ → List Node) :
    Prop where
  family : m.store.Family m.heads nodes lost
  filled : ∀ addr, ∀ node ∈ nodes addr, node.data.isSome = true
  bounded : ∀ addr, (nodes addr).length ≤ m.made
  known : ∀ addr, (m.entries addr).isSome = (heap addr).isSome
  entry : ∀ addr pe entry, m.entries addr = some pe → heap addr = some entry →
    pe.filetype = entry.filetype ∧ entry.dirent = texts m.text (nodes addr)

namespace DirentMemory.Agrees

variable {m : DirentMemory} {heap : ℕ → Option Pentry} {lost : List ℕ} {nodes : ℕ → List Node} {addr : ℕ}
  {pe : Dirents} {entry : Pentry}

/-- The list of an entry is held in the store. -/
theorem holds (h : m.Agrees heap lost nodes) (hpe : m.entries addr = some pe) :
    m.store.Holds pe.dirent (nodes addr) := by
  have hholds := h.family.holds addr
  rw [heads, hpe] at hholds
  exact hholds

/-- Where there is no entry, there are no cells. -/
theorem no_cells (h : m.Agrees heap lost nodes) (hnone : m.entries addr = none) : nodes addr = [] := by
  have hholds := h.family.holds addr
  rw [heads, hnone] at hholds
  exact hholds.eq_nil

/-- Every string of a list takes a cell. -/
theorem length_texts (h : m.Agrees heap lost nodes) (addr : ℕ) :
    (texts m.text (nodes addr)).length = (nodes addr).length := by
  have hall := h.filled addr
  rw [texts, List.length_map]
  generalize nodes addr = cells at hall
  induction cells with
  | nil => rfl
  | cons node cells ih =>
    obtain ⟨block, hdata⟩ := Option.isSome_iff_exists.mp (hall node List.mem_cons_self)
    have howned : owned (node :: cells) = block :: owned cells := List.filterMap_cons_some hdata
    rw [howned, List.length_cons, List.length_cons, ih fun other hmem => hall other (List.mem_cons_of_mem _ hmem)]

/-- Reading the list of an entry gives what it lists. -/
theorem reads (h : m.Agrees heap lost nodes) (hpe : m.entries addr = some pe) (hentry : heap addr = some entry) :
    m.Reads pe.dirent entry.dirent := by
  have hchain := (h.holds hpe).chain
  have hpasses : (nodes addr).length < m.made + 1 := Nat.lt_succ_of_le (h.bounded addr)
  rw [(h.entry addr pe entry hpe hentry).2]
  constructor
  case mapped =>
    rw [listMap, hchain.walk _ hpasses, foldl_texts, List.nil_append]
  case length =>
    rw [listLength, hchain.walk _ hpasses, foldl_length, Nat.zero_add, h.length_texts]
  case nbCells =>
    rw [listNbCells, hchain.walk _ hpasses, foldl_owned, Nat.zero_add, texts, List.length_map]
  case found =>
    intro path
    refine ⟨_, listSearch_spec _ hchain hpasses, m.found_iff path (nodes addr), fun block hblock => ?_⟩
    obtain ⟨node, hfind, hdata⟩ := Option.bind_eq_some_iff.mp hblock
    have hmatch := List.find?_some hfind
    simp only [comparePath, hdata, Option.any_some, beq_iff_eq] at hmatch
    exact hmatch.symm

/-- The entries are those of the table. -/
theorem shows (h : m.Agrees heap lost nodes) : m.Shows heap := by
  intro addr
  have hknown := h.known addr
  cases hpe : m.entries addr with
  | none =>
    cases hentry : heap addr with
    | none => trivial
    | some entry =>
      rw [hpe, hentry] at hknown
      cases hknown
  | some pe =>
    cases hentry : heap addr with
    | none =>
      rw [hpe, hentry] at hknown
      cases hknown
    | some entry => exact ⟨(h.entry addr pe entry hpe hentry).1, h.reads hpe hentry⟩

/-- The pointers to the first cells, when an entry is replaced. -/
theorem heads_update {m' : DirentMemory} {pe' : Option Dirents}
    (hentries : m'.entries = Function.update m.entries addr pe') :
    m'.heads = Function.update m.heads addr (pe'.bind Dirents.dirent) := by
  funext other
  unfold heads
  rw [hentries]
  by_cases hother : other = addr
  · rw [hother, Function.update_self, Function.update_self]
  · rw [Function.update_of_ne hother, Function.update_of_ne hother]

/-- A request has changed one entry and its list. -/
theorem after (h : m.Agrees heap lost nodes) {m' : DirentMemory} {pe' : Option Dirents} {entry' : Option Pentry}
    {cells : List Node} {lost' : List ℕ} (hentries : m'.entries = Function.update m.entries addr pe')
    (hfamily : m'.store.Family (Function.update m.heads addr (pe'.bind Dirents.dirent))
      (Function.update nodes addr cells) lost')
    (htext : ∀ other, other ≠ addr → ∀ block ∈ owned (nodes other), m'.text block = m.text block)
    (hmade : m.made ≤ m'.made) (hfilled : ∀ node ∈ cells, node.data.isSome = true)
    (hbounded : cells.length ≤ m'.made) (hknown : pe'.isSome = entry'.isSome)
    (hentry : ∀ pe entry, pe' = some pe → entry' = some entry →
      pe.filetype = entry.filetype ∧ entry.dirent = texts m'.text cells) :
    m'.Agrees (Function.update heap addr entry') lost' (Function.update nodes addr cells) := by
  constructor
  case family =>
    rw [heads_update hentries]
    exact hfamily
  case filled =>
    intro other
    by_cases hother : other = addr
    · rw [hother, Function.update_self]
      exact hfilled
    · rw [Function.update_of_ne hother]
      exact h.filled other
  case bounded =>
    intro other
    by_cases hother : other = addr
    · rw [hother, Function.update_self]
      exact hbounded
    · rw [Function.update_of_ne hother]
      exact (h.bounded other).trans hmade
  case known =>
    intro other
    rw [hentries]
    by_cases hother : other = addr
    · rw [hother, Function.update_self, Function.update_self]
      exact hknown
    · rw [Function.update_of_ne hother, Function.update_of_ne hother]
      exact h.known other
  case entry =>
    intro other pe entry
    rw [hentries]
    by_cases hother : other = addr
    · rw [hother, Function.update_self, Function.update_self, Function.update_self]
      exact hentry pe entry
    · rw [Function.update_of_ne hother, Function.update_of_ne hother, Function.update_of_ne hother]
      intro hpe hentry
      obtain ⟨htype, hdirent⟩ := h.entry other pe entry hpe hentry
      exact ⟨htype, hdirent.trans (List.map_congr_left fun block hmem => (htext other hother block hmem).symm)⟩

/-- The list of the entry is the same. -/
theorem family_same (h : m.Agrees heap lost nodes) {pe' : Option Dirents}
    (hdirent : pe'.bind Dirents.dirent = m.heads addr) :
    m.store.Family (Function.update m.heads addr (pe'.bind Dirents.dirent)) (Function.update nodes addr (nodes addr))
      lost := by
  rw [hdirent, Function.update_eq_self, Function.update_eq_self]
  exact h.family

/-- The entry of the table for one in memory. -/
theorem exists_entry (h : m.Agrees heap lost nodes) (hpe : m.entries addr = some pe) :
    ∃ entry, heap addr = some entry ∧ pe.filetype = entry.filetype ∧ entry.dirent = texts m.text (nodes addr) := by
  have hknown := h.known addr
  rw [hpe] at hknown
  obtain ⟨entry, hentry⟩ := Option.isSome_iff_exists.mp hknown.symm
  exact ⟨entry, hentry, h.entry addr pe entry hpe hentry⟩

/-- A block that is not live belongs to no list. -/
theorem not_owned (h : m.Agrees heap lost nodes) {block : ℕ} (hfree : m.store.blocks block = false) (addr : ℕ) :
    block ∉ owned (nodes addr) := by
  intro hmem
  rw [h.family.live_block hmem] at hfree
  cases hfree

/-- The strings of a list are the same when one is put where none was. -/
theorem texts_fresh (h : m.Agrees heap lost nodes) {block : ℕ} (hfree : m.store.blocks block = false) (path : CStr)
    (addr : ℕ) : texts (Function.update m.text block path) (nodes addr) = texts m.text (nodes addr) := by
  refine List.map_congr_left fun other hmem => Function.update_of_ne ?_ ..
  rintro rfl
  exact h.not_owned hfree addr hmem

/-- A new entry lists nothing. -/
theorem pentryNew (h : m.Agrees heap lost nodes) (hnone : m.entries addr = none) :
    ∃ m' nodes', m.pentryNew addr = .done m' ∧
      m'.Agrees (Function.update heap addr (some Dropletfs.pentryNew)) lost nodes' := by
  refine ⟨_, Function.update nodes addr [], rfl,
    h.after rfl ?_ (fun _ _ _ _ => rfl) le_rfl nofun (Nat.zero_le _) rfl ?_⟩
  · rw [← h.no_cells hnone]
    refine h.family_same ?_
    rw [heads, hnone]
    rfl
  · rintro pe entry ⟨⟩ ⟨⟩
    exact ⟨rfl, rfl⟩

/-- A new type of an entry. -/
theorem setFiletype (h : m.Agrees heap lost nodes) (hpe : m.entries addr = some pe) (type : Filetype) :
    ∃ m' nodes', m.setFiletype addr type = .done m' ∧
      m'.Agrees (Function.update heap addr ((heap addr).map fun pe => { pe with filetype := some type })) lost
        nodes' := by
  obtain ⟨entry, hentry, -, hdirent⟩ := h.exists_entry hpe
  refine ⟨m.set addr (some { pe with filetype := some type }), _, ?_, h.after rfl (h.family_same ?_)
    (fun _ _ _ _ => rfl) le_rfl (h.filled addr) (h.bounded addr) ?_ ?_⟩
  · simp only [DirentMemory.setFiletype, load, hpe, Exec.done_bind, Exec.pure_eq_done]
  · rw [heads, hpe]
    rfl
  · rw [hentry]
    rfl
  · rw [hentry]
    rintro pe entry ⟨⟩ ⟨⟩
    exact ⟨rfl, hdirent⟩

/-- A path that is added, as far as there is memory. -/
theorem addDirent (h : m.Agrees heap lost nodes) (hpe : m.entries addr = some pe) (path : CStr) (key cell : Option ℕ)
    (hkey : ∀ block ∈ key, m.store.blocks block = false) (hcell : ∀ addr ∈ cell, m.store.cells addr = none) :
    ∃ m' nodes', m.addDirent addr path key cell = .done m' ∧
      m'.Agrees (Function.update heap addr ((heap addr).map fun pe => pe.addDirent path (key.isSome && cell.isSome)))
        ((DirentOp.addDirent addr path key cell).loses.toList ++ lost) nodes' := by
  obtain ⟨entry, hentry, htype, hdirent⟩ := h.exists_entry hpe
  have hheads : m.heads addr = pe.dirent := by
    rw [heads, hpe]
    rfl
  rw [hentry]
  cases key with
  | none =>
    have hlost : (DirentOp.addDirent addr path none cell).loses.toList ++ lost = lost := by cases cell <;> rfl
    rw [hlost]
    have hsame : (some pe).bind Dirents.dirent = m.heads addr := hheads.symm
    refine ⟨m, _, ?_, h.after ?_ (h.family_same hsame) (fun _ _ _ _ => rfl) le_rfl (h.filled addr) (h.bounded addr)
      ?_ ?_⟩
    · simp only [DirentMemory.addDirent, load, hpe, Exec.done_bind, Exec.pure_eq_done]
    · rw [← hpe, Function.update_eq_self]
    · rfl
    · rintro pe entry ⟨⟩ ⟨⟩
      exact ⟨htype, hdirent⟩
  | some block =>
    have hfree := hkey block rfl
    have hfresh : ∀ other, other ≠ addr → ∀ used ∈ owned (nodes other),
        Function.update m.text block path used = m.text used := by
      intro other _ used hmem
      refine Function.update_of_ne ?_ ..
      rintro rfl
      exact h.not_owned hfree other hmem
    cases cell with
    | none =>
      refine ⟨{ m.set addr (some pe) with
        store := m.store.newBlock block, text := Function.update m.text block path, made := m.made + 1 }, _, ?_,
        h.after rfl ?_ hfresh (Nat.le_succ _) (h.filled addr) (Nat.le_succ_of_le (h.bounded addr)) rfl ?_⟩
      · simp only [DirentMemory.addDirent, load, hpe, Exec.done_bind, Exec.pure_eq_done, listAdd]
      · rw [Option.bind_some, ← hheads, Function.update_eq_self, Function.update_eq_self]
        exact h.family.newBlock hfree
      · rintro pe entry ⟨⟩ ⟨⟩
        exact ⟨htype, hdirent.trans (h.texts_fresh hfree path addr).symm⟩
    | some place =>
      have hnew : block ∉ lost := fun hmem => by
        rw [h.family.strayLive block hmem] at hfree
        cases hfree
      have hpush := (h.family.newBlock hfree).push hnew (hcell place rfl) addr
      rw [hheads] at hpush
      refine ⟨{ m.set addr (some { pe with dirent := some place }) with
        store := (m.store.newBlock block).put place ⟨some block, pe.dirent⟩,
        text := Function.update m.text block path, made := m.made + 1 }, _, ?_,
        h.after rfl hpush hfresh (Nat.le_succ _) ?_ (Nat.succ_le_succ (h.bounded addr)) rfl ?_⟩
      · simp only [DirentMemory.addDirent, load, hpe, Exec.done_bind, Exec.pure_eq_done, listAdd]
      · intro node hmem
        rcases List.mem_cons.mp hmem with rfl | hmem
        · rfl
        · exact h.filled addr node hmem
      · rintro pe entry ⟨⟩ ⟨⟩
        refine ⟨htype, ?_⟩
        have htexts : texts (Function.update m.text block path) (⟨place, some block⟩ :: nodes addr) =
            Function.update m.text block path block :: texts (Function.update m.text block path) (nodes addr) := rfl
        rw [htexts, Function.update_self, h.texts_fresh hfree path addr, ← hdirent]
        rfl

/-- A path that is taken out of a directory. -/
theorem removeDirent (h : m.Agrees heap lost nodes) (hpe : m.entries addr = some pe) (path : CStr) (junk : Filetype) :
    ∃ m' nodes', m.removeDirent addr path junk = .done m' ∧
      m'.Agrees (Function.update heap addr ((heap addr).map fun pe => pe.removeDirent path junk)) lost nodes' := by
  obtain ⟨entry, hentry, htype, hdirent⟩ := h.exists_entry hpe
  have hheads : m.heads addr = pe.dirent := by
    rw [heads, hpe]
    rfl
  rw [hentry]
  by_cases hdir : pe.filetype.getD junk = .dir
  · obtain ⟨ret, s', hcall, hholds, hsheds⟩ := listRemove_spec (fun _ data => m.comparePath path data) 0 (h.holds hpe)
      (m.made + 1) (Nat.lt_succ_of_le (h.bounded addr))
    have hsub : (nodes addr).eraseP (fun node => m.comparePath path node.data) ⊆ nodes addr :=
      List.eraseP_sublist.subset
    refine ⟨{ m.set addr (some { pe with dirent := ret }) with store := s' }, _, ?_, h.after rfl
      (h.family.shed hsheds (listRemove_buries hcall) hholds hsub fun node => mem_eraseP_or_find)
      (fun _ _ _ _ => rfl) le_rfl (fun node hmem => h.filled addr node (hsub hmem))
      (List.eraseP_sublist.length_le.trans (h.bounded addr)) rfl ?_⟩
    · simp only [DirentMemory.removeDirent, load, hpe, Exec.done_bind, Exec.pure_eq_done, if_pos hdir, hcall]
    · have hremoved : entry.removeDirent path junk = { entry with dirent := entry.dirent.erase path } :=
        if_pos (htype ▸ hdir)
      rw [Option.map_some, hremoved, hdirent]
      rintro pe' entry' ⟨⟩ ⟨⟩
      exact ⟨htype, (texts_erase m.text path (nodes addr)).symm⟩
  · have hsame : (some pe).bind Dirents.dirent = m.heads addr := hheads.symm
    refine ⟨m, _, ?_, h.after ?_ (h.family_same hsame) (fun _ _ _ _ => rfl) le_rfl (h.filled addr) (h.bounded addr)
      ?_ ?_⟩
    · simp only [DirentMemory.removeDirent, load, hpe, Exec.done_bind, Exec.pure_eq_done, if_neg hdir]
    · rw [← hpe, Function.update_eq_self]
    · rfl
    · have hkept : entry.removeDirent path junk = entry := if_neg (htype ▸ hdir)
      rw [Option.map_some, hkept]
      rintro pe' entry' ⟨⟩ ⟨⟩
      exact ⟨htype, hdirent⟩

/-- An entry that is freed with its list. -/
theorem pentryFree (h : m.Agrees heap lost nodes) (hpe : m.entries addr = some pe) :
    ∃ m' nodes', m.pentryFree addr = .done m' ∧ m'.Agrees (Function.update heap addr none) lost nodes' := by
  obtain ⟨s', hcall, hsheds⟩ := listFree_sheds (h.holds hpe).within (.refl m.store (nodes addr))
    (List.Subset.refl _) (Nat.lt_succ_of_le (h.bounded addr))
  have hholds : s'.Holds none [] :=
    ⟨rfl, List.nodup_nil, List.nodup_nil, fun _ hmem => absurd hmem List.not_mem_nil⟩
  have hfamily := h.family.shed hsheds (listFree_buries (.refl m.store) hcall) hholds (List.nil_subset _)
    fun node hmem => .inr hmem
  refine ⟨{ m.set addr none with store := s' }, _, ?_, h.after rfl hfamily (fun _ _ _ _ => rfl) le_rfl
    (fun _ hmem => absurd hmem List.not_mem_nil) (Nat.zero_le _) rfl fun _ _ hpe _ => by cases hpe⟩
  simp only [DirentMemory.pentryFree, load, hpe, Exec.done_bind, Exec.pure_eq_done, hcall]

end DirentMemory.Agrees

namespace DirentMemory

variable {t : DirentMemory × (ℕ → Option Pentry) × List ℕ}

/-- A request that comes when it can is carried out, and leaves lists and entries in agreement. -/
theorem step_agrees {m : DirentMemory} {heap : ℕ → Option Pentry} {lost : List ℕ} {nodes : ℕ → List Node}
    (h : m.Agrees heap lost nodes) (op : DirentOp) (hallows : m.Allows op) :
    ∃ m' nodes', m.step op = .done m' ∧ m'.Agrees (op.onHeap heap) (op.loses.toList ++ lost) nodes' := by
  cases op with
  | new addr => exact h.pentryNew hallows
  | setFiletype addr type =>
    obtain ⟨pe, hpe⟩ := Option.isSome_iff_exists.mp hallows
    exact h.setFiletype hpe type
  | addDirent addr path key cell =>
    obtain ⟨hsome, hkey, hcell⟩ := hallows
    obtain ⟨pe, hpe⟩ := Option.isSome_iff_exists.mp hsome
    exact h.addDirent hpe path key cell hkey hcell
  | removeDirent addr path junk =>
    obtain ⟨pe, hpe⟩ := Option.isSome_iff_exists.mp hallows
    exact h.removeDirent hpe path junk
  | free addr =>
    obtain ⟨pe, hpe⟩ := Option.isSome_iff_exists.mp hallows
    exact h.pentryFree hpe

/-- Lists and entries agree in every state that is reached. -/
theorem Reached.agrees (h : Reached t) : ∃ nodes, t.1.Agrees t.2.1 t.2.2 nodes := by
  refine h.invariant (fun t => ∃ nodes, t.1.Agrees t.2.1 t.2.2 nodes) ?_ ?_
  · rintro t rfl
    exact ⟨fun _ => [], .start, fun _ _ hmem => absurd hmem List.not_mem_nil, fun _ => Nat.zero_le _, fun _ => rfl,
      fun _ _ _ hpe => by cases hpe⟩
  · rintro t op t' - ⟨nodes, hagrees⟩ hallows hstep
    obtain ⟨hnext, hnote⟩ := GuardedRuns.recorded_eq_done.mp hstep
    obtain ⟨m', nodes', hdone, hagrees'⟩ := step_agrees hagrees op hallows
    rw [hdone] at hnext
    rw [← Exec.done.inj hnext, hnote]
    exact ⟨nodes', hagrees'⟩

end DirentMemory

/-- In every state reached by requests that come when they can, whatever the allocator answered, each further request is
carried out without touching freed memory, and the lists read back as the table has them. -/
theorem dirent_lists_refined (t : DirentMemory × (ℕ → Option Pentry) × List ℕ) (h : DirentMemory.Reached t) :
    t.1.Shows t.2.1 ∧ ∀ op, t.1.Allows op → ∃ m', t.1.step op = .done m' := by
  obtain ⟨nodes, hagrees⟩ := h.agrees
  refine ⟨hagrees.shows, fun op hallows => ?_⟩
  obtain ⟨m', -, hdone, -⟩ := DirentMemory.step_agrees hagrees op hallows
  exact ⟨m', hdone⟩

/-- A directory that gets one path, runs out of memory at the next, and loses the first again. -/
def oneDirectory : List DirentOp :=
  [.new 0, .setFiletype 0 .dir, .addDirent 0 "/a".toList (some 1) (some 2), .addDirent 0 "/b".toList (some 3) none,
    .addDirent 0 "/c".toList (some 4) (some 5), .removeDirent 0 "/a".toList .reg]

/-- The steps of some requests, while they can be made. -/
def runDirents : List DirentOp → DirentMemory × (ℕ → Option Pentry) × List ℕ →
    Exec (DirentMemory × (ℕ → Option Pentry) × List ℕ) :=
  GuardedRuns.run
    (GuardedRuns.recorded DirentMemory.step fun _ op _ seen => (op.onHeap seen.1, op.loses.toList ++ seen.2))
    fun t op => t.1.Allows op

/-- They reach a state. -/
theorem DirentMemory.Reached.of_run (ops : List DirentOp) {t : DirentMemory × (ℕ → Option Pentry) × List ℕ}
    (hrun : runDirents ops (.start, fun _ => none, []) = .done t) : DirentMemory.Reached t :=
  GuardedRuns.Reaches.run (fun _ _ hallows => of_decide_eq_true hallows) (.start rfl) hrun

/-- The path that is left is read back. -/
theorem dirent_lists_refined_left :
    ∃ t, runDirents oneDirectory (.start, fun _ => none, []) = .done t ∧
      (t.2.1 0).map Pentry.dirent = some ["/c".toList] ∧
      t.1.Shows t.2.1 ∧ ∀ op, t.1.Allows op → ∃ m', t.1.step op = .done m' :=
  ⟨_, rfl, rfl, dirent_lists_refined _ (.of_run oneDirectory rfl)⟩

/-- Once every entry is freed, no cell is left, and no string but those for which there was no cell. -/
theorem dirent_lists_freed (t : DirentMemory × (ℕ → Option Pentry) × List ℕ) (h : DirentMemory.Reached t)
    (hfreed : ∀ addr, t.1.entries addr = none) :
    (∀ addr, t.1.store.cells addr = none) ∧ ∀ block, t.1.store.blocks block = true ↔ block ∈ t.2.2 := by
  obtain ⟨nodes, hagrees⟩ := h.agrees
  obtain ⟨hcells, hblocks⟩ := hagrees.family.of_empty fun addr => hagrees.no_cells (hfreed addr)
  exact ⟨hcells, fun block => ⟨hblocks block, hagrees.family.strayLive block⟩⟩

/-- The string for which there was no cell is what is left of the directory. -/
theorem dirent_lists_freed_directory :
    ∃ t, runDirents (oneDirectory ++ [.free 0]) (.start, fun _ => none, []) = .done t ∧ t.2.2 = [3] ∧
      (∀ addr, t.1.store.cells addr = none) ∧ ∀ block, t.1.store.blocks block = true ↔ block ∈ t.2.2 := by
  refine ⟨_, rfl, rfl, dirent_lists_freed _ (.of_run (oneDirectory ++ [.free 0]) rfl) fun addr => ?_⟩
  by_cases h : addr = 0
  · rw [h]
    rfl
  · simp only [DirentMemory.set, Function.update_of_ne h]
    rfl

end Dropletfs
