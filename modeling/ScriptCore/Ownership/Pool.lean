import ScriptCore.Chain
import ScriptCore.Value

/-!
# Counted objects

Every object counts its holders: the handles of clients and the slots of cells. An object is destroyed when the
last holder lets go of it. Letting go of a chain of cells does not recurse: a dying cell lets go of a leaf in
its first slot at once, and puts the cells in its slots, the first slot before the second, into a queue that
is worked off in order. Cells that hold each other in a cycle are never destroyed.
-/
namespace ScriptCore

/-- What a cell holds. -/
def Cell.refs (cell : Cell) : List Ref :=
  cell.car.toList ++ (Value.ofLink cell.cdr).toList

namespace Ownership

/-- Something with the number of its holders. It is alive as long as there are any. -/
structure Counted (α : Type) where
  holders : Nat
  content : α

/-- Changes the number of holders. -/
def Counted.count {α : Type} (f : Nat → Nat) (counted : Counted α) : Counted α :=
  { counted with holders := f counted.holders }

/-- The number of holders of what stands at `i`. -/
def holdersAt {α : Type} (items : Array (Counted α)) (i : Nat) : Nat :=
  (items[i]?.map Counted.holders).getD 0

/-- Counted cells and labelled leaves, with all that was destroyed, in order. -/
structure Pool where
  cells : Array (Counted Cell) := #[]
  leaves : Array (Counted String) := #[]
  destroyed : Array Ref := #[]

namespace Pool

/-- The cell with the given identity. -/
def cell (p : Pool) (c : CellId) : Cell :=
  match p.cells[c.index]? with
  | some counted => counted.content
  | none => {}

/-- The label of a leaf. -/
def label (p : Pool) (a : AtomId) : String :=
  match p.leaves[a.index]? with
  | some counted => counted.content
  | none => ""

/-- How many holders an object has. -/
def holders (p : Pool) : Ref → Nat
  | .cell c => holdersAt p.cells c.index
  | .atom a => holdersAt p.leaves a.index

/-- Changes the number of holders of an object. -/
def count (p : Pool) (r : Ref) (f : Nat → Nat) : Pool :=
  match r with
  | .cell c => { p with cells := p.cells.modify c.index (Counted.count f) }
  | .atom a => { p with leaves := p.leaves.modify a.index (Counted.count f) }

/-- Changes the slots of a cell. -/
def modifyCell (p : Pool) (c : CellId) (f : Cell → Cell) : Pool :=
  { p with cells := p.cells.modify c.index fun counted => { counted with content := f counted.content } }

/-- Notes that an object is destroyed. -/
def log (p : Pool) (r : Ref) : Pool :=
  { p with destroyed := p.destroyed.push r }

/-- Adds a holder. -/
def acquire (p : Pool) : Value → Pool
  | none => p
  | some r => p.count r (· + 1)

/-- Makes a leaf with one holder, the caller. -/
def newLeaf (p : Pool) (label : String) : AtomId × Pool :=
  (⟨p.leaves.size⟩, { p with leaves := p.leaves.push ⟨1, label⟩ })

/-- Makes a cell with one holder, the caller. The cell takes over one hold on what is in its slots. -/
def newCell (p : Pool) (cell : Cell) : CellId × Pool :=
  (⟨p.cells.size⟩, { p with cells := p.cells.push ⟨1, cell⟩ })

/-! ## Letting go -/

/-- Removes a holder of a leaf, which is destroyed if that was the last one. -/
def releaseLeaf (p : Pool) (a : AtomId) : Pool :=
  let p := p.count (.atom a) (· - 1)
  if p.holders (.atom a) = 0 then p.log (.atom a) else p

/-- Lets go of a value: of a leaf at once, of a cell through the queue. Gives the cells for the queue. -/
def letGo (p : Pool) : Value → List CellId × Pool
  | none => ([], p)
  | some (.atom a) => ([], p.releaseLeaf a)
  | some (.cell c) => ([c], p)

/-- Empties the slots of a cell and notes that it is destroyed. -/
def clearCell (p : Pool) (c : CellId) : Pool :=
  (p.modifyCell c fun cell => { cell with car := none, cdr := none }).log (.cell c)

/-- Destroys a cell and lets go of what is in its slots. Gives the cells for the queue. -/
def destroyCell (p : Pool) (c : CellId) : List CellId × Pool :=
  let cell := p.cell c
  let next := (p.clearCell c).letGo cell.car
  (next.1 ++ cell.cdr.toList, next.2)

/-- Removes a holder of a cell, which is destroyed if that was the last one. Gives the cells for the queue. -/
def dropCell (p : Pool) (c : CellId) : List CellId × Pool :=
  let p := p.count (.cell c) (· - 1)
  if p.holders (.cell c) = 0 then p.destroyCell c else ([], p)

/-- What all cells hold, cell by cell. -/
def slots (p : Pool) : List Ref :=
  p.cells.toList.flatMap fun counted => counted.content.refs

/-- The slots apart from those of one cell stay the same when that cell is changed. -/
theorem exists_slots (p : Pool) {c : CellId} (hc : c.index < p.cells.size) :
    ∃ rest, p.slots.Perm ((p.cell c).refs ++ rest) ∧
      ∀ f, (p.modifyCell c f).slots.Perm ((f (p.cell c)).refs ++ rest) := by
  have hl : c.index < p.cells.toList.length := by simpa using hc
  have hcell : p.cell c = p.cells.toList[c.index].content := by simp [cell, hc]
  let refs (l : List (Counted Cell)) : List Ref := l.flatMap fun counted => counted.content.refs
  refine ⟨refs (p.cells.toList.take c.index) ++ refs (p.cells.toList.drop (c.index + 1)), ?_, fun f => ?_⟩
  · have hsplit : p.slots = refs (p.cells.toList.take c.index) ++ refs (p.cells.toList.drop c.index) := by
      rw [← List.flatMap_append, List.take_append_drop, slots]
    rw [hsplit, List.drop_eq_getElem_cons hl, hcell]
    exact List.perm_append_comm_assoc ..
  · rw [slots, modifyCell, Array.toList_modify, List.modify_eq_take_cons_drop hl, List.flatMap_append,
      List.flatMap_cons, hcell]
    exact List.perm_append_comm_assoc ..

theorem slots_count (p : Pool) (r : Ref) (f : Nat → Nat) : (p.count r f).slots = p.slots := by
  cases r with
  | atom a => rfl
  | cell c =>
    have hcontent : (p.cells.toList.modify c.index (Counted.count f)).map Counted.content =
        p.cells.toList.map Counted.content := by
      refine List.ext_getElem? fun i => ?_
      rw [List.getElem?_map, List.getElem?_modify, List.getElem?_map]
      split <;> cases p.cells.toList[i]? <;> rfl
    simp only [slots, count, Array.toList_modify, ← List.flatMap_map, hcontent]

theorem slots_letGo (p : Pool) (v : Value) : (p.letGo v).2.slots = p.slots := by
  rcases v with _ | c | a
  · rfl
  · rfl
  · simp only [letGo, releaseLeaf]
    split <;> exact slots_count p (.atom a) (· - 1)

theorem length_letGo (p : Pool) (v : Value) : (p.letGo v).1.length ≤ v.toList.length := by
  rcases v with _ | c | a <;> simp [letGo]

theorem length_destroyCell (p : Pool) (c : CellId) :
    (p.destroyCell c).1.length + (p.destroyCell c).2.slots.length ≤ p.slots.length := by
  have hqueue := length_letGo (p.clearCell c) (p.cell c).car
  simp only [destroyCell, List.length_append, slots_letGo]
  by_cases hc : c.index < p.cells.size
  · obtain ⟨rest, hold, hnew⟩ := p.exists_slots hc
    have hclear : (p.clearCell c).slots.Perm rest := hnew fun cell => { cell with car := none, cdr := none }
    have hrefs : (p.cell c).refs.length = (p.cell c).car.toList.length + (p.cell c).cdr.toList.length := by
      rw [Cell.refs, Value.ofLink, List.length_append]
      cases (p.cell c).cdr <;> rfl
    rw [hold.length_eq, hclear.length_eq, List.length_append]
    omega
  · have hcell : p.cell c = {} := by simp [cell, Nat.not_lt.mp hc]
    have hclear : (p.clearCell c).slots = p.slots := by
      simp only [clearCell, log, slots, modifyCell, Array.toList_modify]
      rw [List.modify_eq_self (by simpa using hc)]
    rw [hclear, hcell]
    simp [letGo]

/-- A cell that puts others into the queue does not hold them any more. -/
theorem length_dropCell (p : Pool) (c : CellId) :
    (p.dropCell c).1.length + (p.dropCell c).2.slots.length ≤ p.slots.length := by
  rw [← slots_count p (.cell c) (· - 1), dropCell]
  split
  · exact length_destroyCell _ c
  · simp

/-- Works off the queue of cells that lost a holder. -/
def drain (queue : List CellId) (p : Pool) : Pool :=
  match queue with
  | [] => p
  | c :: queue =>
    let next := p.dropCell c
    drain (queue ++ next.1) next.2
termination_by queue.length + p.slots.length
decreasing_by
  have := p.length_dropCell c
  simp only [List.length_append, List.length_cons]
  omega

/-- Removes a holder. -/
def release (p : Pool) (v : Value) : Pool :=
  let (queue, p) := p.letGo v
  drain queue p

/-! ## Cells -/

/-- Replaces the first slot by a value that the caller holds. The caller then holds the old one. -/
def replaceCar (p : Pool) (c : CellId) (v : Value) : Value × Pool :=
  ((p.cell c).car, p.modifyCell c fun cell => { cell with car := v })

/-- Replaces the second slot by a cell that the caller holds. The caller then holds the old one. -/
def replaceCdr (p : Pool) (c : CellId) (link : Option CellId) : Value × Pool :=
  (.ofLink (p.cell c).cdr, p.modifyCell c fun cell => { cell with cdr := link })

/-- The next cell. -/
def next (p : Pool) (c : CellId) : Option CellId :=
  (p.cell c).cdr

/-- The shape of the chain that starts at a cell. -/
def extent (p : Pool) (c : CellId) : Chain.Extent :=
  Chain.extent p.cells.size p.next c

/-- The first slot of each different cell of a chain. -/
def elements (p : Pool) (c : CellId) : List Value :=
  (Chain.points p.cells.size p.next c).map fun c => (p.cell c).car

/-- Makes a chain of cells of one kind. Its cells are new holders of the elements. -/
def newChain (p : Pool) (kind : CellKind) (items : List Value) : Option CellId × Pool :=
  items.foldr
    (fun car made =>
      let (c, p) := (made.2.acquire car).newCell { kind, car, cdr := made.1 }
      (some c, p))
    (none, p)

/-- Wraps a value that the caller holds in `n` cells. -/
def nest (p : Pool) : Nat → Value → Value × Pool
  | 0, v => (v, p)
  | n + 1, v =>
    let (c, p) := p.newCell { car := v }
    p.nest n (some (.cell c))

/-- Appends a value that the caller holds behind the last cell of a chain without a cycle. The caller then
holds what was behind that cell. -/
def append (p : Pool) (c : CellId) (v : Value) : Value × Pool :=
  let last := Chain.last p.next p.cells.size c
  let (new, p) := p.newCell { kind := (p.cell c).kind, car := v }
  p.replaceCdr last (some new)

end Pool

end Ownership

end ScriptCore
