import ScriptCore.Chain
import ScriptCore.Store

/-!
# Lists in a store

The chain of a cell is what its second slots lead through. It may run into a cycle; whatever must finish
works on the different cells of the chain, and positions count along the chain, going round a cycle as often
as needed.
-/
namespace ScriptCore.Store

/-- The next cell. -/
def next (s : Store) (c : CellId) : Option CellId :=
  (s.cell c).cdr

/-- The shape of the chain that starts at a cell. -/
def extent (s : Store) (c : CellId) : Chain.Extent :=
  Chain.extent s.cells.size s.next c

/-- The different cells of a chain, in order. -/
def spine (s : Store) (c : CellId) : List CellId :=
  Chain.points s.cells.size s.next c

/-- The first slot of each different cell of a chain. -/
def elements (s : Store) (c : CellId) : List Value :=
  (s.spine c).map fun c => (s.cell c).car

/-- The elements of a chain that may be empty. -/
def elementsOf (s : Store) : Option CellId → List Value
  | none => []
  | some c => s.elements c

/-- The number of different cells of a chain. -/
def length (s : Store) (c : CellId) : Nat :=
  (s.extent c).cells

/-- Whether a chain runs into a cycle. -/
def cyclic (s : Store) (c : CellId) : Bool :=
  (s.extent c).cyclic

/-- The first `n` elements met along a chain, which may go round a cycle. -/
def take (s : Store) (n : Nat) (c : CellId) : List Value :=
  (Chain.walk s.next n c).map fun c => (s.cell c).car

/-- The cell at a position of a chain. -/
def nthCell (s : Store) (c : CellId) (i : Nat) : Option CellId :=
  Chain.follow s.next i c

/-- The element at a position, nil past the end. -/
def nth (s : Store) (c : CellId) (i : Nat) : Value :=
  (s.nthCell c i).bind fun c => (s.cell c).car

/-- The element at a position that must exist. -/
def fetch (s : Store) (c : CellId) (i : Nat) : Except Error Value :=
  match s.nthCell c i with
  | some c => .ok (s.cell c).car
  | none => .error (.indexOutOfRange i (s.length c))

/-- The second element. -/
def cadr (s : Store) (c : CellId) : Value :=
  s.nth c 1

/-- The third element. -/
def caddr (s : Store) (c : CellId) : Value :=
  s.nth c 2

/-- The fourth element. -/
def cadddr (s : Store) (c : CellId) : Value :=
  s.nth c 3

/-- The cell after the next one. -/
def cddr (s : Store) (c : CellId) : Option CellId :=
  (s.next c).bind s.next

/-- The cell after that. -/
def cdddr (s : Store) (c : CellId) : Option CellId :=
  (s.cddr c).bind s.next

/-- Whether both slots are empty. -/
def isEmptyCell (s : Store) (c : CellId) : Bool :=
  (s.cell c).car.isNone && (s.cell c).cdr.isNone

/-- Makes a chain of cells of one kind; no elements make no cell. -/
def newChain (s : Store) (kind : CellKind) (items : List Value) : Option CellId × Store :=
  items.foldr
    (fun car made =>
      let (c, s) := made.2.newCell { kind, car, cdr := made.1 }
      (some c, s))
    (none, s)

/-- The link that a value can become: a cell or nil. -/
def link (s : Store) : Value → Except Error (Option CellId)
  | none => .ok none
  | some (.cell c) => .ok (some c)
  | some (.atom a) => .error (.cdrType (s.atom a).typeName)

/-- Replaces the second slot of a cell by a value that must be a cell or nil. -/
def setCdrValue (c : CellId) (v : Value) : StoreM Unit := do
  match (← get).link v with
  | .ok link => modify fun s => s.setCdr c link
  | .error e => throw e

/-- Appends an element: a new cell of the kind of the first one is linked behind the last one. -/
def append (c : CellId) (v : Value) : StoreM Unit := do
  let s ← get
  if s.cyclic c then
    throw .cyclicList
  let (new, s) := s.newCell { kind := (s.cell c).kind, car := v }
  set (s.setCdr (Chain.last s.next s.cells.size c) (some new))

/-- A copy of a chain: new cells, all of the kind of the first one, with the same elements. -/
def cloneChain (c : CellId) : StoreM CellId := do
  let s ← get
  if s.cyclic c then
    throw .cyclicList
  match s.newChain (s.cell c).kind (s.elements c) with
  | (some copy, s) => set s; return copy
  | (none, s) =>
    let (copy, s) := s.newCell {}
    set s
    return copy

/-- A copy of an object. Plain data and native functions are copied as they are, lists by their cells;
host objects cannot be copied. -/
def clone : Ref → StoreM Ref
  | .cell c => return .cell (← cloneChain c)
  | .atom a => do
    let s ← get
    match s.atom a with
    | .host h => throw (.cloneUnsupported h.type.name)
    | atom =>
      let (copy, s) := s.newAtom atom
      set s
      return .atom copy

end ScriptCore.Store

