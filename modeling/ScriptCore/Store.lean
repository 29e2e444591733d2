import ScriptCore.Object

/-!
# The store

All objects of an engine. Objects are made and changed, and are found by their identity; nothing is ever
moved or taken away, so an identity stands for one object for good. Looking up an identity that the store
never gave out yields an empty cell or the integer zero.
-/
namespace ScriptCore

/-- The objects of an engine. -/
structure Store where
  cells : Array Cell := #[]
  atoms : Array Atom := #[]

namespace Store

/-- The cell with the given identity. -/
def cell (s : Store) (c : CellId) : Cell :=
  s.cells.getD c.index {}

/-- The atom with the given identity. -/
def atom (s : Store) (a : AtomId) : Atom :=
  s.atoms.getD a.index (.datum (.integer 0))

/-- Makes a cell. -/
def newCell (s : Store) (cell : Cell) : CellId × Store :=
  (⟨s.cells.size⟩, { s with cells := s.cells.push cell })

/-- Makes an atom. -/
def newAtom (s : Store) (atom : Atom) : AtomId × Store :=
  (⟨s.atoms.size⟩, { s with atoms := s.atoms.push atom })

/-- Makes an atom that holds plain data. -/
def newDatum (s : Store) (d : Datum) : Value × Store :=
  let (a, s) := s.newAtom (.datum d)
  (some (.atom a), s)

/-- Changes a cell. -/
def modifyCell (s : Store) (c : CellId) (f : Cell → Cell) : Store :=
  { s with cells := s.cells.modify c.index f }

/-- Replaces the first slot of a cell. -/
def setCar (s : Store) (c : CellId) (v : Value) : Store :=
  s.modifyCell c fun cell => { cell with car := v }

/-- Replaces the second slot of a cell. -/
def setCdr (s : Store) (c : CellId) (link : Option CellId) : Store :=
  s.modifyCell c fun cell => { cell with cdr := link }

/-- Marks a cell as evaluated by one thread at a time. -/
def synchronize (s : Store) (c : CellId) : Store :=
  s.modifyCell c fun cell => { cell with synchronized := true }

/-- Replaces what an atom holds. -/
def setAtom (s : Store) (a : AtomId) (atom : Atom) : Store :=
  { s with atoms := s.atoms.setIfInBounds a.index atom }

/-- The type name of an object. -/
def typeName (s : Store) : Ref → String
  | .cell _ => "Cons"
  | .atom a => (s.atom a).typeName

/-- The type name of a value. -/
def valueTypeName (s : Store) : Value → String
  | none => "nil"
  | some r => s.typeName r

/-- The methods an object answers. -/
def table (s : Store) : Ref → MethodTable
  | .cell _ => .cell
  | .atom a => (s.atom a).table

/-- What native code sees of a value. -/
def view (s : Store) : Value → View
  | none => .nil
  | some (.cell c) => let cell := s.cell c; .cell cell.kind cell.car cell.cdr
  | some (.atom a) =>
    match s.atom a with
    | .datum d => .datum d
    | other => .other other.typeName

/-- The plain data a value holds. -/
def datum? (s : Store) : Value → Option Datum
  | some (.atom a) =>
    match s.atom a with
    | .datum d => some d
    | _ => none
  | _ => none

/-- Everything but nil and `false` counts as true. -/
def truthy (s : Store) : Value → Bool
  | none => false
  | v => s.datum? v ≠ some (.boolean false)

/-- The integer a value holds. -/
def integer (s : Store) (v : Value) : Except Error Int64 :=
  match s.datum? v with
  | some (.integer n) => .ok n
  | _ => .error (.type (.expected "Integer" (s.valueTypeName v)))

/-- The boolean a value holds. -/
def boolean (s : Store) (v : Value) : Except Error Bool :=
  match s.datum? v with
  | some (.boolean b) => .ok b
  | _ => .error (.type (.expected "Boolean" (s.valueTypeName v)))

/-- The text a value holds. -/
def text (s : Store) (v : Value) : Except Error String :=
  match s.datum? v with
  | some (.text t) => .ok t
  | _ => .error (.type (.expected "String" (s.valueTypeName v)))

end Store

/-- Work on a store that may fail; a failure leaves behind what had been done. -/
abbrev StoreM := EStateM Error Store

end ScriptCore
