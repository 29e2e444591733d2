import ScriptCore.Store

/-!
# Headers of objects

Every serializable object has a header that tells what it is. The core family has the cells and the plain
data; records of the host carry the headers of their types. Native functions and closed host types have none.
-/
namespace ScriptCore

/-- The family of the engine's own types. -/
def coreFamily : UInt16 := 0x0001

/-- The header of cells. -/
def Header.cell : Header := ⟨coreFamily, 0⟩

/-- The header of plain data. -/
def Datum.header : Datum → Header
  | .integer _ => ⟨coreFamily, 1⟩
  | .boolean _ => ⟨coreFamily, 2⟩
  | .text _ => ⟨coreFamily, 3⟩
  | .symbol _ => ⟨coreFamily, 4⟩

/-- The header of an atom, if it is serializable. -/
def Atom.header? : Atom → Option Header
  | .datum d => some d.header
  | .builtin _ => none
  | .host h => h.type.record.map Record.header

/-- The header of an object, if it is serializable. -/
def Store.header? (s : Store) : Ref → Option Header
  | .cell _ => some .cell
  | .atom a => (s.atom a).header?

end ScriptCore
