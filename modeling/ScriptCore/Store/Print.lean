import ScriptCore.Quote
import ScriptCore.Store.List

/-!
# The text of values

Lists print their elements between brackets that tell the kind of the first cell. Printing ends on every
structure: a chain that runs into a cycle prints each of its cells once and then `...`, and a cell that is
met again while it is being printed, through whatever first slots, prints as `...`. The cells that are being
printed are the state of the printer.
-/
namespace ScriptCore

/-- Plain data as text. -/
def Datum.display : Datum → String
  | .integer n => toString n.toInt
  | .boolean b => if b then "true" else "false"
  | .text s => quote s
  | .symbol name => name

/-- The brackets around the elements of a list. -/
def CellKind.brackets : CellKind → String × String
  | .list => ("(", ")")
  | .block => ("\x7b", "\x7d")

/-- Printing, with the cells that are being printed. -/
abbrev PrintM := StateM (List CellId)

namespace Store

/-- The text of a value. Each level of nesting takes one of the first argument. -/
def print (s : Store) : Nat → Value → PrintM String
  | _, none => return "nil"
  | 0, some _ => return "..."
  | n + 1, some (.cell c) => do
    if c ∈ (← get) then
      return "..."
    modify (c :: ·)
    let shape := s.extent c
    let items ← (Chain.walk s.next shape.cells c).mapM fun d => s.print n (s.cell d).car
    modify (·.erase c)
    let (opening, closing) := (s.cell c).kind.brackets
    return opening ++ " ".intercalate items ++ (if shape.cyclic then " ..." else "") ++ closing
  | n + 1, some (.atom a) =>
    match s.atom a with
    | .datum d => return d.display
    | .builtin b => return "<builtin " ++ b.name ++ ">"
    | .host h =>
      match h.fields with
      | [] => return "<" ++ h.type.name ++ ">"
      | fields => do
        let items ← fields.mapM fun
          | .item i => return i.display
          | .value v => s.print n v
        return "<" ++ h.type.name ++ " " ++ ",".intercalate items ++ ">"

/-- More levels of nesting than printing can reach: no cell is open twice, and between two cells no atom
comes twice. -/
def printDepth (s : Store) : Nat :=
  (s.cells.size + 1) * (s.atoms.size + 1) + 1

/-- The text of a value. -/
def repr (s : Store) (v : Value) : String :=
  ((s.print s.printDepth v).run []).1

/-- The text of an object. -/
def reprRef (s : Store) (r : Ref) : String :=
  s.repr (some r)

end Store

end ScriptCore
