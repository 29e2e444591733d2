/-!
# Values

A value is nil or refers to an object of a store. Objects are of two sorts: *cells*, the pairs that
lists and code are built from, and *atoms*, everything else. The two sorts have identities of their own,
so the second slot of a cell, which holds a cell or nothing, is an `Option CellId` and can hold nothing else.
-/
namespace ScriptCore

/-- Identity of a cell. -/
structure CellId where
  index : Nat
  deriving DecidableEq, Repr

/-- Identity of an atom. -/
structure AtomId where
  index : Nat
  deriving DecidableEq, Repr

/-- A reference to an object. Two references are the same object exactly when they are equal. -/
inductive Ref where
  | cell (id : CellId)
  | atom (id : AtomId)
  deriving DecidableEq, Repr

/-- A value: nil is `none`. -/
abbrev Value := Option Ref

/-- The value that a link to the next cell stands for. -/
def Value.ofLink (link : Option CellId) : Value :=
  link.map Ref.cell

/-- How a cell evaluates: a `list` is an application, a `block` is a sequence of statements. -/
inductive CellKind where
  | list
  | block
  deriving DecidableEq, Repr

/-- The name of a kind in diagnostics. -/
def CellKind.name : CellKind → String
  | .list => "Normal"
  | .block => "Block"

/-- A pair: the first slot holds any value, the second the next cell of the chain. A synchronized cell is
evaluated by one thread at a time. -/
structure Cell where
  kind : CellKind := .list
  car : Value := none
  cdr : Option CellId := none
  synchronized : Bool := false
  deriving DecidableEq, Repr, Inhabited

/-- Plain data held by an atom. -/
inductive Datum where
  | integer (n : Int64)
  | boolean (b : Bool)
  | text (s : String)
  | symbol (name : String)
  deriving DecidableEq, Repr

/-- The type name of a datum in diagnostics. -/
def Datum.typeName : Datum → String
  | .integer _ => "Integer"
  | .boolean _ => "Boolean"
  | .text _ => "String"
  | .symbol _ => "Lexical"

end ScriptCore
