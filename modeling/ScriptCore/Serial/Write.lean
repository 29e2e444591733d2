import ScriptCore.Serial.Header
import ScriptCore.Serial.Nesting
import ScriptCore.Store.List
import ScriptCore.Wire.Codec

/-!
# Writing values

Nil is written as the nil marker, any other value as its header and its state. A chain of cells is written
cell by cell without nesting: kind and first slot of the first cell, then for each further cell a header, its
kind and its first slot, and the nil marker at the end. First slots and the values inside records are one
level deeper than what holds them.
-/
namespace ScriptCore

/-- The byte of a kind. -/
def CellKind.byte : CellKind → UInt8
  | .list => 0
  | .block => 1

/-- Plain data as an item. -/
def Datum.item : Datum → Wire.Item
  | .integer n => .i64 n
  | .boolean b => .bool b
  | .text s => .text s
  | .symbol name => .text name

/-- Writing values, with the levels that are open. -/
abbrev SaveM := NestedM Wire.Sink

/-- Writes an item. -/
def SaveM.item (i : Wire.Item) : SaveM Unit :=
  NestedM.lift i.write

namespace Store

open SaveM

/-- Writes kind and first slot of a cell, with `value` for the values inside. -/
def writeCell (s : Store) (value : Value → SaveM Unit) (c : CellId) : SaveM Unit := do
  item (.u8 (s.cell c).kind.byte)
  value (s.cell c).car

/-- Writes the further cells of a chain. -/
def writeTail (s : Store) (value : Value → SaveM Unit) : List CellId → SaveM Unit
  | [] => item (.header .nil)
  | c :: rest => do
    item (.header .cell)
    s.writeCell value c
    s.writeTail value rest

/-- Writes the fields of a record. -/
def writeFields (value : Value → SaveM Unit) : List Field → SaveM Unit
  | [] => return
  | .item i :: rest => do
    item i
    writeFields value rest
  | .value v :: rest => do
    value v
    writeFields value rest

/-- Writes the state of an object, with `value` for the values inside. -/
def writeStateWith (s : Store) (value : Value → SaveM Unit) : Ref → SaveM Unit
  | .cell c =>
    if s.cyclic c then throw (.invalid .cyclic none)
    else do
      s.writeCell value c
      s.writeTail value (s.spine c).tail
  | .atom a =>
    match s.atom a with
    | .datum d => item d.item
    | .builtin b => throw (.notSerializable (Atom.builtin b).typeName)
    | .host h =>
      if h.type.record.isSome then writeFields value h.fields
      else throw (.notSerializable h.type.name)

/-- Writes an object: its header and its state, with `value` for the values inside. -/
def writeObject (s : Store) (value : Value → SaveM Unit) (r : Ref) : SaveM Unit :=
  match s.header? r with
  | none => throw (.notSerializable (s.typeName r))
  | some h => do
    item (.header h)
    s.writeStateWith value r

/-- Writes a value. Each level of nesting takes one of the first argument; as many as there may be levels are
enough, whatever is open already. -/
def writeValue (s : Store) : Nat → Value → SaveM Unit
  | 0, _ => throw (.tooDeep maxNesting)
  | _ + 1, none => NestedM.level (item (.header .nil))
  | n + 1, some r => NestedM.level (s.writeObject (s.writeValue n) r)

/-- Writes a value. -/
def serialize (s : Store) (v : Value) : SaveM Unit :=
  s.writeValue maxNesting v

/-- Writes the state of an object. -/
def writeState (s : Store) (r : Ref) : SaveM Unit :=
  s.writeStateWith (s.writeValue maxNesting) r

end Store

end ScriptCore
