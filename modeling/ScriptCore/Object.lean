import ScriptCore.Method.Core
import ScriptCore.Wire.Item

/-!
# Objects

What an atom holds: plain data, a native function, or an object of a type that the host added. Host types
come in two sorts. A *record* type has a header and fields; its objects can be serialized and are equal when
their fields are. Any other host type is closed: its objects are equal only to themselves and cannot be
serialized.
-/
namespace ScriptCore

/-- The forms the engine itself supplies. -/
inductive CoreForm where
  | quote
  | cond
  | define
  | list
  | sum
  deriving DecidableEq, Repr

/-- What a native function does: a core form, or host code that gets its arguments evaluated (`strict`)
or gets the chain of argument forms as it stands (`special`). -/
inductive Native where
  | core (f : CoreForm)
  | strict (run : List Value → Program)
  | special (run : Option CellId → Program)

/-- A named native function. -/
structure Builtin where
  name : String
  body : Native

/-- Whether the argument forms arrive unevaluated. -/
def Builtin.isSpecial (b : Builtin) : Bool :=
  match b.body with
  | .core .quote | .core .cond | .core .define => true
  | .core .list | .core .sum => false
  | .strict _ => false
  | .special _ => true

/-- The shape of a field of a record. -/
inductive FieldShape where
  | item (shape : Wire.Shape)
  | value
  deriving DecidableEq, Repr

/-- A field of a record. -/
inductive Field where
  | item (i : Wire.Item)
  | value (v : Value)
  deriving DecidableEq, Repr

/-- How the objects of a record type are serialized. -/
structure Record where
  header : Header
  shapes : List FieldShape
  deriving DecidableEq, Repr

/-- How an object of the host reads its state: a tree of reads, each with a continuation for what was read. An
object sees of a failed read only that it failed, and it does not ask for positions. -/
inductive Recipe where
  /-- The object gets these fields. -/
  | done (fields : List Field)
  /-- The object refuses what it has read. -/
  | refuse (message : String)
  /-- Reads an item. -/
  | item (shape : Wire.Shape) (next : Wire.Item → Recipe)
  /-- Reads a value. -/
  | value (next : Value → Recipe)
  /-- Looks at a value. -/
  | view (v : Value) (next : View → Recipe)
  /-- Tries a recipe, and goes on with its fields or without them. -/
  | attempt (first : Recipe) (next : Option (List Field) → Recipe)

/-- The recipe that reads fields of given shapes behind the ones that are there already. -/
def Recipe.ofShapes : List FieldShape → List Field → Recipe
  | [], fields => .done fields
  | .item shape :: shapes, fields => .item shape fun i => ofShapes shapes (fields ++ [.item i])
  | .value :: shapes, fields => .value fun v => ofShapes shapes (fields ++ [.value v])

/-- A type that the host added. Its objects read their fields one after another, unless the type has a way of its
own to read the state. -/
structure HostType where
  name : String
  table : MethodTable := .object
  record : Option Record := none
  reading : Option Recipe := none

/-- How the objects of a record type read their state. -/
def HostType.recipe (t : HostType) (record : Record) : Recipe :=
  t.reading.getD (.ofShapes record.shapes [])

/-- An object of a host type. -/
structure HostObject where
  type : HostType
  fields : List Field := []

/-- What an atom holds. -/
inductive Atom where
  | datum (d : Datum)
  | builtin (b : Builtin)
  | host (h : HostObject)

namespace Atom

/-- The type name in diagnostics. -/
def typeName : Atom → String
  | .datum d => d.typeName
  | .builtin _ => "Builtin"
  | .host h => h.type.name

/-- The methods an atom answers. -/
def table : Atom → MethodTable
  | .datum (.integer _) => .integer
  | .datum (.boolean _) => .boolean
  | .datum (.text _) => .text
  | .datum (.symbol _) => .symbol
  | .builtin _ => .builtin
  | .host h => h.type.table

end Atom

end ScriptCore
