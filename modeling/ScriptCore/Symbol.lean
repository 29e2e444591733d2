import ScriptCore.Dict
import ScriptCore.Error

/-!
# Interned symbols

A symbol table gives every name a number, the same one each time. Numbers are given out in order, and a name
keeps its number for good. A zone is a small set of numbers that remembers in which order they came.
-/
namespace ScriptCore

/-- Names and their numbers, in both directions. -/
structure SymbolTable where
  ids : Dict String UInt32 := {}
  names : Array String := #[]

namespace SymbolTable

/-- The number of a name that was interned before. -/
def lookup? (t : SymbolTable) (name : String) : Option UInt32 :=
  t.ids.find? name

/-- The number of a name, which is interned if need be. -/
def intern (t : SymbolTable) (name : String) : UInt32 × SymbolTable :=
  match t.lookup? name with
  | some id => (id, t)
  | none =>
    let id := UInt32.ofNat t.names.size
    (id, { ids := t.ids.insert name id, names := t.names.push name })

/-- The name behind a number. -/
def name? (t : SymbolTable) (id : UInt32) : Option String :=
  t.names[id.toNat]?

/-- The name behind a number that must have been given out. -/
def nameOf (t : SymbolTable) (id : UInt32) : Except Error String :=
  match t.name? id with
  | some name => .ok name
  | none => .error (.unknownSymbol id)

/-- A symbol in messages. -/
def display (t : SymbolTable) (id : UInt32) : String :=
  (t.name? id).getD s!"#<quark {id}>"

/-- The number of names. -/
def size (t : SymbolTable) : Nat :=
  t.names.size

end SymbolTable

/-- Symbol numbers in order of arrival, each once. -/
structure Zone where
  ids : List UInt32 := []

namespace Zone

/-- Whether an id is in the zone. -/
def contains (z : Zone) (id : UInt32) : Bool :=
  z.ids.contains id

/-- Adds a number that is not there yet. -/
def insert (z : Zone) (id : UInt32) : Zone :=
  if z.contains id then z else ⟨z.ids ++ [id]⟩

/-- Interns a name and adds its number. -/
def intern (z : Zone) (t : SymbolTable) (name : String) : UInt32 × Zone × SymbolTable :=
  let (id, t) := t.intern name
  (id, z.insert id, t)

/-- The number of ids in the zone. -/
def size (z : Zone) : Nat :=
  z.ids.length

end Zone

end ScriptCore
