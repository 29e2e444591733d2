import ScriptCore.Dict
import ScriptCore.Program

/-!
# Method tables

A type answers the methods it declares itself and those of its ancestors. What one type declares is a
`MethodLayer`: the declared names in order of first declaration, and the method under each name. A
`MethodTable` is a layer with the layers of its ancestors, nearest first. Declaring a name twice keeps its
place and replaces its method; a nearer layer shadows the ones behind it.
-/
namespace ScriptCore

/-- Methods that the engine itself supplies. -/
inductive CoreMethod where
  | repr | typeName | clone | eql
  | toText
  | add | sub | mul | isZero
  | negate
  | textLength | concat
  | symbolName
  | car | cdr | cadr | caddr | setCar | setCdr | append | length | isNil | isBlock | fetch | nth
  | builtinName | isSpecial
  deriving DecidableEq, Repr

/-- What a method does. -/
inductive MethodBody where
  | core (m : CoreMethod)
  | native (run : Ref → List Value → Program)

/-- A method of a type. -/
structure Method where
  name : String
  arity : Arity
  body : MethodBody

/-- What one type declares. -/
structure MethodLayer where
  typeName : String
  /-- The declared names, each once, in order of first declaration. -/
  zone : List String := []
  methods : Dict String Method := {}

namespace MethodLayer

/-- Declares a method. -/
def declare (l : MethodLayer) (m : Method) : MethodLayer :=
  { l with
    zone := if m.name ∈ l.zone then l.zone else l.zone ++ [m.name]
    methods := l.methods.insert m.name m }

/-- The layer of a type that declares the given methods one after the other. -/
def ofMethods (typeName : String) (methods : List Method) : MethodLayer :=
  methods.foldl declare { typeName }

/-- The method this layer has under a selector. -/
def find? (l : MethodLayer) : Selector → Option Method
  | .named name => l.methods.find? name
  | .unnamed _ => none

/-- Whether this layer declares the selector. -/
def declares (l : MethodLayer) : Selector → Bool
  | .named name => l.zone.contains name
  | .unnamed _ => false

end MethodLayer

/-- The methods of a type, its ancestors' included. -/
structure MethodTable where
  layer : MethodLayer
  ancestors : List MethodLayer := []

namespace MethodTable

/-- The table of a type that declares `methods` and has the given parent. -/
def extending (parent : Option MethodTable) (typeName : String) (methods : List Method) : MethodTable where
  layer := .ofMethods typeName methods
  ancestors := match parent with
    | none => []
    | some p => p.layer :: p.ancestors

/-- The layers in the order in which they are searched. -/
def chain (t : MethodTable) : List MethodLayer :=
  t.layer :: t.ancestors

/-- The nearest layer that has a method under the selector, with that method. -/
def find? (t : MethodTable) (s : Selector) : Option (MethodLayer × Method) :=
  t.chain.findSome? fun l => (l.find? s).map fun m => (l, m)

/-- Whether the type itself or, with `inherited`, one of its ancestors declares the selector. -/
def declares (t : MethodTable) (s : Selector) (inherited : Bool) : Bool :=
  t.layer.declares s || inherited && t.ancestors.any fun l => l.declares s

end MethodTable

end ScriptCore
