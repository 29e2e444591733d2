import ScriptCore.Store.Print

/-!
# Dumps of internal state

What an object looks like inside, for diagnostics.
-/
namespace ScriptCore

/-- The text of a structure with named fields. -/
def describeStruct (name : String) (fields : List (String × String)) : String :=
  name ++ " \x7b " ++ ", ".intercalate (fields.map fun f => f.1 ++ ": " ++ f.2) ++ " \x7d"

/-- The text of a truth value. -/
def describeBool (b : Bool) : String :=
  if b then "true" else "false"

namespace Store

/-- A guarded value inside an object. -/
private def describeGuarded (name content : String) : String :=
  describeStruct name [("value", describeStruct "ObjectCell" [("value", content)])]

/-- The inside of an object, for the types that show it. -/
def describe? (s : Store) : Ref → Option String
  | .cell c =>
    let cell := s.cell c
    some (describeStruct "Cons"
      [("kind", cell.kind.name), ("repr", quoteDump (s.reprRef (.cell c))),
       ("synchronized", describeBool cell.synchronized)])
  | .atom a =>
    match s.atom a with
    | .datum (.integer n) => some (describeGuarded "Integer" (toString n.toInt))
    | .datum (.boolean b) => some (describeGuarded "Boolean" (describeBool b))
    | .datum (.text t) => some (describeGuarded "Str" (quoteDump t))
    | .datum (.symbol _) => none
    | .builtin b =>
      some (describeStruct "Builtin" [("name", quoteDump b.name), ("special", describeBool b.isSpecial)])
    | .host _ => none

/-- A value with its type. -/
def describeValue (s : Store) : Value → String
  | none => "None"
  | some r => "Some(" ++ s.typeName r ++ "(" ++ s.reprRef r ++ "))"

end Store

/-- A method as shown in dumps. -/
def Method.describe (m : Method) : String :=
  describeStruct "MethodEntry" [("quark", quoteDump m.name), ("arity", m.arity.describe)]

/-- A method table as shown in dumps. -/
def MethodTable.describe (t : MethodTable) : String :=
  let parent := match t.ancestors with
    | [] => "None"
    | p :: _ => "Some(" ++ quoteDump p.typeName ++ ")"
  describeStruct "MethodTable"
    [("type_name", quoteDump t.layer.typeName), ("parent", parent),
     ("methods", toString t.layer.zone.length)]

end ScriptCore
