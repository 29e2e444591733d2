import ScriptCore.Method.Table

/-!
# The core method tables

One table for each type the engine knows, with the root table `object` behind all of them and `literal`
shared by the types that evaluate to themselves.
-/
namespace ScriptCore.MethodTable

/-- A method that the engine supplies. -/
private def coreMethod (name : String) (arity : Arity) (m : CoreMethod) : Method :=
  ⟨name, arity, .core m⟩

/-- What every object answers. -/
def object : MethodTable :=
  .extending none "Object"
    [coreMethod "repr" (.exact 0) .repr,
     coreMethod "type-name" (.exact 0) .typeName,
     coreMethod "clone" (.exact 0) .clone,
     coreMethod "eql" (.exact 1) .eql]

/-- What integers, booleans and texts have in common. -/
def literal : MethodTable :=
  .extending object "Literal"
    [coreMethod "to-string" (.exact 0) .toText]

/-- The methods of integers. -/
def integer : MethodTable :=
  .extending literal "Integer"
    [coreMethod "add" (.exact 1) .add,
     coreMethod "sub" (.exact 1) .sub,
     coreMethod "mul" (.exact 1) .mul,
     coreMethod "zero-p" (.exact 0) .isZero]

/-- The methods of booleans. -/
def boolean : MethodTable :=
  .extending literal "Boolean"
    [coreMethod "not" (.exact 0) .negate]

/-- The methods of texts. -/
def text : MethodTable :=
  .extending literal "String"
    [coreMethod "length" (.exact 0) .textLength,
     coreMethod "concat" (.atLeast 1) .concat]

/-- The methods of symbols. -/
def symbol : MethodTable :=
  .extending object "Lexical"
    [coreMethod "symbol-name" (.exact 0) .symbolName]

/-- The methods of cells. -/
def cell : MethodTable :=
  .extending object "Cons"
    [coreMethod "get-car" (.exact 0) .car,
     coreMethod "get-cdr" (.exact 0) .cdr,
     coreMethod "get-cadr" (.exact 0) .cadr,
     coreMethod "get-caddr" (.exact 0) .caddr,
     coreMethod "set-car" (.exact 1) .setCar,
     coreMethod "set-cdr" (.exact 1) .setCdr,
     coreMethod "add" (.exact 1) .append,
     coreMethod "length" (.exact 0) .length,
     coreMethod "nil-p" (.exact 0) .isNil,
     coreMethod "block-p" (.exact 0) .isBlock,
     coreMethod "get" (.exact 1) .fetch,
     coreMethod "nth" (.exact 1) .nth]

/-- The methods of native functions. -/
def builtin : MethodTable :=
  .extending object "Builtin"
    [coreMethod "name" (.exact 0) .builtinName,
     coreMethod "special-p" (.exact 0) .isSpecial]

/-- The core tables by the name of their type. -/
def core : List MethodTable :=
  [object, literal, integer, boolean, text, symbol, cell, builtin]

end ScriptCore.MethodTable
