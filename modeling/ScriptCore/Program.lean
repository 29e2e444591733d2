import ScriptCore.Value
import ScriptCore.Error

/-!
# What native code may do

Native functions and methods are supplied by the host. A `Program` is one run of such code as the engine sees
it: a tree of requests, each with a continuation for the engine's answer. Native code can look at values,
make new ones, look up and bind names, evaluate forms, apply objects, call methods, handle the errors of such
calls, fail, or crash. It touches objects only through the engine.
-/
namespace ScriptCore

/-- The name under which a method is called: a name, or a symbol number that no name stands behind. -/
inductive Selector where
  | named (name : String)
  | unnamed (id : UInt32)
  deriving DecidableEq, Repr

/-- A selector in messages. -/
def Selector.display : Selector → String
  | .named name => name
  | .unnamed id => s!"#<quark {id}>"

/-- What native code sees when it looks at a value. -/
inductive View where
  | nil
  | datum (d : Datum)
  | cell (kind : CellKind) (car : Value) (cdr : Option CellId)
  | other (typeName : String)
  deriving DecidableEq, Repr

/-- The type name of the viewed value. -/
def View.typeName : View → String
  | .nil => "nil"
  | .datum d => d.typeName
  | .cell .. => "Cons"
  | .other typeName => typeName

/-- A run of native code. -/
inductive Program where
  /-- Ends with a value. -/
  | done (v : Value)
  /-- Ends with an error. -/
  | fail (e : Error)
  /-- Ends in a way that no native code can handle. -/
  | crash (message : String)
  /-- Asks how deeply evaluation is nested. -/
  | depth (k : Nat → Program)
  /-- Looks at a value. -/
  | view (v : Value) (k : View → Program)
  /-- Makes an atom. -/
  | datum (d : Datum) (k : Value → Program)
  /-- Makes a list. -/
  | list (items : List Value) (k : Value → Program)
  /-- Looks up a name. -/
  | find (name : String) (k : Option Value → Program)
  /-- Binds a name, and gets the value that it was bound to in the same space. -/
  | bind (name : String) (v : Value) (k : Option Value → Program)
  /-- Evaluates a form. -/
  | eval (form : Value) (k : Except Error Value → Program)
  /-- Evaluates an object without taking a level of depth. -/
  | evalObject (object : Ref) (k : Except Error Value → Program)
  /-- Evaluates the forms of a chain. -/
  | evalArguments (forms : Option CellId) (k : Except Error (List Value) → Program)
  /-- Evaluates the forms of a chain into a new list. -/
  | evalList (forms : Option CellId) (k : Except Error Value → Program)
  /-- Applies an object to a chain of argument forms. -/
  | apply (operator : Ref) (forms : Option CellId) (k : Except Error Value → Program)
  /-- Calls a method. -/
  | send (receiver : Ref) (method : Selector) (arguments : List Value) (k : Except Error Value → Program)

namespace Program

/-- Ends with the outcome of a request. -/
def finish : Except Error Value → Program
  | .ok v => .done v
  | .error e => .fail e

/-- Ends with a new integer. -/
def integer (n : Int64) : Program :=
  .datum (.integer n) .done

/-- Ends with a new text. -/
def text (s : String) : Program :=
  .datum (.text s) .done

/-- Goes on with the text that `v` holds, and fails if it holds none. -/
def withText (v : Value) (k : String → Program) : Program :=
  .view v fun
    | .datum (.text s) => k s
    | other => .fail (.type (.expected "String" other.typeName))

end Program

end ScriptCore
