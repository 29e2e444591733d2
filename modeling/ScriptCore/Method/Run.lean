import ScriptCore.Checked
import ScriptCore.Fault
import ScriptCore.Store.Equality
import ScriptCore.Store.Print

/-!
# The core methods

What each method of the core tables does with a receiver and its arguments. A type of the host may inherit any
core table, so a method can meet a receiver of another type; it then fails, and the receiver is looked at
before the arguments. Reading an argument that was not passed is a crash, which the arity of every core
method rules out.
-/
namespace ScriptCore

/-- Work on a store that may end in any way. -/
abbrev ActM := EStateM Fault Store

/-- The argument at a position. -/
def argument (args : List Value) (i : Nat) : ActM Value :=
  match args[i]? with
  | some v => pure v
  | none =>
    let count := args.length
    throw (.crash s!"index out of bounds: the len is {count} but the index is {i}")

namespace ActM

/-- Ends with new plain data. -/
def datum (d : Datum) : ActM Value :=
  modifyGet fun s => s.newDatum d

/-- The integer a value holds. -/
def integer (v : Value) : ActM Int64 := do
  Fault.ofExcept ((← get).integer v)

/-- The text a value holds. -/
def text (v : Value) : ActM String := do
  Fault.ofExcept ((← get).text v)

/-- The receiver as a cell. -/
def cell (this : Ref) : ActM CellId :=
  match this with
  | .cell c => pure c
  | .atom a => do
    throw (.error (.type (.expected "Cons" ((← get).atom a).typeName)))

/-- The receiver as a native function. -/
def builtin (this : Ref) : ActM Builtin := do
  let s ← get
  match this with
  | .atom a =>
    match s.atom a with
    | .builtin b => pure b
    | other => throw (.error (.type (.expected "Builtin" other.typeName)))
  | .cell _ => throw (.error (.type (.expected "Builtin" "Cons")))

/-- An argument as a position in a list. -/
def index (v : Value) : ActM Nat := do
  let n ← integer v
  if n.toInt < 0 then
    throw (.error (.type (.negativeIndex n)))
  return n.toInt.toNat

/-- Arithmetic on two integers, refused when the result does not fit. -/
def arithmetic (this : Ref) (args : List Value) (name : String) (op : Int → Int → Int) : ActM Value := do
  let m ← integer (some this)
  let n ← integer (← argument args 0)
  match checkedInt64 (op m.toInt n.toInt) with
  | some r => datum (.integer r)
  | none => throw (.error (.type (.overflow name)))

/-- The texts of all arguments, one after the other. -/
def joinTexts (head : String) : List Value → ActM String
  | [] => pure head
  | v :: rest => do joinTexts (head ++ (← text v)) rest

end ActM

open ActM in
/-- Runs a core method. -/
def CoreMethod.run (m : CoreMethod) (this : Ref) (args : List Value) : ActM Value := do
  match m with
  | .repr => datum (.text ((← get).reprRef this))
  | .typeName => datum (.text ((← get).typeName this))
  | .clone => return some (← Fault.lift (Store.clone this))
  | .eql =>
    let other ← argument args 0
    datum (.boolean (other.isSome && (← get).equal (some this) other))
  | .toText =>
    let s ← get
    match s.datum? (some this) with
    | some (.text t) => datum (.text t)
    | _ => datum (.text (s.reprRef this))
  | .add => arithmetic this args "add" (· + ·)
  | .sub => arithmetic this args "sub" (· - ·)
  | .mul => arithmetic this args "mul" (· * ·)
  | .isZero => datum (.boolean ((← integer (some this)) = 0))
  | .negate => datum (.boolean (!(← Fault.ofExcept ((← get).boolean (some this)))))
  | .textLength => datum (.integer (Int64.ofNat (← text (some this)).length))
  | .concat => datum (.text (← joinTexts (← text (some this)) args))
  | .symbolName => datum (.text ((← get).reprRef this))
  | .car =>
    let c ← cell this
    return ((← get).cell c).car
  | .cdr =>
    let c ← cell this
    return .ofLink ((← get).next c)
  | .cadr =>
    let c ← cell this
    return (← get).cadr c
  | .caddr =>
    let c ← cell this
    return (← get).caddr c
  | .setCar =>
    let c ← cell this
    let v ← argument args 0
    modify fun s => s.setCar c v
    return some this
  | .setCdr =>
    let c ← cell this
    let v ← argument args 0
    Fault.lift (Store.setCdrValue c v)
    return some this
  | .append =>
    let c ← cell this
    let v ← argument args 0
    Fault.lift (Store.append c v)
    return some this
  | .length =>
    let c ← cell this
    datum (.integer (Int64.ofNat ((← get).length c)))
  | .isNil =>
    let c ← cell this
    datum (.boolean ((← get).isEmptyCell c))
  | .isBlock =>
    let c ← cell this
    datum (.boolean (((← get).cell c).kind = .block))
  | .fetch =>
    let c ← cell this
    let i ← index (← argument args 0)
    Fault.ofExcept ((← get).fetch c i)
  | .nth =>
    let c ← cell this
    let i ← index (← argument args 0)
    return (← get).nth c i
  | .builtinName => datum (.text (← builtin this).name)
  | .isSpecial => datum (.boolean (← builtin this).isSpecial)

end ScriptCore
