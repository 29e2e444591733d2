import ScriptCore.Config
import ScriptCore.Method.Run
import ScriptCore.Space

/-!
# The state of an engine

Objects, name spaces, the configuration, and how deeply evaluation is nested at the moment. The greatest depth
ever reached is kept too, so that what the limit promises can be said of a whole run.
-/
namespace ScriptCore

/-- The state of an engine. -/
structure Machine where
  store : Store := {}
  spaces : Spaces := {}
  config : Config := {}
  /-- The number of evaluations that are under way. -/
  depth : Nat := 0
  /-- The greatest `depth` there has been. -/
  deepest : Nat := 0

/-- A run of an engine. -/
abbrev RunM := EStateM Fault Machine

namespace Machine

/-- Fails with an error. -/
def fail {α : Type} (e : Error) : RunM α :=
  throw (.error e)

/-- Work on the store of an engine. -/
def onStore {α : Type} (x : ActM α) : RunM α := fun m =>
  match x m.store with
  | .ok a store => .ok a { m with store }
  | .error e store => .error e { m with store }

/-- A question about the store. -/
def ask {α : Type} (f : Store → α) : RunM α := do
  return f (← get).store

/-- Begins an evaluation, if the limit allows one more. -/
def enter : RunM Unit := fun m =>
  let limit := m.config.maxDepth.toNat
  if limit ≤ m.depth then .error (.error (.stackOverflow limit)) m
  else .ok () { m with depth := m.depth + 1, deepest := max m.deepest (m.depth + 1) }

/-- Ends an evaluation. -/
def leave (m : Machine) : Machine :=
  { m with depth := m.depth - 1 }

/-- Runs `x` as an evaluation of its own, which ends however `x` ends. -/
def framed {α : Type} (x : RunM α) : RunM α := do
  enter
  fun m =>
    match x m with
    | .ok a m => .ok a m.leave
    | .error e m => .error e m.leave

/-- Refuses a cyclic chain, if the configuration asks for that. -/
def checkCycle (c : CellId) : RunM Unit := do
  let m ← get
  if m.config.detectCycles && m.store.cyclic c then
    fail .cyclicList

/-- Makes a list of the given values. -/
def newList (items : List Value) : RunM Value :=
  onStore do
    let (link, s) := (← get).newChain .list items
    set s
    return .ofLink link

/-- Binds a name. Gives the value that was bound to it in the same space. -/
def bind (space : SpaceId) (name : String) (v : Value) : RunM (Option Value) :=
  modifyGet fun m =>
    let (old, spaces) := m.spaces.bind space name v
    (old, { m with spaces })

/-- A new engine with another configuration for the same objects and spaces. -/
def reconfigure (m : Machine) (config : Config) : Machine :=
  { m with config, depth := 0, deepest := 0 }

/-- An engine as shown in dumps. -/
def describe (m : Machine) : String :=
  describeStruct "Evaluator"
    [("config", m.config.describe), ("depth", describeStruct "Cell" [("value", toString m.depth)])]

end Machine

end ScriptCore
