import ScriptCore.Error

/-!
# Levels of nesting

Values hold values, and how deeply they may be nested is limited when they are written and when they are read.
Each side counts the values it has open. A level is closed however the work inside it ends, so between two
calls no level is open.
-/
namespace ScriptCore

/-- How deeply values may be nested when they are written or read. Nil counts as a level. -/
def maxNesting : Nat := 256

/-- A state, and how many levels are open. -/
structure Nested (σ : Type) where
  state : σ
  depth : Nat := 0

/-- Work on nested values. -/
abbrev NestedM (σ : Type) := EStateM SerialError (Nested σ)

namespace NestedM

variable {σ α : Type}

/-- Work that opens no level. -/
def lift (x : EStateM SerialError σ α) : NestedM σ α := fun n =>
  match x n.state with
  | .ok a state => .ok a { n with state }
  | .error e state => .error e { n with state }

/-- Runs `x` one level deeper, if the limit allows one more level. -/
def level (x : NestedM σ α) : NestedM σ α := fun n =>
  if maxNesting ≤ n.depth then .error (.tooDeep maxNesting) n
  else
    match x { n with depth := n.depth + 1 } with
    | .ok a n => .ok a { n with depth := n.depth - 1 }
    | .error e n => .error e { n with depth := n.depth - 1 }

end NestedM

end ScriptCore
