import ScriptCore.Json
import ScriptCore.Store.Describe

/-!
# Configuration

The limits under which programs are evaluated, and their JSON form. A document is an object, whose unknown
members are ignored and whose known members come at most once, or an array with the settings in order.
Settings that are missing keep their defaults.
-/
namespace ScriptCore

/-- How evaluation is limited. -/
structure Config where
  /-- The deepest nesting of evaluations. -/
  maxDepth : UInt64 := 1024
  /-- Whether cyclic chains of forms are refused. -/
  detectCycles : Bool := true
  deriving DecidableEq, Repr

namespace Config

/-- The number that decimal digits stand for. -/
def decimal (digits : List Char) : Nat :=
  digits.foldl (fun n c => 10 * n + (c.toNat - '0'.toNat)) 0

/-- A depth: a number without sign, fraction and exponent that fits 64 bits. -/
def depth? : Json → Option UInt64
  | .number digits =>
    let n := decimal digits
    if digits.all Char.isDigit && n < UInt64.size then some (UInt64.ofNat n) else none
  | _ => none

/-- A truth value. -/
def bool? : Json → Option Bool
  | .bool b => some b
  | _ => none

/-- The settings found so far in an object. -/
structure Settings where
  maxDepth : Option UInt64 := none
  detectCycles : Option Bool := none

/-- Takes one more member of an object into account. -/
def Settings.member (p : Settings) : Option String × Json → Option Settings
  | (none, _) => none
  | (some "max_eval_depth", value) =>
    if p.maxDepth.isSome then none
    else (depth? value).map fun n => { p with maxDepth := some n }
  | (some "detect_cycles", value) =>
    if p.detectCycles.isSome then none
    else (bool? value).map fun b => { p with detectCycles := some b }
  | (some _, _) => some p

/-- The settings found, with defaults for the others. -/
def Settings.toConfig (p : Settings) : Config where
  maxDepth := p.maxDepth.getD ({} : Config).maxDepth
  detectCycles := p.detectCycles.getD ({} : Config).detectCycles

/-- The configuration that a JSON value describes. -/
def ofValue? : Json → Option Config
  | .object members => (members.foldlM Settings.member {}).map Settings.toConfig
  | .array [] => some {}
  | .array [depth] => do
    return { maxDepth := ← depth? depth }
  | .array [depth, detect] => do
    return { maxDepth := ← depth? depth, detectCycles := ← bool? detect }
  | _ => none

/-- The configuration that a JSON document describes. -/
def ofJson? (document : String) : Option Config := do
  ofValue? (← Json.parse? document)

/-- The JSON document of a configuration. -/
def toJson (c : Config) : String :=
  "\x7b\n  \"max_eval_depth\": " ++ toString c.maxDepth.toNat ++ ",\n  \"detect_cycles\": " ++
    describeBool c.detectCycles ++ "\n\x7d"

/-- A configuration as shown in dumps. -/
def describe (c : Config) : String :=
  describeStruct "EngineConfig"
    [("max_eval_depth", toString c.maxDepth.toNat), ("detect_cycles", describeBool c.detectCycles)]

end Config

end ScriptCore
