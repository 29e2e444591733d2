/-!
# Checked arithmetic

Scripts compute with 64-bit integers. A result that does not fit is no result.
-/
namespace ScriptCore

/-- A number as a 64-bit integer, if it fits. -/
def checkedInt64 (n : Int) : Option Int64 :=
  if Int64.minValue.toInt ≤ n ∧ n ≤ Int64.maxValue.toInt then some (Int64.ofInt n) else none

end ScriptCore
