/-!
# Argument counts

How many arguments a method or a form accepts.
-/
namespace ScriptCore

/-- Accepted numbers of arguments. -/
inductive Arity where
  | exact (n : Nat)
  | atLeast (n : Nat)
  | between (least most : Nat)
  deriving DecidableEq, Repr

namespace Arity

/-- Whether `count` arguments are accepted; the ends of a range are. -/
def accepts : Arity → Nat → Bool
  | .exact n, count => count == n
  | .atLeast n, count => n ≤ count
  | .between least most, count => least ≤ count && count ≤ most

/-- The wording used in messages. -/
def display : Arity → String
  | .exact n => toString n
  | .atLeast n => s!"at least {n}"
  | .between least most => s!"{least} to {most}"

/-- The wording used in dumps of internal state. -/
def describe : Arity → String
  | .exact n => s!"Exact({n})"
  | .atLeast n => s!"AtLeast({n})"
  | .between least most => s!"Between({least}, {most})"

end Arity

end ScriptCore
