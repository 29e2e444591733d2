import ScriptCore.Error

/-!
# How runs end

A run ends with a value or with a fault. Errors are the faults that native code can handle; a crash of native
code and exhausted fuel are not.
-/
namespace ScriptCore

/-- How a run ends without a value. -/
inductive Fault where
  | error (e : Error)
  /-- Native code gave up in a way that nothing on the way out may handle. -/
  | crash (message : String)
  /-- The run was cut off because it used up its fuel. -/
  | exhausted
  deriving DecidableEq, Repr

namespace Fault

variable {σ α : Type}

/-- Work that can only fail with errors, as work that can fail in any way. -/
def lift (x : EStateM Error σ α) : EStateM Fault σ α := fun s =>
  match x s with
  | .ok a s => .ok a s
  | .error e s => .error (.error e) s

/-- An outcome as work that does nothing else. -/
def ofExcept : Except Error α → EStateM Fault σ α
  | .ok a => pure a
  | .error e => throw (.error e)

/-- Lets errors come back as outcomes; a crash and exhausted fuel go through. -/
def catching (x : EStateM Fault σ α) : EStateM Fault σ (Except Error α) := fun s =>
  match x s with
  | .ok a s => .ok (.ok a) s
  | .error (.error e) s => .ok (.error e) s
  | .error f s => .error f s

end Fault

end ScriptCore
