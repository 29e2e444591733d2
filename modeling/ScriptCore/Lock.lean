import ScriptCore.Dict
import ScriptCore.Store.Describe

/-!
# Lock discipline

A guarded cell holds a number behind a reader/writer lock. Any number of readers may hold it at once, a writer
holds it alone. On one thread a request that would wait for the thread itself is refused: reading while
writing, and writing while reading or writing.

Requests are judged by records that are kept beside the locks: each cell notes the thread that is writing it, and
the thread has a list of the cells it is reading, with one entry for each guard. Only a request to which the
records have no objection goes to the lock, and from a lock that its own thread holds it would not come back.

Locks are held through guards, which are kept under names until they are dropped, or for the time of a scope.
-/
namespace ScriptCore.Lock

/-- The two ways to hold a cell. -/
inductive Mode where
  | read
  | write
  deriving DecidableEq, Repr

/-- What is wrong with a request. -/
inductive Violation where
  | readWhileWriting
  | writeTwice
  | writeWhileReading
  deriving DecidableEq, Repr

/-- The wording of a violation. -/
def Violation.message : Violation → String
  | .readWhileWriting => "lock-discipline violation: read lock requested while holding the write lock"
  | .writeTwice => "lock-discipline violation: write lock requested twice by the same thread"
  | .writeWhileReading => "lock-discipline violation: write lock requested while holding a read lock"

/-- How work on guarded cells ends without an answer. -/
inductive Stop where
  | violation (v : Violation)
  /-- Code in a scope crashed. -/
  | crashed (message : String)
  /-- The thread waits for a lock that nobody will give back. -/
  | waiting
  /-- There is no such cell. -/
  | missing
  deriving DecidableEq, Repr

/-- What a crash says. A thread that waits says nothing. -/
def Stop.message? : Stop → Option String
  | .violation v => some v.message
  | .crashed message => some message
  | .waiting | .missing => none

/-- Identity of a guarded cell. -/
structure LockId where
  index : Nat
  deriving DecidableEq, Repr

/-- Identity of a thread. -/
structure ThreadId where
  index : Nat
  deriving DecidableEq, Repr

/-- A guard: the cell it holds, and how. -/
structure Guard where
  lock : LockId
  mode : Mode
  deriving DecidableEq, Repr

/-! ## Cells and records -/

/-- A reader/writer lock: how many readers hold it, and whether a writer does. -/
structure Latch where
  readers : Nat := 0
  writer : Bool := false
  deriving DecidableEq, Repr

namespace Latch

/-- Takes the lock; none if that has to wait. -/
def take (l : Latch) : Mode → Option Latch
  | .read => if l.writer then none else some { l with readers := l.readers + 1 }
  | .write => if l.writer ∨ l.readers ≠ 0 then none else some { l with writer := true }

/-- Gives the lock back. -/
def give (l : Latch) : Mode → Latch
  | .read => { l with readers := l.readers - 1 }
  | .write => { l with writer := false }

end Latch

/-- A number with its lock, and the thread that is writing it. -/
structure GuardedCell where
  value : Int64 := 0
  latch : Latch := {}
  writer : Option ThreadId := none
  deriving DecidableEq, Repr

/-- Guarded cells as a thread sees them: its list of cells it is reading, and its guards, those under names and
those of the open scopes, the innermost first. -/
structure State where
  thread : ThreadId := ⟨1⟩
  cells : Array GuardedCell := #[]
  reading : Array LockId := #[]
  guards : Dict String Guard := {}
  scopes : List Guard := []

/-- The last position below `n` at which a cell stands in a list. -/
def lastPosition (held : Array LockId) (c : LockId) : Nat → Option Nat
  | 0 => none
  | n + 1 => if held[n]? = some c then some n else lastPosition held c n

/-- Takes the last entry of a cell out of a list. The entry at the end of the list moves to its place. -/
def forget (held : Array LockId) (c : LockId) : Array LockId :=
  match lastPosition held c held.size with
  | none => held
  | some i => (held.swapIfInBounds i (held.size - 1)).pop

namespace State

/-- Makes a guarded cell. -/
def new (s : State) (n : Int64) : LockId × State :=
  (⟨s.cells.size⟩, { s with cells := s.cells.push { value := n } })

/-- The cell with the given identity. -/
def cell (s : State) (c : LockId) : GuardedCell :=
  s.cells.getD c.index {}

/-- Changes a cell. -/
def modify (s : State) (c : LockId) (f : GuardedCell → GuardedCell) : State :=
  { s with cells := s.cells.modify c.index f }

/-- The number in a cell. -/
def value (s : State) (c : LockId) : Int64 :=
  (s.cell c).value

/-- Replaces the number in a cell. -/
def store (s : State) (c : LockId) (n : Int64) : State :=
  s.modify c fun cell => { cell with value := n }

/-- What the records say against a request, if anything. -/
def objection (s : State) (g : Guard) : Option Violation :=
  match g.mode with
  | .read => if (s.cell g.lock).writer = some s.thread then some .readWhileWriting else none
  | .write =>
    if (s.cell g.lock).writer = some s.thread then some .writeTwice
    else if g.lock ∈ s.reading then some .writeWhileReading
    else none

/-- Enters a guard into the records. -/
def record (s : State) (g : Guard) : State :=
  match g.mode with
  | .read => { s with reading := s.reading.push g.lock }
  | .write => s.modify g.lock fun cell => { cell with writer := some s.thread }

/-- Takes a guard out of the records. -/
def unrecord (s : State) (g : Guard) : State :=
  match g.mode with
  | .read => { s with reading := forget s.reading g.lock }
  | .write => s.modify g.lock fun cell => { cell with writer := none }

/-- Takes what a guard holds: the lock, which is then `latch`, and the record. -/
def enter (s : State) (g : Guard) (latch : Latch) : State :=
  (s.modify g.lock fun cell => { cell with latch }).record g

/-- Lets go of what a guard holds: first the record, then the lock. -/
def release (s : State) (g : Guard) : State :=
  (s.unrecord g).modify g.lock fun cell => { cell with latch := cell.latch.give g.mode }

/-- Drops a named guard. -/
def drop (s : State) (name : String) : State :=
  match s.guards.find? name with
  | none => s
  | some g => { s.release g with guards := s.guards.erase name }

/-- Ends the innermost scope. -/
def leave (s : State) : State :=
  match s.scopes with
  | [] => s
  | g :: rest => { s.release g with scopes := rest }

/-- Replaces a number through a named guard, which must be one for writing. -/
def put (s : State) (name : String) (n : Int64) : State :=
  match s.guards.find? name with
  | some ⟨c, .write⟩ => s.store c n
  | _ => s

/-- A cell as shown in dumps. What is being written cannot be looked at. -/
def describe (s : State) (c : LockId) : String :=
  let content := if (s.cell c).latch.writer then quoteDump "<locked>" else toString (s.value c).toInt
  describeStruct "ObjectCell" [("value", content)]

end State

/-! ## Requests -/

/-- Work on guarded cells. A crash leaves behind what had been done. -/
abbrev LockM := EStateM Stop State

/-- Asks for a lock: the records are looked at, then the lock is taken, then the records are brought up to date. -/
def request (g : Guard) : LockM Unit := do
  let s ← get
  if s.cells.size ≤ g.lock.index then
    throw .missing
  if let some v := s.objection g then
    throw (.violation v)
  match (s.cell g.lock).latch.take g.mode with
  | none => throw .waiting
  | some latch => set (s.enter g latch)

/-- Where a guard is kept. -/
inductive Keeper where
  | name (name : String)
  | scope
  deriving DecidableEq, Repr

/-- Makes room for a guard: one that is kept under the same name is dropped. -/
def State.vacate (s : State) : Keeper → State
  | .name name => s.drop name
  | .scope => s

/-- Keeps a guard. -/
def State.keep (s : State) (g : Guard) (keeper : Keeper) : State :=
  let s := s.vacate keeper
  match keeper with
  | .name name => { s with guards := s.guards.insert name g }
  | .scope => { s with scopes := g :: s.scopes }

/-- Asks for a lock and keeps the guard. -/
def take (g : Guard) (keeper : Keeper) : LockM Unit := do
  request g
  modify (·.keep g keeper)

/-- Runs `x` and then ends the innermost scope, however `x` ends. -/
def closing {α : Type} (x : LockM α) : LockM α := fun s =>
  match x s with
  | .ok a s => .ok a s.leave
  | .error e s => .error e s.leave

/-- Runs `x` while a cell is held. -/
def within {α : Type} (g : Guard) (x : LockM α) : LockM α := do
  take g .scope
  closing x

/-- Runs `x` and stops a crash. -/
def caught {α : Type} (x : LockM α) : LockM Unit := fun s =>
  match x s with
  | .ok _ s => .ok () s
  | .error _ s => .ok () s

/-- What code does inside a scope. It can change the number only if it holds the cell for writing. -/
inductive Body : Mode → Type where
  /-- Gives the number. -/
  | value {mode : Mode} : Body mode
  /-- Gives the number and stores another one. -/
  | replace (n : Int64) : Body .write
  /-- Stores a number and goes on. -/
  | store (n : Int64) (rest : Body .write) : Body .write
  | crash {mode : Mode} (message : String) : Body mode
  /-- Opens another scope, and gives the sum of the number and what comes out of that scope. -/
  | nested {mode : Mode} (c : LockId) (inner : Mode) (body : Body inner) : Body mode
  /-- Opens another scope, stops a crash in it, and goes on. -/
  | attempt {mode : Mode} (c : LockId) (inner : Mode) (body : Body inner) (rest : Body mode) : Body mode
  /-- Takes a guard that may outlive the scope, and goes on. -/
  | acquire {mode : Mode} (c : LockId) (wanted : Mode) (name : String) (rest : Body mode) : Body mode
  /-- Drops a named guard and goes on. -/
  | drop {mode : Mode} (name : String) (rest : Body mode) : Body mode
  /-- Replaces a number through a named guard and goes on. -/
  | put {mode : Mode} (name : String) (n : Int64) (rest : Body mode) : Body mode
  deriving Repr

/-- Runs a body in a scope that holds a cell. -/
def Body.run {mode : Mode} (c : LockId) : Body mode → LockM Int64
  | .value => return (← get).value c
  | .replace n => modifyGet fun s => (s.value c, s.store c n)
  | .store n rest => do
    modify (·.store c n)
    rest.run c
  | .crash message => throw (.crashed message)
  | .nested c' inner body => do
    let n := (← get).value c
    return n + (← within ⟨c', inner⟩ (body.run c'))
  | .attempt c' inner body rest => do
    caught (within ⟨c', inner⟩ (body.run c'))
    rest.run c
  | .acquire c' wanted name rest => do
    take ⟨c', wanted⟩ (.name name)
    rest.run c
  | .drop name rest => do
    modify (·.drop name)
    rest.run c
  | .put name n rest => do
    modify (·.put name n)
    rest.run c

/-- Opens a scope that holds a cell, and runs a body in it. -/
def scope (c : LockId) (mode : Mode) (body : Body mode) : LockM Int64 :=
  within ⟨c, mode⟩ (body.run c)

end ScriptCore.Lock
