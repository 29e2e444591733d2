import ScriptCore.Dict
import ScriptCore.Error
import ScriptCore.Ownership.Pool

/-!
# Handles

A client holds counted objects under names: through handles and through bindings of one name space. A handle
that is made again under its name lets go of the old object after the new one is there.
-/
namespace ScriptCore.Ownership

/-- Counted objects and what a client holds of them. -/
structure Holdings where
  pool : Pool := {}
  handles : Dict String Ref := {}
  bindings : Dict String Value := {}

/-- What a client does. Names stand for handles, and a missing name for nil. -/
inductive Step where
  /-- Makes a leaf that is labelled like its handle. -/
  | new (h : String)
  | acquire (h source : String)
  | cell (h : String) (car cdr : Option String)
  | chain (h : String) (kind : CellKind) (items : List (Option String))
  /-- Makes a chain of `n` cells with one and the same element. -/
  | long (h : String) (n : Nat) (car : Option String)
  /-- Wraps a value in `n` cells. -/
  | deep (h : String) (n : Nat) (v : Option String)
  | car (h source : String)
  | cdr (h source : String)
  | clone (h source : String)
  /-- Makes a handle of what a name is bound to. -/
  | find (h name : String)
  | release (h : String)
  | setCar (h : String) (v : Option String)
  | setCdr (h : String) (v : Option String)
  | append (h : String) (v : Option String)
  | bind (name : String) (v : Option String)
  | unbind (name : String)
  deriving Repr

/-- What a step answers. -/
inductive Answer where
  /-- A handle was made; `old` tells whether there was one of that name. -/
  | handle (old : Bool)
  | done
  /-- A binding was changed; `old` tells whether there was one. -/
  | binding (old : Bool)
  deriving DecidableEq, Repr

/-- What a step comes to, up to the last thing it does: it lets go of `old`, which was replaced or removed. -/
structure Change where
  answer : Answer
  old : Value
  holdings : Holdings

namespace Holdings

/-- The value that an argument stands for. -/
def value (s : Holdings) (name : Option String) : Value :=
  name.bind s.handles.find?

/-- The cell that a handle holds. -/
def cell? (s : Holdings) (h : String) : Option CellId :=
  match s.handles.find? h with
  | some (.cell c) => some c
  | _ => none

/-- The cell that an argument stands for, for use as a second slot. -/
def link (s : Holdings) (name : Option String) : Except Error (Option CellId) :=
  match s.value name with
  | none => .ok none
  | some (.cell c) => .ok (some c)
  | some (.atom _) => .error (.cdrType "Counted")

/-- Makes a handle for a value on which one hold was taken, in place of the old one of that name. Nil needs no
handle. -/
def assign (s : Holdings) (h : String) (v : Value) (pool : Pool) : Change :=
  let old := s.handles.find? h
  let handles := match v with
    | some r => s.handles.insert h r
    | none => s.handles.erase h
  ⟨.handle old.isSome, old, { s with pool, handles }⟩

/-- Makes a handle for a value that others hold. -/
def share (s : Holdings) (h : String) (v : Value) : Change :=
  s.assign h v (s.pool.acquire v)

/-- Makes a handle for a chain of cells. -/
def assignChain (s : Holdings) (h : String) (kind : CellKind) (items : List Value) : Change :=
  let (c, pool) := s.pool.newChain kind items
  s.assign h (.ofLink c) pool

/-- Changes the cell of a handle. With the pool, `f` gives what came out of a slot. Without a cell nothing
happens. -/
def onCell (s : Holdings) (h : String) (f : CellId → Value × Pool) : Change :=
  match s.cell? h with
  | none => ⟨.done, none, s⟩
  | some c =>
    let (old, pool) := f c
    ⟨.done, old, { s with pool }⟩

/-- Carries out a step up to the point where something is let go of. -/
def change (s : Holdings) : Step → Except Error Change
  | .new h =>
    let (a, pool) := s.pool.newLeaf h
    .ok (s.assign h (some (.atom a)) pool)
  | .acquire h source => .ok (s.share h (s.value source))
  | .cell h car cdr => do
    let cdr ← s.link cdr
    let car := s.value car
    let (c, pool) := ((s.pool.acquire car).acquire (.ofLink cdr)).newCell { car, cdr }
    return s.assign h (some (.cell c)) pool
  | .chain h kind items => .ok (s.assignChain h kind (items.map s.value))
  | .long h n car => .ok (s.assignChain h .list (List.replicate n (s.value car)))
  | .deep h n v =>
    let v := s.value v
    let (v, pool) := (s.pool.acquire v).nest n v
    .ok (s.assign h v pool)
  | .car h source => .ok (s.share h ((s.cell? source).bind fun c => (s.pool.cell c).car))
  | .cdr h source => .ok (s.share h (.ofLink ((s.cell? source).bind s.pool.next)))
  | .clone h source =>
    match s.cell? source with
    | none => .error (.cloneUnsupported "Counted")
    | some c =>
      if (s.pool.extent c).cyclic then .error .cyclicList
      else .ok (s.assignChain h (s.pool.cell c).kind (s.pool.elements c))
  | .find h name => .ok (s.share h (s.bindings.find? name).join)
  | .release h => .ok ⟨.done, s.value h, { s with handles := s.handles.erase h }⟩
  | .setCar h v =>
    let v := s.value v
    .ok (s.onCell h fun c => (s.pool.acquire v).replaceCar c v)
  | .setCdr h v => do
    let link ← s.link v
    return s.onCell h fun c => (s.pool.acquire (.ofLink link)).replaceCdr c link
  | .append h v =>
    if ((s.cell? h).map s.pool.extent).any Chain.Extent.cyclic then .error .cyclicList
    else
      let v := s.value v
      .ok (s.onCell h fun c => (s.pool.acquire v).append c v)
  | .bind name v =>
    let v := s.value v
    let old := s.bindings.find? name
    .ok ⟨.binding old.isSome, old.join, { s with pool := s.pool.acquire v, bindings := s.bindings.insert name v }⟩
  | .unbind name =>
    let old := s.bindings.find? name
    .ok ⟨.binding old.isSome, old.join, { s with bindings := s.bindings.erase name }⟩

end Holdings

/-- Lets go of what is left over from a step. -/
def Change.settle (c : Change) : Holdings :=
  { c.holdings with pool := c.holdings.pool.release c.old }

namespace Holdings

/-- Carries out a step. A step that fails changes nothing. -/
def step (s : Holdings) (st : Step) : Except Error (Answer × Holdings) := do
  let c ← s.change st
  return (c.answer, c.settle)

/-- The number of holders of what each handle holds. -/
def counts (s : Holdings) : List (String × Nat) :=
  s.handles.entries.map fun (h, r) => (h, s.pool.holders r)

/-- The labels of the leaves that were destroyed between two states, in order. -/
def destroyedSince (s : Holdings) (before : Holdings) : List String :=
  (s.pool.destroyed.toList.drop before.pool.destroyed.size).filterMap fun
    | .atom a => some (s.pool.label a)
    | .cell _ => none

/-- Names in the order in which everything is let go of at the end. -/
def inOrder (names : List String) : List String :=
  names.mergeSort fun a b => decide (a ≤ b)

/-- Carries out a step, or nothing if it fails. -/
def next (s : Holdings) (st : Step) : Holdings :=
  match s.step st with
  | .ok (_, s) => s
  | .error _ => s

/-- Lets go of all handles and then of all bindings, each in the order of their names, and tells what each of
them destroyed. -/
def close (s : Holdings) : List (String × List String) × Holdings :=
  let give (out : List (String × List String) × Holdings) (name : String) (st : Step) :=
    let next := out.2.next st
    (out.1 ++ [(name, next.destroyedSince out.2)], next)
  let out := (inOrder s.handles.keys).foldl (fun out h => give out h (.release h)) ([], s)
  (inOrder s.bindings.keys).foldl (fun out name => give out ("ns:" ++ name) (.unbind name)) out

end Holdings

end ScriptCore.Ownership
