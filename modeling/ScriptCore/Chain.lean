/-!
# Chains

A chain is what a successor function `next` leads through from a starting point. It ends where `next` gives
nothing, or runs into a cycle. Everything here works for any successor function, so it serves every kind of
linked structure; `size` is a bound on the number of points that can be met.
-/
namespace ScriptCore.Chain

variable {α : Type}

/-- The point `n` steps after `a`, if the chain is that long. Goes round a cycle as often as asked. -/
def follow (next : α → Option α) : Nat → α → Option α
  | 0, a => some a
  | n + 1, a =>
    match next a with
    | none => none
    | some b => follow next n b

/-- The first `n` points from `a` on, fewer if the chain ends before. -/
def walk (next : α → Option α) : Nat → α → List α
  | 0, _ => []
  | n + 1, a =>
    a :: match next a with
      | none => []
      | some b => walk next n b

/-- The last of at most `n` further points after `a`. -/
def last (next : α → Option α) : Nat → α → α
  | 0, a => a
  | n + 1, a =>
    match next a with
    | none => a
    | some b => last next n b

/-- The shape of a chain: how many different points it has, and whether it runs into a cycle. -/
structure Extent where
  cells : Nat
  cyclic : Bool
  deriving DecidableEq, Repr

/-- What a race along a chain finds out. -/
inductive Race where
  /-- The chain ended after this many points. -/
  | ended (visited : Nat)
  /-- The chain is cyclic with this period. -/
  | looped (period : Nat)
  deriving DecidableEq, Repr

variable [DecidableEq α]

/-- Brent's race: `hare` runs ahead one point at a time, and `tortoise` jumps to it whenever the distance
reaches the next power of two. If they meet, the distance run since the last jump is the period. -/
def race (next : α → Option α) : Nat → Nat → Nat → Nat → α → Option α → Race
  | _, _, _, visited, _, none => .ended visited
  | 0, _, _, visited, _, some _ => .ended visited
  | fuel + 1, power, distance, visited, tortoise, some hare =>
    if hare = tortoise then .looped distance
    else if power = distance then race next fuel (2 * power) 1 (visited + 1) hare (next hare)
    else race next fuel power (distance + 1) (visited + 1) tortoise (next hare)

/-- How many steps two points, one of them a period ahead, take until they are the same: the number of
points in front of the cycle. -/
def leadIn (next : α → Option α) : Nat → Nat → α → α → Nat
  | 0, steps, _, _ => steps
  | fuel + 1, steps, a, b =>
    if a = b then steps
    else match next a, next b with
      | some a', some b' => leadIn next fuel (steps + 1) a' b'
      | _, _ => steps

/-- The shape of the chain from `a`. A race is decided within `3 * size` steps, and the part in front of the
cycle has fewer than `size` points, so the bounds below are never reached. -/
def extent (size : Nat) (next : α → Option α) (a : α) : Extent :=
  match race next (4 * (size + 1)) 1 1 1 a (next a) with
  | .ended visited => ⟨visited, false⟩
  | .looped period =>
    let ahead := (follow next period a).getD a
    ⟨leadIn next (size + 1) 0 a ahead + period, true⟩

/-- The different points of the chain from `a`, in order. -/
def points (size : Nat) (next : α → Option α) (a : α) : List α :=
  walk next (extent size next a).cells a

end ScriptCore.Chain
