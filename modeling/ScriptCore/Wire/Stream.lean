import ScriptCore.Error

/-!
# Byte streams

An `InputStream` delivers bytes, possibly in pieces, and may know how many it has delivered; everything that is
read is read through its one operation `pull`. A `Source` is such a stream reduced to what matters for reading.
A `Sink` takes bytes, possibly in pieces, and may have limited room. Both keep what happened before a failure: a
source stays where the failed read left it, and a sink keeps the bytes that still fitted.
-/
namespace ScriptCore.Wire

/-- Reading from a stream, failing with the stream as far as it was read. -/
abbrev StreamM (σ : Type) := EStateM SerialError σ

/-- Streams to read bytes from. -/
class InputStream (σ : Type) where
  /-- One read for up to `want` bytes. It gives nothing only at the end of the input. -/
  pull (want : Nat) : StreamM σ (List UInt8)
  /-- The number of bytes read so far, if the stream knows. -/
  offset : σ → Option Nat
  /-- The number of bytes that are still to come. -/
  remaining : σ → Nat

namespace InputStream

variable {σ : Type} [InputStream σ]

/-- Reads until `want` bytes are there or the input ends. Each read brings a byte or ends the loop, so
`want` rounds are enough. -/
def gather : Nat → Nat → StreamM σ (List UInt8)
  | 0, _ => pure []
  | rounds + 1, want => do
    if want = 0 then
      return []
    let got ← pull want
    if got.isEmpty then
      return []
    let more ← gather rounds (want - got.length)
    return got ++ more

/-- Up to `want` bytes, fewer only at the end of the input. -/
def upTo (want : Nat) : StreamM σ (List UInt8) :=
  gather want want

/-- Exactly `n` bytes. A shorter input is used up and refused. -/
def exactly (n : Nat) : StreamM σ (List UInt8) := do
  let bytes ← upTo n
  if bytes.length < n then
    throw (.stream .endOfInput)
  return bytes

end InputStream

/-- Ways to present a sequence of bytes as a source. -/
inductive StreamKind where
  /-- A buffer in memory with a position. -/
  | cursor
  /-- A buffer in memory with a position, behind an indirection. -/
  | boxed
  /-- A buffer in memory without a position. -/
  | slice
  /-- A source behind a read-ahead buffer, without a position. -/
  | buffered
  /-- A source whose bytes are counted. -/
  | tracked
  /-- A counted source that gives at most `size` bytes at a time. -/
  | chunked (size : Nat)
  /-- A counted source that fails where the bytes end, instead of reporting the end. -/
  | failing
  deriving DecidableEq, Repr

/-- A stream to read from. -/
structure Source where
  /-- The bytes not yet read. -/
  rest : List UInt8
  /-- The number of bytes read so far. -/
  position : Nat := 0
  /-- Whether the stream can tell its position. -/
  knowsPosition : Bool := true
  /-- Whether reading past the last byte is a failure of the stream. -/
  breaks : Bool := false
  /-- The most bytes one read of the underlying stream gives at a position, if that is limited. One byte is
  always given. -/
  piece : Option (Nat → Nat) := none

namespace Source

/-- A source over `bytes`. -/
def ofBytes (kind : StreamKind) (bytes : List UInt8) : Source :=
  match kind with
  | .cursor | .boxed | .tracked => { rest := bytes }
  | .slice | .buffered => { rest := bytes, knowsPosition := false }
  | .chunked size => { rest := bytes, piece := some fun _ => size }
  | .failing => { rest := bytes, breaks := true }

/-- The position, as far as the stream can tell. -/
def offset (s : Source) : Option Nat :=
  if s.knowsPosition then some s.position else none

/-- The number of bytes one underlying read for `want` bytes asks for at most. -/
def grant (s : Source) (want : Nat) : Nat :=
  match s.piece with
  | none => want
  | some piece => min want (max 1 (piece s.position))

end Source

/-- Reading from a source. -/
abbrev ReadM := StreamM Source

namespace Source

/-- One read of the underlying stream for up to `want` bytes. It gives nothing only at the end. -/
def pull (want : Nat) : ReadM (List UInt8) := fun s =>
  match s.rest with
  | [] => if s.breaks && want ≠ 0 then .error (.stream .broken) s else .ok [] s
  | rest =>
    let n := s.grant want
    let got := rest.take n
    .ok got { s with rest := rest.drop n, position := s.position + got.length }

@[default_instance]
instance : InputStream Source where
  pull := pull
  offset := offset
  remaining s := s.rest.length

end Source

/-- A stream to write to. -/
structure Sink where
  /-- The bytes taken so far. -/
  bytes : Array UInt8 := #[]
  /-- The number of bytes taken so far, counted as they come. -/
  written : Nat := 0
  /-- How many bytes there is room for altogether, if that is limited. -/
  capacity : Option Nat := none
  /-- The most bytes one write takes when so many have been taken before, if that is limited. Where there is room,
  one byte is always taken. -/
  piece : Option (Nat → Nat) := none

/-- Writing to a sink, failing with what had been written. -/
abbrev WriteM := EStateM SerialError Sink

namespace Sink

/-- Takes the given bytes without asking for room. -/
def push (s : Sink) (bytes : List UInt8) : Sink :=
  { s with bytes := s.bytes.appendList bytes, written := s.written + bytes.length }

/-- How many of `want` bytes there is room for. -/
def room (s : Sink) (want : Nat) : Nat :=
  match s.capacity with
  | none => want
  | some capacity => min want (capacity - s.bytes.size)

/-- How many of `want` bytes one write takes. -/
def grant (s : Sink) (want : Nat) : Nat :=
  match s.piece with
  | none => s.room want
  | some piece => min (s.room want) (max 1 (piece s.written))

/-- One write. It takes some of the bytes, from the front, and tells how many. -/
def put (bytes : List UInt8) : WriteM Nat := fun s =>
  let n := s.grant bytes.length
  .ok n (s.push (bytes.take n))

/-- Writes until all bytes are taken, and fails at a write that takes none. Each write takes a byte or ends the
loop, so as many rounds as there are bytes are enough. -/
def putAll : Nat → List UInt8 → WriteM Unit
  | 0, _ => pure ()
  | rounds + 1, bytes => do
    if bytes.isEmpty then
      return
    let taken ← put bytes
    if taken = 0 then
      throw (.stream .noRoom)
    putAll rounds (bytes.drop taken)

/-- Writes all of `bytes`. -/
def write (bytes : List UInt8) : WriteM Unit :=
  putAll bytes.length bytes

end Sink

end ScriptCore.Wire
