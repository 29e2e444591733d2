import ScriptCore.Wire.Stream

/-!
# Devices

Streams as they are put together: bytes in memory with or without an index into them, bytes that arrive in pieces,
and streams around another stream, which forward to it, read ahead of what they are asked for, or count what
passes through. Each keeps its place in its own way, and only an index and a counter can tell it.
-/
namespace ScriptCore.Wire

/-- A stream with all that it keeps. -/
inductive Device where
  /-- Bytes in memory, of which those from an index on are still to come. -/
  | cursor (data : List UInt8) (index : Nat)
  /-- The bytes in memory that are still to come. -/
  | slice (rest : List UInt8)
  /-- Bytes that arrive in pieces: the reads from now on give at most as many bytes as `sizes` says, but at least
  one. Reading past the last byte is the end of the input, or a failure of the stream if it `breaks`. -/
  | pieces (sizes : Nat → Nat) (breaks : Bool) (rest : List UInt8)
  /-- A stream behind an indirection. -/
  | boxed (inner : Device)
  /-- A stream of which up to `capacity` bytes are read ahead. -/
  | buffered (capacity : Nat) (buffer : List UInt8) (inner : Device)
  /-- A stream whose bytes are counted. -/
  | tracked (consumed : Nat) (inner : Device)

namespace Device

/-- One read for up to `want` bytes. A buffer is filled when it is empty and passed by when more is wanted than
it can hold. -/
def read (want : Nat) : Device → EStateM.Result SerialError Device (List UInt8)
  | .cursor data index =>
    let got := (data.drop index).take want
    .ok got (.cursor data (index + got.length))
  | .slice rest => .ok (rest.take want) (.slice (rest.drop want))
  | .pieces sizes breaks [] =>
    if breaks && want ≠ 0 then .error (.stream .broken) (.pieces sizes breaks [])
    else .ok [] (.pieces sizes breaks [])
  | .pieces sizes breaks rest =>
    let n := min want (max 1 (sizes 0))
    .ok (rest.take n) (.pieces (fun k => sizes (k + 1)) breaks (rest.drop n))
  | .boxed inner =>
    match inner.read want with
    | .ok got inner => .ok got (.boxed inner)
    | .error e inner => .error e (.boxed inner)
  | .buffered capacity [] inner =>
    if capacity ≤ want then
      match inner.read want with
      | .ok got inner => .ok got (.buffered capacity [] inner)
      | .error e inner => .error e (.buffered capacity [] inner)
    else
      match inner.read capacity with
      | .ok filled inner => .ok (filled.take want) (.buffered capacity (filled.drop want) inner)
      | .error e inner => .error e (.buffered capacity [] inner)
  | .buffered capacity buffer inner =>
    .ok (buffer.take want) (.buffered capacity (buffer.drop want) inner)
  | .tracked consumed inner =>
    match inner.read want with
    | .ok got inner => .ok got (.tracked (consumed + got.length) inner)
    | .error e inner => .error e (.tracked consumed inner)

/-- The position, as far as the device can tell. -/
def position : Device → Option Nat
  | .cursor _ index => some index
  | .slice _ | .pieces .. | .buffered .. => none
  | .boxed inner => inner.position
  | .tracked consumed _ => some consumed

/-- The bytes that are still to come. -/
def rest : Device → List UInt8
  | .cursor data index => data.drop index
  | .slice rest | .pieces _ _ rest => rest
  | .boxed inner | .tracked _ inner => inner.rest
  | .buffered _ buffer inner => buffer ++ inner.rest

/-- Whether reading past the last byte is a failure of the stream. -/
def breaks : Device → Bool
  | .cursor .. | .slice _ => false
  | .pieces _ breaks _ => breaks
  | .boxed inner | .buffered _ _ inner | .tracked _ inner => inner.breaks

instance : InputStream Device where
  pull := read
  offset := position
  remaining d := d.rest.length

/-- A new device over `bytes`. -/
def ofBytes (kind : StreamKind) (bytes : List UInt8) : Device :=
  match kind with
  | .cursor => .cursor bytes 0
  | .boxed => .boxed (.cursor bytes 0)
  | .slice => .slice bytes
  | .buffered => .buffered 8192 [] (.slice bytes)
  | .tracked => .tracked 0 (.slice bytes)
  | .chunked size => .tracked 0 (.pieces (fun _ => size) false bytes)
  | .failing => .tracked 0 (.pieces (fun _ => bytes.length) true bytes)

end Device

end ScriptCore.Wire
