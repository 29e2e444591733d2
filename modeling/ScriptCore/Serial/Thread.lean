import ScriptCore.Serial.Read
import ScriptCore.Serial.Write

/-!
# Calls of a thread

A thread writes and reads values one call after another. Between the calls it keeps the objects and, for each
side, the number of open levels; each call goes on from the numbers that the last one left.
-/
namespace ScriptCore

open Wire

/-- What a thread keeps between two calls. -/
structure Thread where
  store : Store := {}
  /-- The number of values that are being written. -/
  writing : Nat := 0
  /-- The number of values that are being read. -/
  reading : Nat := 0

/-- The work of a thread. -/
abbrev ThreadM := StateM Thread

/-- How a call ends, and what is left of the stream it worked on. -/
abbrev Call (σ α : Type) := ThreadM (EStateM.Result SerialError σ α)

namespace Thread

variable {σ α : Type}

/-- Writes to a sink. -/
def save (x : Store → SaveM α) (sink : Sink) : Call Sink α := fun t =>
  match x t.store ⟨sink, t.writing⟩ with
  | .ok a n => (.ok a n.state, { t with writing := n.depth })
  | .error e n => (.error e n.state, { t with writing := n.depth })

/-- Reads from a stream. -/
def load (x : LoadingM σ α) (source : σ) : Call σ α := fun t =>
  match x ⟨⟨t.store, source⟩, t.reading⟩ with
  | .ok a n => (.ok a n.state.source, { t with store := n.state.store, reading := n.depth })
  | .error e n => (.error e n.state.source, { t with store := n.state.store, reading := n.depth })

/-- Writes a value. -/
def serialize (v : Value) : Sink → Call Sink Unit :=
  save (·.serialize v)

/-- Writes the state of an object. -/
def writeState (r : Ref) : Sink → Call Sink Unit :=
  save (·.writeState r)

/-- Reads a value. -/
def deserialize [InputStream σ] (r : Registry) : σ → Call σ Value :=
  load r.deserialize

/-- Replaces the state of an object. -/
def readState [InputStream σ] (r : Registry) (ref : Ref) : σ → Call σ Unit :=
  load (r.readState ref)

/-- The bytes of a value. -/
def toBytes (v : Value) : ThreadM (Except SerialError (List UInt8)) := do
  match ← serialize v {} with
  | .ok _ sink => return .ok sink.bytes.toList
  | .error e _ => return .error e

/-- Reads a value that takes up all of the given bytes. -/
def ofBytes (r : Registry) (bytes : List UInt8) : ThreadM (Except SerialError Value) := do
  match ← deserialize r (.ofBytes .cursor bytes) with
  | .error e _ => return .error e
  | .ok v source =>
    match source.rest with
    | [] => return .ok v
    | rest => return .error (.invalid (.trailing rest.length) (some source.position))

end Thread

/-- The bytes of a value, as a thread with no level open writes them. -/
def Store.toBytes (s : Store) (v : Value) : Except SerialError (List UInt8) :=
  (Thread.toBytes v { store := s }).1

/-- Reads a value from bytes, as a thread with no level open does. -/
def Registry.ofBytes (r : Registry) (bytes : List UInt8) : EStateM SerialError Store Value := fun store =>
  match Thread.ofBytes r bytes { store } with
  | (.ok v, t) => .ok v t.store
  | (.error e, t) => .error e t.store

end ScriptCore
