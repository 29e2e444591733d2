import ScriptCore.Serial.Nesting
import ScriptCore.Serial.Registry
import ScriptCore.Wire.Codec

/-!
# Reading values

A header selects a new object from the registry, and the object then reads its state. Reading can also replace
the state of an object that is in use. Plain data and records are replaced only when their whole state has
been read; a cell takes over each further cell as soon as that is complete, so that after a failure it heads
the cells read so far.
-/
namespace ScriptCore

open Wire

/-- A store and the stream from which objects are read into it. -/
structure Loading (σ : Type := Source) where
  store : Store
  source : σ

/-- Reading values, with the levels that are open, failing with the objects made and the bytes read so far. -/
abbrev LoadingM (σ : Type) := NestedM (Loading σ)

/-- Reading values from a source. -/
abbrev LoadM := LoadingM Source

variable {σ : Type}

namespace LoadM

/-- Reads from the stream. -/
def onSource {α : Type} (x : StreamM σ α) : LoadingM σ α :=
  NestedM.lift fun l =>
    match x l.source with
    | .ok a source => .ok a { l with source }
    | .error e source => .error e { l with source }

/-- Does something with the store. -/
def onStore {α : Type} (f : Store → α × Store) : LoadingM σ α :=
  NestedM.lift fun l =>
    let (a, store) := f l.store
    .ok a { l with store }

/-- Changes the store. -/
def change (f : Store → Store) : LoadingM σ Unit :=
  onStore fun s => ((), f s)

/-- Tries something. What a failure has done before stays. -/
def attempt {α : Type} (x : LoadingM σ α) : LoadingM σ (Option α) := fun m =>
  match x m with
  | .ok a m => .ok (some a) m
  | .error _ m => .ok none m

end LoadM

open LoadM

/-- The kind that a byte stands for. -/
def CellKind.ofByte? : UInt8 → Option CellKind
  | 0 => some .list
  | 1 => some .block
  | _ => none

variable [InputStream σ]

/-- Reads plain data of the same type. -/
def Datum.readLike : Datum → StreamM σ Datum
  | .integer _ => return .integer (← readI64)
  | .boolean _ => return .boolean (← readBool)
  | .text _ => return .text (← readText)
  | .symbol _ => return .symbol (← readText)

/-- Reads kind and first slot into a cell, with `value` for the values inside. -/
def readCell (value : LoadingM σ Value) (c : CellId) : LoadingM σ Unit := do
  let start ← onSource offset
  let byte ← onSource readU8
  match CellKind.ofByte? byte with
  | none => throw (.invalid (.cellKind byte) start)
  | some kind =>
    let car ← value
    change (·.modifyCell c fun cell => { cell with kind, car })

/-- Reads the further cells of the chain of `c` behind `last`, the latest of them. Every round reads a
header, so the length of the input bounds the number of rounds. -/
def readTail (value : LoadingM σ Value) (c : CellId) : Nat → Option CellId → LoadingM σ Unit
  | 0, _ => throw (.stream .endOfInput)
  | rounds + 1, last => do
    let start ← onSource offset
    let h ← onSource readHeader
    if h = .nil then
      if last.isNone then
        change (·.setCdr c none)
    else if h = .cell then
      let new ← onStore (·.newCell {})
      readCell value new
      change (·.setCdr (last.getD c) (some new))
      readTail value c rounds (some new)
    else
      throw (.invalid (.cdrHeader h) start)

/-- Reads fields as a recipe says, with `value` for the values inside. -/
def Recipe.run (value : LoadingM σ Value) : Recipe → LoadingM σ (List Field)
  | .done fields => return fields
  | .refuse message => throw (.invalid (.native message) none)
  | .item shape next => do
    let i ← onSource shape.read
    (next i).run value
  | .value next => do
    let v ← value
    (next v).run value
  | .view v next => do
    let m ← get
    (next (m.state.store.view v)).run value
  | .attempt first next => do
    let fields ← LoadM.attempt (first.run value)
    (next fields).run value

/-- Reads the state of an object, with `value` for the values inside. -/
def readStateWith (value : LoadingM σ Value) : Ref → LoadingM σ Unit
  | .cell c => do
    readCell value c
    readTail value c (InputStream.remaining (← get).state.source + 1) none
  | .atom a => do
    match (← get).state.store.atom a with
    | .datum d =>
      let d ← onSource d.readLike
      change (·.setAtom a (.datum d))
    | .builtin b => throw (.notSerializable (Atom.builtin b).typeName)
    | .host h =>
      match h.type.record with
      | none => throw (.notSerializable h.type.name)
      | some record =>
        let fields ← (h.type.recipe record).run value
        change (·.setAtom a (.host { h with fields }))

/-- Makes the new object that a header stands for. -/
def Registry.instantiate (r : Registry) (h : Header) (start : Option Nat) : LoadingM σ Ref :=
  match r.prototype h start with
  | .error e => throw e
  | .ok p => onStore p.make

/-- Reads a value. Each level of nesting takes one of the first argument; as many as there may be levels are
enough, whatever is open already. -/
def Registry.readValue (r : Registry) : Nat → LoadingM σ Value
  | 0 => throw (.tooDeep maxNesting)
  | n + 1 => NestedM.level do
    let start ← onSource offset
    let h ← onSource readHeader
    if h = .nil then
      return none
    let ref ← r.instantiate h start
    readStateWith (r.readValue n) ref
    return some ref

/-- Reads a value. -/
def Registry.deserialize (r : Registry) : LoadingM σ Value :=
  r.readValue maxNesting

/-- Replaces the state of an object. -/
def Registry.readState (r : Registry) (ref : Ref) : LoadingM σ Unit :=
  readStateWith (r.readValue maxNesting) ref

end ScriptCore
