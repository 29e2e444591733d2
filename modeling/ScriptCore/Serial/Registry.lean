import ScriptCore.Dict
import ScriptCore.Serial.Header

/-!
# Families of serializable objects

A family has a decoder that tells which object, still without its state, a member number stands for. Each
family is registered once, the core family is always there, and the family of the nil marker never is.
-/
namespace ScriptCore

/-- A new object before its state has been read. -/
inductive Prototype where
  | cell
  | atom (a : Atom)

namespace Prototype

/-- The type name in diagnostics. -/
def typeName : Prototype → String
  | .cell => "Cons"
  | .atom a => a.typeName

/-- The header the object will report. -/
def header? : Prototype → Option Header
  | .cell => some .cell
  | .atom a => a.header?

/-- Makes the object. -/
def make (p : Prototype) (s : Store) : Ref × Store :=
  match p with
  | .cell => let (c, s) := s.newCell {}; (.cell c, s)
  | .atom a => let (a, s) := s.newAtom a; (.atom a, s)

end Prototype

/-- What each member number of a family stands for. -/
abbrev Decoder := UInt16 → Option Prototype

/-- The members of the core family. -/
def coreDecoder : Decoder
  | 0 => some .cell
  | 1 => some (.atom (.datum (.integer 0)))
  | 2 => some (.atom (.datum (.boolean false)))
  | 3 => some (.atom (.datum (.text "")))
  | 4 => some (.atom (.datum (.symbol "")))
  | _ => none

/-- The registered families. -/
structure Registry where
  families : Dict UInt16 Decoder

namespace Registry

/-- The registry with the core family alone. -/
def core : Registry :=
  ⟨Dict.insert {} coreFamily coreDecoder⟩

/-- The decoder of a family. -/
def decoder? (r : Registry) (family : UInt16) : Option Decoder :=
  r.families.find? family

/-- Whether a family is registered. -/
def isRegistered (r : Registry) (family : UInt16) : Bool :=
  r.families.contains family

/-- Registers a family. -/
def register (r : Registry) (family : UInt16) (decoder : Decoder) : Except SerialError Registry :=
  if family = Header.nil.family then .error (.reserved family)
  else if r.isRegistered family then .error (.alreadyRegistered family)
  else .ok ⟨r.families.insert family decoder⟩

/-- The registry after a call to register a family, which changes nothing if it is refused. -/
def offer (r : Registry) (call : UInt16 × Decoder) : Registry :=
  match r.register call.1 call.2 with
  | .ok r => r
  | .error _ => r

/-- The registry after calls to register families, one after another. -/
def offerAll (r : Registry) (calls : List (UInt16 × Decoder)) : Registry :=
  calls.foldl offer r

/-- The new object that a header stands for. The object must report the same header. -/
def prototype (r : Registry) (h : Header) (start : Option Nat) : Except SerialError Prototype :=
  match r.decoder? h.family with
  | none => .error (.unknownFamily h.family start)
  | some decoder =>
    match decoder h.member with
    | none => .error (.unknownMember h start)
    | some p =>
      match p.header? with
      | none => .error (.notSerializable p.typeName)
      | some found => if found = h then .ok p else .error (.mismatch h found p.typeName start)

end Registry

end ScriptCore
