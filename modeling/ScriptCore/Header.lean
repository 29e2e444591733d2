import ScriptCore.Hex

/-!
# Headers

The four bytes in front of a serialized object: the family it belongs to and its member number in the family.
-/
namespace ScriptCore

/-- A family and a member of it. -/
structure Header where
  family : UInt16
  member : UInt16
  deriving DecidableEq, Repr

/-- The header that stands for nil and also ends a chain of cells. -/
def Header.nil : Header := ⟨0x0000, 0xffff⟩

/-- A header in messages. -/
def Header.display (h : Header) : String :=
  hexId h.family ++ "/" ++ hexId h.member

end ScriptCore
