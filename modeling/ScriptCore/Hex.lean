/-!
# Hexadecimal text

Ids and bytes appear in messages as lower-case hexadecimal numbers of a fixed width.
-/
namespace ScriptCore

/-- `n` in lower-case hexadecimal, filled up with zeros to at least `width` digits. -/
def hexPad (width n : Nat) : String :=
  let digits := Nat.toDigits 16 n
  String.ofList (List.replicate (width - digits.length) '0' ++ digits)

/-- An id of a family or of a member of it. -/
def hexId (n : UInt16) : String :=
  "0x" ++ hexPad 4 n.toNat

/-- A byte in a message. -/
def hexByte (b : UInt8) : String :=
  "0x" ++ hexPad 2 b.toNat

end ScriptCore
