import ScriptCore.Wire.Item
import ScriptCore.Wire.Stream

/-!
# Reading and writing items

One writer for all items and one reader for each shape. A reader that refuses what it read names the
position at which the refused bytes start; for text that is the position after the length.
-/
namespace ScriptCore.Wire

/-- Writes an item. A text is its length and then its bytes, a header its two numbers. A text that is too long for
its length field is refused before anything is written. -/
def Item.write (i : Item) : WriteM Unit :=
  match i with
  | .text s =>
    if (utf8 s).length ≤ maxTextBytes then do
      Sink.write (bigEndian 4 (utf8 s).length)
      Sink.write (utf8 s)
    else throw (.invalid .textTooLong none)
  | .header h => do
    Sink.write (bigEndian 2 h.family.toNat)
    Sink.write (bigEndian 2 h.member.toNat)
  | _ => Sink.write i.bytes

section Readers

variable {σ : Type} [InputStream σ]

/-- The position of the stream at this moment. -/
def offset : StreamM σ (Option Nat) := do
  return InputStream.offset (← get)

/-- Reads a byte. -/
def readU8 : StreamM σ UInt8 := do
  return UInt8.ofNat (ofBigEndian (← InputStream.exactly 1))

/-- Reads an unsigned number of two bytes. -/
def readU16 : StreamM σ UInt16 := do
  return UInt16.ofNat (ofBigEndian (← InputStream.exactly 2))

/-- Reads an unsigned number of four bytes. -/
def readU32 : StreamM σ UInt32 := do
  return UInt32.ofNat (ofBigEndian (← InputStream.exactly 4))

/-- Reads a signed number of eight bytes. -/
def readI64 : StreamM σ Int64 := do
  return (UInt64.ofNat (ofBigEndian (← InputStream.exactly 8))).toInt64

/-- Reads a truth value, which is a byte 0 or 1. -/
def readBool : StreamM σ Bool := do
  let start ← offset
  match ← readU8 with
  | 0 => return false
  | 1 => return true
  | byte => throw (.invalid (.boolean byte) start)

/-- Reads a text: its length in bytes, then its bytes. -/
def readText : StreamM σ String := do
  let length := (← readU32).toNat
  let start ← offset
  let bytes ← InputStream.upTo length
  if bytes.length ≠ length then
    throw (.invalid (.textCut length bytes.length) start)
  match ofUtf8? bytes with
  | some s => return s
  | none => throw (.invalid .notUtf8 start)

/-- Reads a header. -/
def readHeader : StreamM σ Header := do
  let family ← readU16
  let member ← readU16
  return ⟨family, member⟩

/-- Reads an item of the given shape. -/
def Shape.read : Shape → StreamM σ Item
  | .u8 => return .u8 (← readU8)
  | .u16 => return .u16 (← readU16)
  | .u32 => return .u32 (← readU32)
  | .i64 => return .i64 (← readI64)
  | .bool => return .bool (← readBool)
  | .text => return .text (← readText)
  | .header => return .header (← readHeader)

end Readers

end ScriptCore.Wire
