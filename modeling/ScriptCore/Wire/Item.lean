import ScriptCore.Error

/-!
# Items on the wire

The primitive things a serialized state is made of, and the bytes each of them is written as. Numbers are
big-endian; text is its length in bytes as 32 bits and then its UTF-8 bytes; a header is two 16-bit numbers.
-/
namespace ScriptCore.Wire

/-- What kind of item is to be read. -/
inductive Shape where
  | u8
  | u16
  | u32
  | i64
  | bool
  | text
  | header
  deriving DecidableEq, Repr

/-- An item. -/
inductive Item where
  | u8 (n : UInt8)
  | u16 (n : UInt16)
  | u32 (n : UInt32)
  | i64 (n : Int64)
  | bool (b : Bool)
  | text (s : String)
  | header (h : Header)
  deriving DecidableEq, Repr

/-- The shape an item has. -/
def Item.shape : Item → Shape
  | .u8 _ => .u8
  | .u16 _ => .u16
  | .u32 _ => .u32
  | .i64 _ => .i64
  | .bool _ => .bool
  | .text _ => .text
  | .header _ => .header

/-- The lowest `width` bytes of `n`, most significant first. -/
def bigEndian : Nat → Nat → List UInt8
  | 0, _ => []
  | width + 1, n => bigEndian width (n / 256) ++ [UInt8.ofNat n]

/-- The number whose digits to the base 256 are the given bytes, most significant first. -/
def ofBigEndian (bytes : List UInt8) : Nat :=
  bytes.foldl (fun n b => 256 * n + b.toNat) 0

/-- The bytes of a text. -/
def utf8 (s : String) : List UInt8 :=
  s.toUTF8.data.toList

/-- The text with the given bytes, if they are well-formed UTF-8. -/
def ofUtf8? (bytes : List UInt8) : Option String :=
  String.fromUTF8? (ByteArray.mk bytes.toArray)

/-- The longest text, in bytes, that has a wire form. -/
def maxTextBytes : Nat := UInt32.size - 1

/-- The bytes an item is written as. -/
def Item.bytes : Item → List UInt8
  | .u8 n => [n]
  | .u16 n => bigEndian 2 n.toNat
  | .u32 n => bigEndian 4 n.toNat
  | .i64 n => bigEndian 8 n.toUInt64.toNat
  | .bool b => [if b then 1 else 0]
  | .text s => bigEndian 4 (utf8 s).length ++ utf8 s
  | .header h => bigEndian 2 h.family.toNat ++ bigEndian 2 h.member.toNat

/-- How an item reads in the text of an object. -/
def Item.display : Item → String
  | .u8 n => toString n.toNat
  | .u16 n => toString n.toNat
  | .u32 n => toString n.toNat
  | .i64 n => toString n.toInt
  | .bool b => if b then "true" else "false"
  | .text s => s
  | .header h => h.display

end ScriptCore.Wire
