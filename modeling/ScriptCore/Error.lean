import ScriptCore.Arity
import ScriptCore.Header

/-!
# Errors

Every failure a caller can recover from, as its cause, and the wording of each cause. Positions in a stream
are part of the errors that point at bytes, and are absent when the stream does not know where it is.
-/
namespace ScriptCore

/-- What a stream can fail with. -/
inductive StreamError where
  /-- The input ended inside a fixed-width item. -/
  | endOfInput
  /-- The output has no room left. -/
  | noRoom
  /-- The stream itself broke. -/
  | broken
  deriving DecidableEq, Repr

/-- The wording of a failure of a stream. -/
def StreamError.message : StreamError → String
  | .endOfInput => "failed to fill whole buffer"
  | .noRoom => "failed to write whole buffer"
  | .broken => "stream broken"

/-- What can be wrong with serialized data, or with a value that is to be serialized. -/
inductive DataError where
  | cellKind (byte : UInt8)
  | boolean (byte : UInt8)
  | cdrHeader (found : Header)
  | textCut (expected got : Nat)
  | notUtf8
  | textTooLong
  | cyclic
  | trailing (count : Nat)
  /-- A complaint of native code that the engine does not interpret. -/
  | native (message : String)
  deriving DecidableEq, Repr

/-- The wording of what is wrong with data. -/
def DataError.message : DataError → String
  | .cellKind byte => "invalid cons kind " ++ hexByte byte
  | .boolean byte => "invalid boolean byte " ++ hexByte byte
  | .cdrHeader found => "cdr must be a cons cell, found header " ++ found.display
  | .textCut expected got => s!"string truncated: expected {expected} bytes, got {got}"
  | .notUtf8 => "invalid UTF-8 in string"
  | .textTooLong => "string longer than 4 GiB"
  | .cyclic => "cannot serialize a cyclic list"
  | .trailing count => s!"{count} trailing bytes"
  | .native message => message

/-- Failures of reading, writing and registering serialized objects. -/
inductive SerialError where
  | unknownFamily (family : UInt16) (offset : Option Nat)
  | unknownMember (header : Header) (offset : Option Nat)
  /-- A decoder built an object whose own header is not the one that was read. -/
  | mismatch (header found : Header) (typeName : String) (offset : Option Nat)
  | notSerializable (typeName : String)
  | alreadyRegistered (family : UInt16)
  | reserved (family : UInt16)
  | invalid (problem : DataError) (offset : Option Nat)
  | tooDeep (limit : Nat)
  | stream (problem : StreamError)
  deriving DecidableEq, Repr

/-- Where in a stream a problem lies, as the end of a message. -/
def offsetText : Option Nat → String
  | some n => s!" at offset {n}"
  | none => ""

/-- The wording of a failure to write or read values. -/
def SerialError.message (e : SerialError) : String :=
  "serial-error: " ++ match e with
    | .unknownFamily family offset => "unknown family " ++ hexId family ++ offsetText offset
    | .unknownMember h offset =>
      "family " ++ hexId h.family ++ " has no sub-id " ++ hexId h.member ++ offsetText offset
    | .mismatch h found typeName offset =>
      "header " ++ h.display ++ " decoded to object of type " ++ typeName ++ " (" ++ found.display ++ ")"
        ++ offsetText offset
    | .notSerializable typeName => s!"object of type {typeName} is not serializable"
    | .alreadyRegistered family => "family " ++ hexId family ++ " is already registered"
    | .reserved family => "family " ++ hexId family ++ " is reserved"
    | .invalid problem offset => problem.message ++ offsetText offset
    | .tooDeep limit => s!"nesting deeper than {limit} levels"
    | .stream problem => problem.message

/-- What can be wrong with an operand. -/
inductive TypeError where
  | expected (wanted found : String)
  | overflow (operation : String)
  | negativeIndex (n : Int64)
  | bindsNoSymbol
  /-- A complaint of native code that the engine does not interpret. -/
  | native (message : String)
  deriving DecidableEq, Repr

/-- The wording of a type error. -/
def TypeError.message : TypeError → String
  | .expected wanted found => s!"expected {wanted}, got {found}"
  | .overflow operation => s!"integer overflow in {operation}"
  | .negativeIndex n => "index must be non-negative, got " ++ toString n.toInt
  | .bindsNoSymbol => "const expects a symbol to bind"
  | .native message => message

/-- Failures of method calls, evaluation and list operations. -/
inductive Error where
  | unboundMethod (method typeName : String)
  | unknownSymbol (id : UInt32)
  | unboundSymbol (name : String)
  /-- Something other than a cell or nil was to become the second slot of a cell. -/
  | cdrType (found : String)
  | indexOutOfRange (index length : Nat)
  | arity (method : String) (expected : Arity) (got : Nat)
  | type (problem : TypeError)
  | notCallable (typeName : String)
  | cloneUnsupported (typeName : String)
  | stackOverflow (limit : Nat)
  | cyclicList
  | serial (problem : SerialError)
  deriving DecidableEq, Repr

/-- The wording of an error, which starts with its kind. -/
def Error.message : Error → String
  | .unboundMethod method typeName => s!"unbound-method: no method `{method}` for object of type {typeName}"
  | .unknownSymbol id => s!"unknown-symbol: quark #{id} was never interned"
  | .unboundSymbol name => s!"unbound-symbol: {name}"
  | .cdrType found => s!"cons-type-error: cdr must be a cons cell or nil, got {found}"
  | .indexOutOfRange index length => s!"index-error: index {index} is out of range for length {length}"
  | .arity method expected got =>
    s!"arity-error: `{method}` expects " ++ expected.display ++ s!" argument(s), got {got}"
  | .type problem => "type-error: " ++ problem.message
  | .notCallable typeName => s!"apply-error: object of type {typeName} is not callable"
  | .cloneUnsupported typeName => s!"clone-error: object of type {typeName} cannot be cloned"
  | .stackOverflow limit => s!"stack-overflow: maximum evaluation depth {limit} exceeded"
  | .cyclicList => "cons-cycle: list is cyclic"
  | .serial problem => problem.message

end ScriptCore
