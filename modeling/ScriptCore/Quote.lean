import ScriptCore.Hex

/-!
# Quoted text

Two ways to write a text between quotation marks. In the text of values, only the marks themselves, the
backslash and three blanks are escaped. In dumps of internal state, the other control characters are too.
-/
namespace ScriptCore

/-- A character inside quotation marks. -/
def escape : Char → List Char
  | '"' => ['\\', '"']
  | '\\' => ['\\', '\\']
  | '\n' => ['\\', 'n']
  | '\t' => ['\\', 't']
  | '\r' => ['\\', 'r']
  | c => [c]

/-- A text as values show it. -/
def quote (s : String) : String :=
  String.ofList ('"' :: (s.toList.flatMap escape ++ ['"']))

/-- Control characters: the first thirty-two, the one after the tilde, and the thirty-two behind it. -/
def isControl (c : Char) : Bool :=
  c.toNat < 0x20 || 0x7f ≤ c.toNat && c.toNat < 0xa0

/-- A character inside quotation marks in a dump. -/
def escapeDump (c : Char) : List Char :=
  match escape c with
  | [_] =>
    if c.toNat = 0 then ['\\', '0']
    else if isControl c then ("\\u\x7b" ++ hexPad 1 c.toNat ++ "\x7d").toList
    else [c]
  | escaped => escaped

/-- A text as dumps of internal state show it. -/
def quoteDump (s : String) : String :=
  String.ofList ('"' :: (s.toList.flatMap escapeDump ++ ['"']))

end ScriptCore
