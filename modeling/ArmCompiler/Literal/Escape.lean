/-!
# Escapes in Message Texts

String literals arrive with escapes and are decoded once, before they are stored. When a text
is written into the data section it is encoded again, for a quoted assembler string.

Decoding knows one escape more than encoding writes: a single quote may be escaped but need
not be. A backslash before any other character, or at the end, stands for itself.
-/

namespace ArmCompiler.Escape

/-- The character that an escape letter stands for. -/
def unescape? : Char → Option Char
  | '0' => some '\x00'
  | 'b' => some '\x08'
  | 'n' => some '\n'
  | 'f' => some '\x0c'
  | 'r' => some '\r'
  | '\"' => some '\"'
  | '\'' => some '\''
  | '\\' => some '\\'
  | _ => none

/-- The escape letter of a character that must not stand in a quoted assembler string as it
is. -/
def letter? : Char → Option Char
  | '\x00' => some '0'
  | '\x08' => some 'b'
  | '\n' => some 'n'
  | '\x0c' => some 'f'
  | '\r' => some 'r'
  | '\"' => some '\"'
  | '\\' => some '\\'
  | _ => none

/-- Replaces each known escape by the character it stands for and keeps all else. -/
def decodeChars : List Char → List Char
  | '\\' :: c :: rest =>
    match unescape? c with
    | some d => d :: decodeChars rest
    | none => '\\' :: c :: decodeChars rest
  | c :: rest => c :: decodeChars rest
  | [] => []

/-- One character as it is written in a quoted assembler string. -/
def encodeChar (c : Char) : List Char :=
  match letter? c with
  | some e => ['\\', e]
  | none => [c]

/-- Writes each character of a text for a quoted assembler string. -/
def encodeChars (text : List Char) : List Char := text.flatMap encodeChar

/-- The text that a string literal denotes. -/
def decode (raw : String) : String := String.ofList (decodeChars raw.toList)

/-- The text as it is written between the quotes of an assembler string. -/
def encode (text : String) : String := String.ofList (encodeChars text.toList)

end ArmCompiler.Escape
