import ArmCompiler.Text.Unprintable

/-!
# Characters Between Quotes

How a message shows a character: between single quotes, with an escape where the character
itself would be invisible or would end the quotation.
-/

namespace ArmCompiler.Text

/-- A number in lower-case hexadecimal digits, without leading zeros. -/
def hex (n : Nat) : String := String.ofList (Nat.toDigits 16 n)

/-- A character as it stands between single quotes: a short escape for NUL, tab, line ends,
the single quote and the backslash, the code point for whatever has no glyph of its own, and
the character itself otherwise. -/
def quotedBody (c : Char) : String :=
  match c with
  | '\x00' => "\\0"
  | '\t' => "\\t"
  | '\n' => "\\n"
  | '\r' => "\\r"
  | '\'' => "\\'"
  | '\\' => "\\\\"
  | c => if isUnprintable c then "\\u\x7b" ++ hex c.toNat ++ "\x7d" else String.singleton c

/-- A character between single quotes. -/
def quoted (c : Char) : String := "'" ++ quotedBody c ++ "'"

end ArmCompiler.Text
