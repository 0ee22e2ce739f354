import MmixCompiler.Text.Printable

/-! Characters in messages. A character stands in single quotes; one without a glyph of its own is
written as its code point. -/

namespace MmixCompiler.Text

/-- The code point of a character in lower-case hexadecimal, without leading zeros. -/
def hex (c : Char) : String := String.ofList (Nat.toDigits 16 c.toNat)

def escape (c : Char) : String :=
  if c = '\x00' then "\\0"
  else if c = '\t' then "\\t"
  else if c = '\n' then "\\n"
  else if c = '\r' then "\\r"
  else if c = '\\' then "\\\\"
  else if c = '\'' then "\\'"
  else if isPrintable c then String.singleton c
  else "\\u\x7b" ++ hex c ++ "\x7d"

def quote (c : Char) : String := "'" ++ escape c ++ "'"

end MmixCompiler.Text
