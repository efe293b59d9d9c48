import ApiDocs.Text.Basic
import ApiDocs.Text.Printable

/-! Names as messages show them: between quotes, with everything that would not be seen spelled out. -/

set_option autoImplicit false

namespace ApiDocs.Text

def hexDigit (n : Nat) : CodePoint := CodePoint.ofNat (if n < 10 then 48 + n else 87 + n)

def hexDigits : Nat → Nat → Text
  | 0, _ => []
  | width + 1, n => hexDigits width (n / 16) ++ [hexDigit (n % 16)]

def quoteChar (mark c : CodePoint) : Text :=
  if c = mark ∨ c = '\\' then ['\\', c]
  else if c = '\n' then "\\n"
  else if c = '\r' then "\\r"
  else if c = '\t' then "\\t"
  else if isPrintable c then [c]
  else if c.toNat < 0x100 then "\\x" ++ hexDigits 2 c.toNat
  else if c.toNat < 0x10000 then "\\u" ++ hexDigits 4 c.toNat
  else "\\U" ++ hexDigits 8 c.toNat

/-- Single quotes enclose a text, but double ones if only the single kind occurs in it. -/
def quoteMark (text : Text) : CodePoint :=
  if text.contains '\'' && !text.contains '"' then '"' else '\''

def quoted (text : Text) : Text :=
  [quoteMark text] ++ text.flatMap (quoteChar (quoteMark text)) ++ [quoteMark text]

def ofNat (n : Nat) : Text := ofChars (Nat.toDigits 10 n)

end ApiDocs.Text
