import AppAtlas.Text.Printable

/-! # Quoted texts in messages

Messages show a text between double quotes. A quote and a backslash are written after a backslash,
the common controls by a letter, and every other character that cannot be shown by its code point
in hexadecimal between braces.
-/

namespace AppAtlas.Text

/-- The digits of a number in base sixteen, small letters, no leading zero. -/
def hexDigits (n : Nat) : List Char :=
  Nat.toDigits 16 n

def quotedChar (c : Char) : List Char :=
  if c = '"' then ['\\', '"']
  else if c = '\\' then ['\\', '\\']
  else if c = '\n' then ['\\', 'n']
  else if c = '\r' then ['\\', 'r']
  else if c = '\t' then ['\\', 't']
  else if c.toNat = 0 then ['\\', '0']
  else if isPrintable c then [c]
  else ['\\', 'u', '\x7b'] ++ hexDigits c.toNat ++ ['\x7d']

def quoted (s : String) : String :=
  String.ofList ('"' :: s.toList.flatMap quotedChar ++ ['"'])

example : quoted "a\"b\\" = "\"a\\\"b\\\\\"" := by decide

end AppAtlas.Text
