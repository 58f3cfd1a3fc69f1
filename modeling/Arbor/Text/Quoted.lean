/-
  Quoted texts.

  A text is shown between double quotes so that it can be told apart from every
  other text: the quote and the backslash are escaped, and so is every character
  that has no printable form or extends the character before it.
-/
import Arbor.Text.GraphemeExtend
import Arbor.Text.Unprintable

namespace Arbor.Text

/-- A character by its number in lowercase hexadecimal digits. -/
def numbered (c : Char) : List Char :=
  ['\\', 'u', '\x7b'] ++ Nat.toDigits 16 c.toNat ++ ['\x7d']

/-- A character inside quotes. -/
def quotedChar (c : Char) : List Char :=
  if c = '\x00' then ['\\', '0']
  else if c = '\t' then ['\\', 't']
  else if c = '\r' then ['\\', 'r']
  else if c = '\n' then ['\\', 'n']
  else if c = '"' then ['\\', '"']
  else if c = '\\' then ['\\', '\\']
  else if isGraphemeExtend c || isUnprintable c then numbered c
  else [c]

/-- A text between double quotes. -/
def quoted (s : String) : String := String.ofList ('"' :: s.toList.flatMap quotedChar ++ ['"'])

end Arbor.Text
